import RalioFirmware.Basis.Fifo
import RalioFirmware.Basis.Ring

/-!
# `cbuf`

The circular buffer of the core.  `_begin` and `_end` are offsets into
`_buf` here, and `_bufend` is the offset `_size`.  `run_refines` says that the
class is a queue of at most `_size - 1` bytes.
-/

open Word Bytes List

structure Cbuf where
  size : Nat
  buf : List UInt8
  beginPos : Nat
  endPos : Nat

namespace Cbuf

/-! ## The class -/

/-- The constructor, over the array that `new` returns. -/
def init (size : Nat) (buf : List UInt8) : Cbuf where
  size := size
  buf := buf
  beginPos := 0
  endPos := 0

def wrapIfBufend (c : Cbuf) (ptr : Nat) : Nat := if ptr = c.size then 0 else ptr

def empty (c : Cbuf) : Prop := c.beginPos = c.endPos

def full (c : Cbuf) : Prop := c.wrapIfBufend (c.endPos + 1) = c.beginPos

instance (c : Cbuf) : Decidable c.empty := by unfold empty; infer_instance
instance (c : Cbuf) : Decidable c.full := by unfold full; infer_instance

def available (c : Cbuf) : Nat :=
  if c.endPos ≥ c.beginPos then c.endPos - c.beginPos else c.size - (c.beginPos - c.endPos)

def room (c : Cbuf) : Nat :=
  if c.endPos ≥ c.beginPos then c.size - (c.endPos - c.beginPos) - 1
  else c.beginPos - c.endPos - 1

/-- `peek()`. -/
def peekChar (c : Cbuf) : Int := if c.empty then -1 else (c.buf.getD c.beginPos 0).toNat

/-- `peek(dst, size)`: the count and what is stored at `dst`. -/
def peek (size : Nat) (c : Cbuf) : Nat × List UInt8 :=
  let bytes_available := c.available
  let size_to_read := if size < bytes_available then size else bytes_available
  if c.endPos < c.beginPos ∧ size_to_read > c.size - c.beginPos then
    let top_size := c.size - c.beginPos
    (size_to_read, (c.buf.drop c.beginPos).take top_size ++ c.buf.take (size_to_read - top_size))
  else (size_to_read, (c.buf.drop c.beginPos).take size_to_read)

/-- `read()`. -/
def readChar (c : Cbuf) : Int × Cbuf :=
  if c.empty then (-1, c)
  else ((c.buf.getD c.beginPos 0).toNat,
    { c with beginPos := c.wrapIfBufend (c.beginPos + 1) })

/-- `read(dst, size)`: the count and what is stored at `dst`. -/
def read (size : Nat) (c : Cbuf) : Nat × List UInt8 × Cbuf :=
  let bytes_available := c.available
  let size_to_read := if size < bytes_available then size else bytes_available
  if c.endPos < c.beginPos ∧ size_to_read > c.size - c.beginPos then
    let top_size := c.size - c.beginPos
    let rest := size_to_read - top_size
    (size_to_read, (c.buf.drop c.beginPos).take top_size ++ c.buf.take rest,
      { c with beginPos := c.wrapIfBufend (0 + rest) })
  else
    (size_to_read, (c.buf.drop c.beginPos).take size_to_read,
      { c with beginPos := c.wrapIfBufend (c.beginPos + size_to_read) })

/-- `write(c)`. -/
def writeChar (b : UInt8) (c : Cbuf) : Nat × Cbuf :=
  if c.full then (0, c)
  else (1, { c with
    buf := memcpy c.buf c.endPos [b]
    endPos := c.wrapIfBufend (c.endPos + 1) })

def write (src : List UInt8) (c : Cbuf) : Nat × Cbuf :=
  let bytes_available := c.room
  let size_to_write := if src.length < bytes_available then src.length else bytes_available
  if c.endPos ≥ c.beginPos ∧ size_to_write > c.size - c.endPos then
    let top_size := c.size - c.endPos
    let rest := size_to_write - top_size
    (size_to_write, { c with
      buf := memcpy (memcpy c.buf c.endPos (src.take top_size)) 0 ((src.drop top_size).take rest)
      endPos := c.wrapIfBufend (0 + rest) })
  else
    (size_to_write, { c with
      buf := memcpy c.buf c.endPos (src.take size_to_write)
      endPos := c.wrapIfBufend (c.endPos + size_to_write) })

def flush (c : Cbuf) : Cbuf := { c with beginPos := 0, endPos := 0 }

def remove (size : Nat) (c : Cbuf) : Nat × Cbuf :=
  let bytes_available := c.available
  if size ≥ bytes_available then (0, c.flush)
  else
    let size_to_remove := if size < bytes_available then size else bytes_available
    let c :=
      if c.endPos < c.beginPos ∧ size_to_remove > c.size - c.beginPos then
        { c with beginPos := c.wrapIfBufend (0 + (size_to_remove - (c.size - c.beginPos))) }
      else { c with beginPos := c.wrapIfBufend (c.beginPos + size_to_remove) }
    (c.available, c)

/-- `resize(newSize)`; `allocated` says whether `new` returns an array. -/
def resize (newSize : Nat) (allocated : Bool) (c : Cbuf) : Nat × Cbuf :=
  let bytes_available := c.available
  if newSize ≤ bytes_available ∨ newSize = c.size then (c.size, c)
  else if allocated = false then (c.size, c)
  else
    let (_, bytes, _) := c.read bytes_available
    (newSize, {
      size := newSize
      buf := bytes ++ List.replicate (newSize - bytes_available) 0
      beginPos := 0
      endPos := bytes_available })

def resizeAdd (addSize : Nat) (allocated : Bool) (c : Cbuf) : Nat × Cbuf :=
  c.resize (u32 (c.size + addSize)) allocated

/-! ## Calls -/

inductive Call
  | writeChar (b : UInt8)
  | write (src : List UInt8)
  | readChar
  | read (size : Nat)
  | peekChar
  | peek (size : Nat)
  | remove (size : Nat)
  | flush
  | resize (newSize : Nat) (allocated : Bool)
  | resizeAdd (addSize : Nat) (allocated : Bool)
  | available
  | room

/-- What the caller sees: the value returned and the bytes stored for it. -/
structure Reply where
  value : Int
  bytes : List UInt8
deriving DecidableEq, Repr

def Reply.count (n : Nat) (bytes : List UInt8) : Reply := ⟨n, bytes⟩

def call (c : Cbuf) : Call → Reply × Cbuf
  | .writeChar b => (.count (c.writeChar b).1 [], (c.writeChar b).2)
  | .write src => (.count (c.write src).1 [], (c.write src).2)
  | .readChar => (⟨c.readChar.1, []⟩, c.readChar.2)
  | .read size => (.count (c.read size).1 (c.read size).2.1, (c.read size).2.2)
  | .peekChar => (⟨c.peekChar, []⟩, c)
  | .peek size => (.count (c.peek size).1 (c.peek size).2, c)
  | .remove size => (.count (c.remove size).1 [], (c.remove size).2)
  | .flush => (.count 0 [], c.flush)
  | .resize newSize allocated =>
    (.count (c.resize newSize allocated).1 [], (c.resize newSize allocated).2)
  | .resizeAdd addSize allocated =>
    (.count (c.resizeAdd addSize allocated).1 [], (c.resizeAdd addSize allocated).2)
  | .available => (.count c.available [], c)
  | .room => (.count c.room [], c)

/-- The replies to a sequence of calls, and the state they leave. -/
def run : List Call → Cbuf → List Reply × Cbuf
  | [], c => ([], c)
  | a :: rest, c =>
    let rest := run rest (c.call a).2
    ((c.call a).1 :: rest.1, rest.2)

end Cbuf

/-! ## The queue it stands for -/

namespace Fifo

def head (q : Fifo UInt8) : Int :=
  match q.items with
  | [] => -1
  | b :: _ => b.toNat

/-- A queue under a new bound of `newSize - 1` bytes: what it holds has to fit
that, and there has to be memory for it. -/
def resize (newSize : Nat) (allocated : Bool) (q : Fifo UInt8) : Nat × Fifo UInt8 :=
  if q.items.length < newSize ∧ allocated = true then (newSize, q.rebound (newSize - 1))
  else (q.limit + 1, q)

def call (q : Fifo UInt8) : Cbuf.Call → Cbuf.Reply × Fifo UInt8
  | .writeChar b => (.count (min 1 q.room) [], q.offer [b])
  | .write src => (.count (min src.length q.room) [], q.offer src)
  | .readChar => (⟨q.head, []⟩, q.drop 1)
  | .read size => (.count (min size q.items.length) (q.items.take size), q.drop size)
  | .peekChar => (⟨q.head, []⟩, q)
  | .peek size => (.count (min size q.items.length) (q.items.take size), q)
  | .remove size => (.count (q.items.drop size).length [], q.drop size)
  | .flush => (.count 0 [], q.drop q.items.length)
  | .resize newSize allocated =>
    (.count (q.resize newSize allocated).1 [], (q.resize newSize allocated).2)
  | .resizeAdd addSize allocated =>
    (.count (q.resize (u32 (q.limit + 1 + addSize)) allocated).1 [],
      (q.resize (u32 (q.limit + 1 + addSize)) allocated).2)
  | .available => (.count q.items.length [], q)
  | .room => (.count q.room [], q)

/-- The replies of a queue to a sequence of calls, and the queue left. -/
def run : List Cbuf.Call → Fifo UInt8 → List Cbuf.Reply × Fifo UInt8
  | [], q => ([], q)
  | a :: rest, q =>
    let rest := run rest (q.call a).2
    ((q.call a).1 :: rest.1, rest.2)

end Fifo

/-! ## The refinement -/

namespace Cbuf

open Ring

abbrev Repr (c : Cbuf) (q : Fifo UInt8) : Prop := Ring.Repr c.size c.buf c.beginPos c.endPos q

section

variable {c : Cbuf} {q : Fifo UInt8}

theorem Repr.available (h : Repr c q) : c.available = q.items.length := by
  rw [h.length, Cbuf.available, held]

theorem Repr.room (h : Repr c q) : c.room = q.room := by
  have hlimit := h.limit
  have hb := h.first_lt
  rw [Fifo.room, h.length, Cbuf.room, held]
  split <;> omega

theorem Repr.full_iff (h : Repr c q) : c.full ↔ q.room = 0 := by
  have hlimit := h.limit
  have hb := h.first_lt
  have he := h.last_lt
  rw [Fifo.room, h.length, full, wrapIfBufend, held]
  split <;> split <;> omega

theorem ite_lt_eq_min (m n : Nat) : (if m < n then m else n) = min m n := by
  rw [Nat.min_def]
  split <;> split <;> omega

theorem Repr.readChar (h : Repr c q) :
    c.readChar.1 = q.head ∧ Repr c.readChar.2 (q.drop 1) := by
  rw [Cbuf.readChar]
  by_cases hempty : c.empty
  · have hnil := h.eq_iff.mp hempty
    have hsame : q.drop 1 = q := Fifo.ext_items rfl (by rw [Fifo.drop_items, hnil, drop_nil])
    rw [if_pos hempty, hsame, Fifo.head, hnil]
    exact ⟨rfl, h⟩
  · obtain ⟨hcons, hnext⟩ := h.head hempty
    rw [if_neg hempty, Fifo.head, hcons]
    exact ⟨rfl, hnext⟩

theorem Repr.advance (h : Repr c q) {n : Nat} (hn : n ≤ q.items.length) :
    if c.endPos < c.beginPos ∧ n > c.size - c.beginPos then
      (c.buf.drop c.beginPos).take (c.size - c.beginPos) ++
          c.buf.take (n - (c.size - c.beginPos)) = q.items.take n ∧
        Repr { c with beginPos := c.wrapIfBufend (0 + (n - (c.size - c.beginPos))) } (q.drop n)
    else
      (c.buf.drop c.beginPos).take n = q.items.take n ∧
        Repr { c with beginPos := c.wrapIfBufend (c.beginPos + n) } (q.drop n) := by
  have hb := h.first_lt
  have hlen := h.length
  unfold held at hlen
  split
  · rename_i hsplit
    generalize htop : c.size - c.beginPos = top at hsplit ⊢
    have hrest : n - top ≤ c.endPos := by grind
    -- The first piece goes to the end of the array, the second starts at 0.
    obtain ⟨htake₁, h₁⟩ := h.readBlock (n := top) (by rw [readEnd, if_neg (by omega)]; omega)
    rw [show c.beginPos + top = c.size by omega, wrap, if_pos rfl] at h₁
    obtain ⟨htake₂, h₂⟩ := h₁.readBlock (n := n - top)
      (by rw [readEnd, if_pos (Nat.zero_le _)]; omega)
    rw [drop_zero] at htake₂
    have hsame : (q.drop top).drop (n - top) = q.drop n := by
      refine Fifo.ext_items rfl ?_
      rw [Fifo.drop_items, Fifo.drop_items, Fifo.drop_items, drop_drop]
      congr 1
      omega
    rw [hsame] at h₂
    refine ⟨?_, h₂⟩
    rw [htake₁, htake₂, Fifo.drop_items, ← take_add]
    congr 1
    omega
  · rename_i hsplit
    refine h.readBlock ?_
    unfold readEnd
    split <;> split at hlen <;> omega

theorem drop_min (q : Fifo UInt8) (n : Nat) : q.drop (min n q.items.length) = q.drop n := by
  refine Fifo.ext_items rfl ?_
  rw [Fifo.drop_items, Fifo.drop_items]
  by_cases hn : n ≤ q.items.length
  · rw [Nat.min_eq_left hn]
  · rw [Nat.min_eq_right (by omega), drop_length, drop_eq_nil_of_le (by omega)]

theorem Repr.peek (h : Repr c q) (size : Nat) :
    c.peek size = (min size q.items.length, q.items.take size) := by
  have hadv := h.advance (Nat.min_le_right size q.items.length)
  rw [Cbuf.peek, h.available, ite_lt_eq_min]
  dsimp only
  split at hadv
  · rename_i hsplit
    rw [if_pos hsplit, hadv.1, ← take_eq_take_min]
  · rename_i hsplit
    rw [if_neg hsplit, hadv.1, ← take_eq_take_min]

theorem Repr.read (h : Repr c q) (size : Nat) :
    (c.read size).1 = min size q.items.length ∧ (c.read size).2.1 = q.items.take size ∧
      Repr (c.read size).2.2 (q.drop size) := by
  have hadv := h.advance (Nat.min_le_right size q.items.length)
  rw [← drop_min q size, Cbuf.read, h.available, ite_lt_eq_min]
  dsimp only
  split at hadv
  · grind
  · grind

theorem Repr.flush (h : Repr c q) : Repr c.flush (q.drop q.items.length) where
  length_buf := h.length_buf
  first_lt := Nat.zero_lt_of_lt h.first_lt
  last_lt := Nat.zero_lt_of_lt h.first_lt
  limit := h.limit
  items := by rw [Fifo.drop_items, drop_length, Cbuf.flush, unread_self]

theorem Repr.remove (h : Repr c q) (size : Nat) :
    (c.remove size).1 = (q.items.drop size).length ∧ Repr (c.remove size).2 (q.drop size) := by
  rw [Cbuf.remove, h.available, ite_lt_eq_min]
  dsimp only
  by_cases hall : size ≥ q.items.length
  · rw [if_pos hall, ← drop_min q size, Nat.min_eq_right hall]
    exact ⟨by rw [length_drop]; omega, h.flush⟩
  · have hadv := h.advance (n := size) (by omega)
    rw [if_neg hall, Nat.min_eq_left (by omega)]
    split at hadv
    · rename_i hsplit
      rw [if_pos hsplit]
      exact ⟨hadv.2.available, hadv.2⟩
    · rename_i hsplit
      rw [if_neg hsplit]
      exact ⟨hadv.2.available, hadv.2⟩

theorem Repr.writeChar (h : Repr c q) (b : UInt8) :
    ((c.writeChar b).1 : Nat) = min 1 q.room ∧ Repr (c.writeChar b).2 (q.offer [b]) := by
  have hb := h.first_lt
  have he := h.last_lt
  have hlimit := h.limit
  have hlen := h.length
  rw [Cbuf.writeChar]
  by_cases hfull : c.full
  · have hroom := h.full_iff.mp hfull
    have hsame : q.offer [b] = q := Fifo.ext_items rfl (by simp [hroom])
    rw [if_pos hfull, hsame, hroom]
    exact ⟨rfl, h⟩
  · have hroom : 1 ≤ q.room :=
      Nat.one_le_iff_ne_zero.mpr fun h0 => hfull (h.full_iff.mpr h0)
    rw [if_neg hfull]
    refine ⟨by omega, h.writeBlock [b] ?_ hroom⟩
    rw [Fifo.room, hlen] at hroom
    unfold held at hroom
    unfold writeEnd
    rw [length_singleton]
    split <;> split at hroom <;> omega

theorem Repr.write (h : Repr c q) (src : List UInt8) :
    (c.write src).1 = min src.length q.room ∧ Repr (c.write src).2 (q.offer src) := by
  have hb := h.first_lt
  have he := h.last_lt
  have hlimit := h.limit
  have hlen := h.length
  rw [Cbuf.write, h.room, ite_lt_eq_min]
  dsimp only
  generalize hn : min src.length q.room = n
  have hroom : n ≤ q.room := by omega
  have hsrc : n ≤ src.length := by omega
  have hoffer : q.offer src = q.offer (src.take n) := by
    refine Fifo.ext_items rfl ?_
    rw [Fifo.offer_items, Fifo.offer_items, take_take, ← hn]
    congr 1
    rw [take_eq_take_iff]
    omega
  rw [Fifo.room, hlen] at hroom
  unfold held at hroom
  by_cases hsplit : c.endPos ≥ c.beginPos ∧ n > c.size - c.endPos
  · rw [if_pos hsplit]
    refine ⟨rfl, ?_⟩
    rw [if_pos hsplit.1] at hroom
    generalize htop : c.size - c.endPos = top at hsplit ⊢
    have htoplen : (src.take top).length = top := by rw [length_take]; omega
    have hrestlen : ((src.drop top).take (n - top)).length = n - top := by grind
    -- The first piece goes to the end of the array, the second starts at 0.
    have h₁ := h.writeBlock (src.take top)
      (by rw [htoplen, writeEnd, if_pos hsplit.1]; omega)
      (by rw [htoplen, Fifo.room, hlen, held, if_pos hsplit.1]; omega)
    rw [htoplen, show c.endPos + top = c.size by omega, wrap, if_pos rfl] at h₁
    have hlen₁ := h₁.length
    rw [held, if_neg (by omega)] at hlen₁
    have h₂ := h₁.writeBlock ((src.drop top).take (n - top))
      (by
        rw [hrestlen, writeEnd, if_neg (by omega)]
        omega)
      (by
        rw [hrestlen, Fifo.room, hlen₁]
        dsimp only [Fifo.offer_limit]
        omega)
    rw [Fifo.offer_offer, ← take_add, show top + (n - top) = n by omega, hrestlen] at h₂
    rw [hoffer]
    exact h₂
  · rw [if_neg hsplit, hoffer]
    have hnlen : (src.take n).length = n := by rw [length_take]; omega
    have h₁ := h.writeBlock (src.take n)
      (by
        rw [hnlen, writeEnd]
        split <;> split at hroom <;> omega)
      (by rw [hnlen]; omega)
    rw [hnlen] at h₁
    exact ⟨rfl, h₁⟩

theorem Repr.resize (h : Repr c q) (newSize : Nat) (allocated : Bool) :
    (c.resize newSize allocated).1 = (q.resize newSize allocated).1 ∧
      Repr (c.resize newSize allocated).2 (q.resize newSize allocated).2 := by
  have hlimit := h.limit
  have hfits := q.fits
  rw [Cbuf.resize, Fifo.resize, h.available]
  dsimp only
  by_cases hsmall : newSize ≤ q.items.length
  · grind
  by_cases hsame : newSize = c.size
  · rw [if_pos (.inr hsame)]
    split
    · refine ⟨hsame.symm, ?_⟩
      have hq : q.rebound (newSize - 1) = q := by
        rw [Fifo.rebound, dif_pos (by omega)]
        exact Fifo.ext_items (by dsimp only; omega) rfl
      rw [hq]
      exact h
    · exact ⟨hlimit.symm, h⟩
  rw [if_neg (by rintro (h' | h') <;> contradiction)]
  cases allocated with
  | false =>
    grind
  | true =>
    have hread := (h.read q.items.length).2.1
    rw [take_length] at hread
    rw [if_neg (by simp), if_pos ⟨by omega, rfl⟩, hread]
    refine ⟨rfl, ?_⟩
    rw [Fifo.rebound, dif_pos (by omega)]
    exact {
      length_buf := by
        show (q.items ++ replicate (newSize - q.items.length) 0).length = newSize
        rw [length_append, length_replicate]
        omega
      first_lt := by
        show 0 < newSize
        omega
      last_lt := by
        show q.items.length < newSize
        omega
      limit := by
        show newSize - 1 + 1 = newSize
        omega
      items := by
        rw [unread, if_pos (Nat.zero_le _), drop_zero, Nat.sub_zero]
        exact take_left.symm }

/-- **One call.**  The class replies as the queue does, and stands for what
the queue becomes. -/
theorem Repr.call (h : Repr c q) (a : Call) :
    (c.call a).1 = (q.call a).1 ∧ Repr (c.call a).2 (q.call a).2 := by
  cases a with
  | writeChar b =>
    obtain ⟨hn, hrepr⟩ := h.writeChar b
    exact ⟨by rw [Cbuf.call, Fifo.call, hn], hrepr⟩
  | write src =>
    obtain ⟨hn, hrepr⟩ := h.write src
    exact ⟨by rw [Cbuf.call, Fifo.call, hn], hrepr⟩
  | readChar =>
    obtain ⟨hb, hrepr⟩ := h.readChar
    exact ⟨by rw [Cbuf.call, Fifo.call, hb], hrepr⟩
  | read size =>
    obtain ⟨hn, hbytes, hrepr⟩ := h.read size
    exact ⟨by rw [Cbuf.call, Fifo.call, hn, hbytes], hrepr⟩
  | peekChar =>
    refine ⟨?_, h⟩
    rw [Cbuf.call, Fifo.call, ← h.readChar.1, Cbuf.peekChar, Cbuf.readChar]
    split <;> rfl
  | peek size => exact ⟨by rw [Cbuf.call, Fifo.call, h.peek size], h⟩
  | remove size =>
    obtain ⟨hn, hrepr⟩ := h.remove size
    exact ⟨by rw [Cbuf.call, Fifo.call, hn], hrepr⟩
  | flush => exact ⟨rfl, h.flush⟩
  | resize newSize allocated =>
    obtain ⟨hn, hrepr⟩ := h.resize newSize allocated
    exact ⟨by rw [Cbuf.call, Fifo.call, hn], hrepr⟩
  | resizeAdd addSize allocated =>
    obtain ⟨hn, hrepr⟩ := h.resize (u32 (c.size + addSize)) allocated
    rw [← h.limit] at hn hrepr
    rw [Cbuf.call, Fifo.call, Cbuf.resizeAdd, ← h.limit]
    exact ⟨by rw [hn], hrepr⟩
  | available => exact ⟨by rw [Cbuf.call, Fifo.call, h.available], h⟩
  | room => exact ⟨by rw [Cbuf.call, Fifo.call, h.room], h⟩

theorem Repr.run (h : Repr c q) (calls : List Call) :
    (Cbuf.run calls c).1 = (Fifo.run calls q).1 ∧
      Repr (Cbuf.run calls c).2 (Fifo.run calls q).2 := by
  induction calls generalizing c q with
  | nil => exact ⟨rfl, h⟩
  | cons a rest ih =>
    obtain ⟨hreply, hrepr⟩ := h.call a
    obtain ⟨hreplies, hrest⟩ := ih hrepr
    refine ⟨?_, hrest⟩
    rw [Cbuf.run, Fifo.run]
    dsimp only
    rw [hreply, hreplies]

end

/-- **The class is a queue of at most `size - 1` bytes.**  Over any sequence of
calls it replies as the queue does, and its pointers stay inside its
array. -/
theorem run_refines (size : Nat) (buf : List UInt8) (hsize : 1 ≤ size) (hbuf : buf.length = size)
    (calls : List Call) :
    (run calls (init size buf)).1 = (Fifo.run calls (Fifo.empty (size - 1))).1 ∧
      Repr (run calls (init size buf)).2 (Fifo.run calls (Fifo.empty (size - 1))).2 :=
  Repr.run (.empty hsize hbuf) calls

/-- A buffer of 4 that goes round: three of five bytes fit, one is read, one
more fits behind them. -/
theorem run_refines_sample :
    (run [.write [1, 2, 3, 4, 5], .readChar, .writeChar 6, .read 9] (init 4 [0, 0, 0, 0])).1 =
      [⟨3, []⟩, ⟨1, []⟩, ⟨1, []⟩, ⟨3, [2, 3, 6]⟩] := by
  have hrefines := (run_refines 4 [0, 0, 0, 0] (by decide) rfl
    [.write [1, 2, 3, 4, 5], .readChar, .writeChar 6, .read 9]).1
  rw [hrefines]
  decide

end Cbuf
