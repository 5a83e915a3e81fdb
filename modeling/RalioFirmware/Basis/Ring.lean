import RalioFirmware.Basis.Fifo

/-!
# Rings

A ring is an array with the position of the first unread byte and of the
first free cell; both go round at the end of the array.  `unread` is the
bytes between them, `Repr` says that they are those of a queue.  A block
operation touches cells up to the end of the array only, so a copy that goes
round is two of them.
-/

open Bytes List

namespace Ring

/-- A position behind the last cell is the first one. -/
def wrap (size i : Nat) : Nat := if i = size then 0 else i

/-- How many bytes stand between two positions. -/
def held (size first last : Nat) : Nat :=
  if first ≤ last then last - first else size - (first - last)

/-- The bytes between two positions. -/
def unread (buf : List UInt8) (first last : Nat) : List UInt8 :=
  if first ≤ last then (buf.drop first).take (last - first)
  else buf.drop first ++ buf.take last

/-- The end of the cells that can be read from `first` on without going
round. -/
def readEnd (size first last : Nat) : Nat := if first ≤ last then last else size

/-- The end of the cells that can be written from `last` on without going
round. -/
def writeEnd (size first last : Nat) : Nat := if first ≤ last then size else first

variable {buf bs : List UInt8} {first last n : Nat}

theorem wrap_lt {size i : Nat} (h : i ≤ size) (hpos : 0 < size) : wrap size i < size := by
  unfold wrap
  split <;> omega

theorem mod_eq_wrap {size i : Nat} (h : i ≤ size) : i % size = wrap size i := by
  unfold wrap
  split
  · rename_i heq
    rw [heq, Nat.mod_self]
  · exact Nat.mod_eq_of_lt (by omega)

@[simp] theorem unread_length (hf : first < buf.length) (hl : last < buf.length) :
    (unread buf first last).length = held buf.length first last := by
  unfold unread held
  split
  · grind
  · grind

theorem unread_self : unread buf first first = [] := by
  rw [unread, if_pos (Nat.le_refl _), Nat.sub_self, take_zero]

theorem unread_eq_nil_iff (hf : first < buf.length) (hl : last < buf.length) :
    unread buf first last = [] ↔ first = last := by
  rw [← length_eq_zero_iff, unread_length hf hl, held]
  split <;> omega

theorem read_take (hf : first < buf.length) (h : first + n ≤ readEnd buf.length first last) :
    (buf.drop first).take n = (unread buf first last).take n := by
  unfold readEnd at h
  unfold unread
  split
  · grind
  · grind

theorem read_drop (hf : first < buf.length) (hl : last < buf.length)
    (h : first + n ≤ readEnd buf.length first last) :
    unread buf (wrap buf.length (first + n)) last = (unread buf first last).drop n := by
  unfold readEnd at h
  unfold unread wrap
  by_cases hle : first ≤ last
  · rw [if_pos hle] at h
    rw [if_pos hle, if_neg (show first + n ≠ buf.length by omega), if_pos h, drop_take,
      drop_drop, Nat.sub_sub]
  · rw [if_neg hle] at h
    rw [if_neg hle]
    by_cases hend : first + n = buf.length
    · have hn : n = (buf.drop first).length := by rw [length_drop]; omega
      rw [if_pos hend, if_pos (Nat.zero_le _), drop_zero, Nat.sub_zero, hn, drop_left]
    · rw [if_neg hend, if_neg (by omega),
        drop_append_of_le_length (by rw [length_drop]; omega), drop_drop]

theorem write_append (hf : first < buf.length) (hl : last < buf.length)
    (h : last + bs.length ≤ writeEnd buf.length first last)
    (hfree : held buf.length first last + bs.length < buf.length) :
    unread (memcpy buf last bs) first (wrap buf.length (last + bs.length)) =
      unread buf first last ++ bs := by
  unfold writeEnd at h
  unfold held at hfree
  have htake := @memcpy_take buf bs last
  by_cases hle : first ≤ last
  · rw [if_pos hle] at h hfree
    have htake := htake h
    -- The cells from `first` to the end of what has been written.
    have hnew : ((memcpy buf last bs).drop first).take (last + bs.length - first) =
        (buf.drop first).take (last - first) ++ bs := by
      rw [← drop_take, htake, drop_append_of_le_length (by rw [length_take]; omega),
        drop_take]
    rw [unread, unread, if_pos hle]
    unfold wrap
    by_cases hend : last + bs.length = buf.length
    · have hall : ((memcpy buf last bs).drop first).length ≤ last + bs.length - first := by
        rw [length_drop, memcpy_length h]
        omega
      rw [take_of_length_le hall] at hnew
      rw [if_pos hend, if_neg (by omega), hnew, take_zero, append_nil]
    · rw [if_neg hend, if_pos (by omega), hnew]
  · rw [if_neg hle] at h hfree
    have htake := htake (by omega)
    have hdrop : (memcpy buf last bs).drop first = buf.drop first := by
      have hlen : (buf.take last ++ bs).length = last + bs.length := by grind
      rw [memcpy, drop_append, drop_eq_nil_of_le (by omega), nil_append, hlen,
        drop_drop]
      congr 1
      omega
    rw [unread, unread, if_neg hle]
    unfold wrap
    rw [if_neg (show last + bs.length ≠ buf.length by omega), if_neg (by omega), hdrop, htake,
      append_assoc]

theorem unread_eq_cons (hf : first < buf.length) (hl : last < buf.length) (hne : first ≠ last) :
    unread buf first last =
      buf.getD first 0 :: unread buf (wrap buf.length (first + 1)) last := by
  have hread : first + 1 ≤ readEnd buf.length first last := by
    unfold readEnd
    split <;> omega
  have htake := read_take hf hread
  have hget : (buf.drop first).take 1 = [buf.getD first 0] := by
    rw [drop_eq_getElem_cons hf, take_succ_cons, take_zero,
      getD_eq_getElem?_getD, getElem?_eq_getElem hf, Option.getD_some]
  rw [read_drop hf hl hread, ← take_append_drop 1 (unread buf first last), ← htake, hget]
  rfl

/-! ## The queue in a ring -/

/-- The bytes between two positions inside an array of `size` bytes are those
of a queue, which the array has room for. -/
structure Repr (size : Nat) (buf : List UInt8) (first last : Nat) (q : Fifo UInt8) : Prop where
  length_buf : buf.length = size
  first_lt : first < size
  last_lt : last < size
  limit : q.limit + 1 = size
  items : q.items = unread buf first last

section

variable {size : Nat} {q : Fifo UInt8}

theorem Repr.empty (hsize : 1 ≤ size) (hbuf : buf.length = size) :
    Repr size buf 0 0 (Fifo.empty (size - 1)) where
  length_buf := hbuf
  first_lt := hsize
  last_lt := hsize
  limit := Nat.sub_add_cancel hsize
  items := unread_self.symm

theorem Repr.length (h : Repr size buf first last q) : q.items.length = held size first last := by
  obtain ⟨rfl, hf, hl, -, hitems⟩ := h
  rw [hitems, unread_length hf hl]

theorem Repr.eq_iff (h : Repr size buf first last q) : first = last ↔ q.items = [] := by
  obtain ⟨rfl, hf, hl, -, hitems⟩ := h
  rw [hitems, unread_eq_nil_iff hf hl]

theorem Repr.dropped (h : Repr size buf first last q) {i : Nat} (hi : i ≤ size)
    (hitems : unread buf (wrap size i) last = q.items.drop n) :
    Repr size buf (wrap size i) last (q.drop n) where
  length_buf := h.length_buf
  first_lt := wrap_lt hi (by have := h.first_lt; omega)
  last_lt := h.last_lt
  limit := h.limit
  items := hitems.symm

theorem Repr.readBlock (h : Repr size buf first last q) (hn : first + n ≤ readEnd size first last) :
    (buf.drop first).take n = q.items.take n ∧
      Repr size buf (wrap size (first + n)) last (q.drop n) := by
  obtain ⟨rfl, hf, hl, hlimit, hitems⟩ := h
  have hi : first + n ≤ buf.length := by
    unfold readEnd at hn
    split at hn <;> omega
  refine ⟨by rw [hitems, read_take hf hn], ?_⟩
  exact dropped ⟨rfl, hf, hl, hlimit, hitems⟩ hi (by rw [hitems, read_drop hf hl hn])

theorem Repr.head (h : Repr size buf first last q) (hne : first ≠ last) :
    q.items = buf.getD first 0 :: (q.drop 1).items ∧
      Repr size buf (wrap size (first + 1)) last (q.drop 1) := by
  have hread : first + 1 ≤ readEnd size first last := by
    have := h.first_lt
    have := h.last_lt
    unfold readEnd
    split <;> omega
  have hnext := (h.readBlock hread).2
  obtain ⟨rfl, hf, hl, -, hitems⟩ := h
  refine ⟨?_, hnext⟩
  rw [hnext.items, hitems]
  exact unread_eq_cons hf hl hne

theorem Repr.writeBlock (h : Repr size buf first last q) (bs : List UInt8)
    (hblock : last + bs.length ≤ writeEnd size first last) (hroom : bs.length ≤ q.room) :
    Repr size (memcpy buf last bs) first (wrap size (last + bs.length)) (q.offer bs) := by
  have hlen := h.length
  have hfits := q.fits
  obtain ⟨rfl, hf, hl, hlimit, hitems⟩ := h
  have hin : last + bs.length ≤ buf.length := by
    unfold writeEnd at hblock
    split at hblock <;> omega
  rw [Fifo.room] at hroom
  exact {
    length_buf := memcpy_length hin
    first_lt := hf
    last_lt := wrap_lt hin (by omega)
    limit := hlimit
    items := by
      rw [write_append hf hl hblock (by omega), ← hitems, Fifo.offer_items,
        take_of_length_le (by rw [Fifo.room]; omega)] }

end

end Ring
