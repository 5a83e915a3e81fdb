import Mathlib.Data.List.Nodup
import RalioFirmware.Basis.Runs

/-!
# The I2S queues

Each direction of the I2S bus has eight buffers that the DMA engine goes around on.  When it
is through with one, an interrupt puts it at the back of a queue of at most seven; the
application takes its buffers from the front, a sample at a time.

`Channel.Sound` is what the queues are for: their buffers are the last ones that were
completed, in that order, none of them handed out since.  `run_queue_iff` says which runs keep
it.
-/

namespace I2s

open Runs List
open Option (getD_some map_eq_some_iff some.inj)

/-- A buffer of a channel, by its place in `slc_items`. -/
abbrev Buf := Fin 8

/-- `i2s_state_t`.  Behind the fields of the source come the descriptor the engine is at, the
buffers it has completed, the last one last, and the buffers that the application was given
and the engine has not completed since. -/
structure Channel where
  slc_queue : List (Option Buf)
  slc_queue_len : Nat
  curr_slc_buf : Option Buf
  curr_slc_buf_pos : Nat
  contents : Buf → Nat → UInt32
  dma : Buf
  done : List Buf
  outstanding : Buf → Bool

/-- `SLC_BUF_LEN`. -/
def bufLen : Nat := 64

namespace Channel

/-- `_alloc_channel`, in memory that was cleared. -/
def alloc : Channel where
  slc_queue := replicate 8 none
  slc_queue_len := 0
  curr_slc_buf := none
  curr_slc_buf_pos := 0
  contents _ _ := 0
  dma := 0
  done := []
  outstanding _ := false

/-- The loop of `i2s_slc_queue_next_item`: the items from `i` on move up. -/
def shiftLoop : Nat → Nat → List (Option Buf) → List (Option Buf)
  | 0, _, queue => queue
  | n + 1, i, queue => shiftLoop n (i + 1) (queue.set i (queue.getD (i + 1) none))

/-- `i2s_slc_queue_next_item`.  The length is a `uint8_t`. -/
def nextItem (ch : Channel) : Option Buf × Channel :=
  let item := ch.slc_queue.getD 0 none
  let len := (ch.slc_queue_len + 255) % 256
  (item, { ch with slc_queue_len := len, slc_queue := shiftLoop len 0 ch.slc_queue })

/-- The loop of `i2s_slc_queue_append_item`: the items other than `item` move up. -/
def squeezeLoop (item : Buf) : Nat → Nat → Nat → List (Option Buf) → List (Option Buf)
  | 0, _, _, queue => queue
  | n + 1, i, dest, queue =>
    if queue.getD i none ≠ some item then
      squeezeLoop item n (i + 1) (dest + 1) (queue.set dest (queue.getD i none))
    else squeezeLoop item n (i + 1) dest queue

/-- The engine completes the buffer it is at and follows the link to the next one. -/
def complete (ch : Channel) : Channel :=
  { ch with
    dma := ch.dma + 1
    done := ch.done ++ [ch.dma]
    outstanding := fun b => if b = ch.dma then false else ch.outstanding b }

def fill (buf : Buf) (samples : Nat → UInt32) (ch : Channel) : Channel :=
  { ch with contents := fun b i => if b = buf then samples i else ch.contents b i }

/-- `slc_queue[slc_queue_len++] = item`. -/
def push (item : Buf) (ch : Channel) : Channel :=
  { ch with
    slc_queue := ch.slc_queue.set ch.slc_queue_len (some item)
    slc_queue_len := ch.slc_queue_len + 1 }

/-- `i2s_slc_queue_append_item`. -/
def appendItem (item : Buf) (ch : Channel) : Channel :=
  let ch : Channel :=
    { ch with slc_queue := squeezeLoop item ch.slc_queue_len 0 0 ch.slc_queue }
  if ch.slc_queue_len < 7 then ch.push item
  else { ch with slc_queue := ch.slc_queue.set ch.slc_queue_len (some item) }

/-- What the interrupt does for transmission: the buffer is zeroed and put at the back, in the
place of the one at the front if the queue is full. -/
def transmitted (ch : Channel) : Channel :=
  let finished := ch.dma
  let ch := ch.complete.fill finished fun _ => 0
  (if ch.slc_queue_len ≥ 7 then ch.nextItem.2 else ch).push finished

/-- What it does for reception, with a buffer that the engine filled with `samples`. -/
def received (samples : Nat → UInt32) (ch : Channel) : Channel :=
  let finished := ch.dma
  (ch.complete.fill finished samples).appendItem finished

/-- The application has no buffer with a place left in it. -/
def NeedsBuffer (ch : Channel) : Prop :=
  ch.curr_slc_buf_pos = bufLen ∨ ch.curr_slc_buf = none

instance (ch : Channel) : Decidable ch.NeedsBuffer :=
  inferInstanceAs (Decidable (_ ∨ _))

/-- The application takes the buffer at the front of the queue, with interrupts off. -/
def take (ch : Channel) : Channel :=
  let (item, ch) := ch.nextItem
  { ch with
    curr_slc_buf := item
    curr_slc_buf_pos := 0
    outstanding := fun b => if item = some b then true else ch.outstanding b }

def put (sample : UInt32) (ch : Channel) : Channel :=
  match ch.curr_slc_buf with
  | none => ch
  | some buf =>
    { ch with
      contents := fun b i =>
        if b = buf ∧ i = ch.curr_slc_buf_pos then sample else ch.contents b i
      curr_slc_buf_pos := ch.curr_slc_buf_pos + 1 }

def advance (ch : Channel) : Channel := { ch with curr_slc_buf_pos := ch.curr_slc_buf_pos + 1 }

/-! ### The calls of the application, with no interrupt in between -/

end Channel

structure Bus where
  tx : Option Channel
  rx : Option Channel

/-- After `i2s_rxtxdrive_begin`. -/
def Bus.begin (enableRx enableTx : Bool) : Bus where
  tx := if enableTx then some .alloc else none
  rx := if enableRx then some .alloc else none

/-- What happens to the channels: an interrupt, with the bits of its status, or a step of the
application, which takes a buffer when it needs one and there is one and otherwise goes
through its buffer. -/
inductive Action
  | isr (rxeof txeof : Bool) (samples : Nat → UInt32)
  | txTake
  | txPut (sample : UInt32)
  | rxTake
  | rxAdvance

def Channel.takeIfNeeded (ch : Channel) : Channel :=
  if ch.NeedsBuffer ∧ ch.slc_queue_len > 0 then ch.take else ch

def Channel.putIfAble (sample : UInt32) (ch : Channel) : Channel :=
  if ch.NeedsBuffer then ch else ch.put sample

def Channel.advanceIfAble (ch : Channel) : Channel := if ch.NeedsBuffer then ch else ch.advance

def Action.step : Action → Bus → Bus
  | .isr rxeof txeof samples, s =>
    { tx := if rxeof then s.tx.map Channel.transmitted else s.tx
      rx := if txeof then s.rx.map (Channel.received samples) else s.rx }
  | .txTake, s => { s with tx := s.tx.map Channel.takeIfNeeded }
  | .txPut sample, s => { s with tx := s.tx.map (Channel.putIfAble sample) }
  | .rxTake, s => { s with rx := s.rx.map Channel.takeIfNeeded }
  | .rxAdvance, s => { s with rx := s.rx.map Channel.advanceIfAble }

/-! ## The order of the engine -/

/-- The first `n` buffers that the engine completes. -/
def ring (n : Nat) : List Buf := (range n).map (Fin.ofNat 8)

theorem ring_succ (n : Nat) : ring (n + 1) = ring n ++ [Fin.ofNat 8 n] := by
  simp [ring, range_succ]

theorem ring_drop (n k : Nat) :
    (ring n).drop k = (range' k (n - k)).map (Fin.ofNat 8) := by
  rw [ring, ← map_drop, range_eq_range', drop_range']
  simp

variable {i : Nat}

theorem ofNat_inj {j : Nat} (h : Fin.ofNat 8 i = Fin.ofNat 8 j) : i % 8 = j % 8 :=
  congrArg Fin.val h

theorem ring_drop_distinct {n k : Nat} (hk : n ≤ k + 7) :
    ((ring n).drop k).Nodup ∧ Fin.ofNat 8 n ∉ (ring n).drop k := by
  rw [ring_drop]
  constructor
  · refine List.Nodup.map_on (fun i hi j hj h => ?_) nodup_range'
    have hmod := ofNat_inj h
    rw [mem_range'_1] at hi hj
    omega
  · rw [mem_map]
    rintro ⟨i, hi, h⟩
    have hmod := ofNat_inj h
    rw [mem_range'_1] at hi
    omega

/-! ## The queue -/

namespace Channel

def queued (ch : Channel) : List (Option Buf) := ch.slc_queue.take ch.slc_queue_len

def Filling (ch : Channel) (b : Buf) : Prop :=
  ch.curr_slc_buf = some b ∧ ch.curr_slc_buf_pos < bufLen

/-- The queue holds at most seven buffers, all of them different: the last ones that were
completed, in that order.  The engine is at none of them, and the application was not given
any of them since. -/
def Sound (ch : Channel) : Prop :=
  ∃ q : List Buf, ch.queued = q.map some ∧ q.length ≤ 7 ∧ q.Nodup ∧ q <:+ ch.done ∧ ch.dma ∉ q ∧
    ∀ b ∈ q, ch.outstanding b = false

/-- The queue holds the last `k` completions of the ring. -/
structure Turning (ch : Channel) : Prop where
  length : ch.slc_queue.length = 8
  done : ch.done = ring ch.done.length
  dma : ch.dma = Fin.ofNat 8 ch.done.length
  le : ch.slc_queue_len ≤ 7
  ge : ch.slc_queue_len ≤ ch.done.length
  queued : ch.queued = (ch.done.drop (ch.done.length - ch.slc_queue_len)).map some
  outstanding : ∀ b, some b ∈ ch.queued → ch.outstanding b = false

variable {ch : Channel}

theorem Turning.distinct (h : ch.Turning) :
    (ch.done.drop (ch.done.length - ch.slc_queue_len)).Nodup ∧
      ch.dma ∉ ch.done.drop (ch.done.length - ch.slc_queue_len) := by
  have hle := h.le
  have hdist := @ring_drop_distinct ch.done.length (ch.done.length - ch.slc_queue_len) (by omega)
  rw [← h.done] at hdist
  rw [h.dma]
  exact hdist

theorem Turning.sound (h : ch.Turning) : ch.Sound := by
  have hle := h.le
  have hge := h.ge
  obtain ⟨hnodup, hdma⟩ := h.distinct
  refine ⟨_, h.queued, ?_, hnodup, drop_suffix _ _, hdma, fun b hb => h.outstanding b ?_⟩
  · rw [length_drop]
    omega
  · rw [h.queued]
    exact mem_map_of_mem hb

theorem turning_alloc : alloc.Turning :=
  ⟨rfl, rfl, rfl, by decide, by decide, rfl, by simp [Channel.queued, alloc]⟩

variable {n : Nat} {queue : List (Option Buf)}

theorem shiftLoop_getElem? (h : i + n < queue.length)
    (j : Nat) :
    (shiftLoop n i queue)[j]? = if i ≤ j ∧ j < i + n then queue[j + 1]? else queue[j]? := by
  induction n generalizing i queue with
  | zero =>
    rw [shiftLoop, if_neg (by omega)]
  | succ n ih =>
    have hget : queue.getD (i + 1) none = queue[i + 1] := by
      rw [getD_eq_getElem?_getD, getElem?_eq_getElem (by omega), getD_some]
    rw [shiftLoop, ih (by rw [length_set]; omega), hget]
    by_cases hj : j = i
    · grind
    · grind

theorem shiftLoop_length (n i : Nat) (queue : List (Option Buf)) :
    (shiftLoop n i queue).length = queue.length := by
  induction n generalizing i queue with
  | zero => rfl
  | succ n ih => rw [shiftLoop, ih, length_set]

theorem nextItem_spec (hlen : ch.slc_queue.length = 8) (hle : ch.slc_queue_len ≤ 7)
    (hpos : 0 < ch.slc_queue_len) :
    some ch.nextItem.1 = ch.queued.head? ∧ ch.nextItem.2.queued = ch.queued.tail ∧
      ch.nextItem.2.slc_queue_len = ch.slc_queue_len - 1 ∧
      ch.nextItem.2.slc_queue.length = 8 := by
  have hdec : (ch.slc_queue_len + 255) % 256 = ch.slc_queue_len - 1 := by omega
  refine ⟨?_, ?_, hdec, ?_⟩
  · show some (ch.slc_queue.getD 0 none) = (ch.slc_queue.take ch.slc_queue_len).head?
    rw [head?_take, if_neg (by omega), getD_eq_getElem?_getD,
      head?_eq_getElem?, getElem?_eq_getElem (by omega), getD_some]
  · show (shiftLoop ((ch.slc_queue_len + 255) % 256) 0 ch.slc_queue).take
      ((ch.slc_queue_len + 255) % 256) = (ch.slc_queue.take ch.slc_queue_len).tail
    rw [hdec]
    apply ext_getElem?
    intro j
    rw [getElem?_tail, getElem?_take, getElem?_take, shiftLoop_getElem? (by omega)]
    by_cases hj : j < ch.slc_queue_len - 1
    · rw [if_pos hj, if_pos (by omega), if_pos (by omega)]
    · rw [if_neg hj, if_neg (by omega)]
  · show (shiftLoop _ 0 ch.slc_queue).length = 8
    rw [shiftLoop_length, hlen]

theorem squeezeLoop_of_notMem {item : Buf}
    (h : ∀ j, i ≤ j → j < i + n → queue[j]? ≠ some (some item)) (hlen : i + n ≤ queue.length) :
    squeezeLoop item n i i queue = queue := by
  induction n generalizing i with
  | zero => rfl
  | succ n ih =>
    have hget : queue.getD i none = queue[i] := by
      rw [getD_eq_getElem?_getD, getElem?_eq_getElem (by omega), getD_some]
    have hne : queue[i] ≠ some item := by
      intro heq
      have := h i (Nat.le_refl i) (by omega)
      rw [getElem?_eq_getElem (by omega), heq] at this
      exact this rfl
    rw [squeezeLoop, hget, if_pos hne, set_getElem_self]
    exact ih (fun j hj hj' => h j (by omega) (by omega)) (by omega)

/-! ### What the steps do -/

theorem Turning.take (h : ch.Turning) (hpos : 0 < ch.slc_queue_len) :
    ch.take.Turning ∧ ∃ b, ch.take.curr_slc_buf = some b ∧ some b ∉ ch.take.queued := by
  have hle := h.le
  have hge := h.ge
  obtain ⟨hitem, hqueued, hlen, hlength⟩ := nextItem_spec h.length hle hpos
  have htail : ch.queued.tail =
      (ch.done.drop (ch.done.length - (ch.slc_queue_len - 1))).map some := by
    have hcount : ch.done.length - ch.slc_queue_len + 1 =
        ch.done.length - (ch.slc_queue_len - 1) := by omega
    rw [h.queued, ← map_tail, tail_drop, hcount]
  have hhead : ∃ b, ch.nextItem.1 = some b ∧ some b ∉ ch.queued.tail := by
    have hnodup : ch.queued.Nodup := by
      rw [h.queued]
      exact h.distinct.1.map fun _ _ => some.inj
    cases hq : ch.queued with
    | nil =>
      have := congrArg List.length hq
      rw [h.queued, length_map, length_drop, length_nil] at this
      omega
    | cons o rest =>
      rw [hq] at hitem hnodup
      obtain ⟨b, -, hb⟩ : ∃ b ∈ ch.done.drop (ch.done.length - ch.slc_queue_len), some b = o := by
        rw [← mem_map, ← h.queued, hq]
        exact mem_cons_self
      refine ⟨b, by simpa [hb] using hitem, ?_⟩
      rw [hb]
      exact (nodup_cons.mp hnodup).1
  obtain ⟨b, hb, hnot⟩ := hhead
  refine ⟨⟨hlength, h.done, h.dma, ?_, ?_, ?_, ?_⟩, b, hb, ?_⟩
  · show ch.nextItem.2.slc_queue_len ≤ 7
    omega
  · show ch.nextItem.2.slc_queue_len ≤ ch.done.length
    omega
  · show ch.nextItem.2.queued =
      (ch.done.drop (ch.done.length - ch.nextItem.2.slc_queue_len)).map some
    rw [hqueued, htail, hlen]
  · intro b' hb'
    have hmem : some b' ∈ ch.queued.tail := hqueued ▸ hb'
    show (if ch.nextItem.1 = some b' then true else ch.outstanding b') = false
    rw [if_neg, h.outstanding b' (mem_of_mem_tail hmem)]
    rw [hb]
    intro heq
    exact hnot (heq ▸ hmem)
  · show some b ∉ ch.nextItem.2.queued
    rw [hqueued]
    exact hnot

theorem Turning.complete_done (h : ch.Turning) :
    ch.complete.done = ring ch.complete.done.length ∧
      ch.complete.dma = Fin.ofNat 8 ch.complete.done.length ∧
      ch.complete.done.length = ch.done.length + 1 := by
  have hlen : ch.complete.done.length = ch.done.length + 1 := length_append
  rw [hlen]
  refine ⟨?_, ?_, rfl⟩
  · show ch.done ++ [ch.dma] = _
    rw [ring_succ, ← h.done, h.dma]
  · show ch.dma + 1 = _
    rw [h.dma]
    apply Fin.ext
    simp [Fin.val_add, Nat.add_mod]

variable {ch' : Channel}

theorem Turning.append (h : ch.Turning) {k : Nat} (hk : k ≤ 6)
    (hkge : k ≤ ch.done.length) (hlength : ch'.slc_queue.length = 8)
    (hdone : ch'.done = ch.complete.done) (hdma : ch'.dma = ch.complete.dma)
    (hout : ch'.outstanding = ch.complete.outstanding) (hlen : ch'.slc_queue_len = k + 1)
    (hqueued : ch'.queued =
      (ch.done.drop (ch.done.length - k)).map some ++ [some ch.dma])
    (hold : k ≤ ch.slc_queue_len) : ch'.Turning := by
  obtain ⟨hring, hnext, hsucc⟩ := h.complete_done
  have hdrop : ch'.done.drop (ch'.done.length - ch'.slc_queue_len) =
      ch.done.drop (ch.done.length - k) ++ [ch.dma] := by
    rw [hlen, hdone, hsucc]
    show (ch.done ++ [ch.dma]).drop _ = _
    have hcount : ch.done.length + 1 - (k + 1) = ch.done.length - k := by omega
    rw [drop_append_of_le_length (by omega), hcount]
  refine ⟨hlength, ?_, ?_, by omega, ?_, ?_, ?_⟩
  · rw [hdone]
    exact hring
  · rw [hdma, hdone]
    exact hnext
  · rw [hdone, hsucc]
    omega
  · grind
  · intro b hb
    rw [hout]
    show (if b = ch.dma then false else ch.outstanding b) = false
    by_cases hbd : b = ch.dma
    · rw [if_pos hbd]
    · rw [if_neg hbd]
      refine h.outstanding b ?_
      rw [hqueued, mem_append] at hb
      have hmem : some b ∈ (ch.done.drop (ch.done.length - k)).map some :=
        hb.resolve_right (by simpa using hbd)
      rw [h.queued]
      have hsub : ch.done.drop (ch.done.length - k) <:+
          ch.done.drop (ch.done.length - ch.slc_queue_len) := by
        rw [show ch.done.length - k =
          ch.done.length - ch.slc_queue_len + (ch.slc_queue_len - k) by have := h.ge; omega,
          ← drop_drop]
        exact drop_suffix _ _
      exact (hsub.map some).subset hmem

theorem take_set_succ (hn : n < queue.length)
    (item : Option Buf) : (queue.set n item).take (n + 1) = queue.take n ++ [item] := by
  rw [take_add_one, getElem?_set_self hn, take_set_of_le (Nat.le_refl n)]
  rfl

theorem push_queued {item : Buf} (hlen : ch.slc_queue_len < ch.slc_queue.length) :
    (ch.push item).queued = ch.queued ++ [some item] :=
  take_set_succ hlen _

theorem Turning.transmitted (h : ch.Turning) :
    ch.transmitted.Turning ∧ some ch.dma ∈ ch.transmitted.queued ∧
      ∀ o ∈ ch.transmitted.queued, o ∈ ch.queued ∨ o = some ch.dma := by
  have hle := h.le
  have hge := h.ge
  have hlength := h.length
  set ch₁ := ch.complete.fill ch.dma fun _ => 0
  have hlen₁ : ch₁.slc_queue_len = ch.slc_queue_len := rfl
  have hqueued₁ : ch₁.queued = ch.queued := rfl
  have heq : ch.transmitted =
      (if ch.slc_queue_len ≥ 7 then ch₁.nextItem.2 else ch₁).push ch.dma := rfl
  rw [heq]
  by_cases hfull : ch.slc_queue_len ≥ 7
  · obtain ⟨-, hqueued, hlen, hlength₂⟩ :=
      nextItem_spec (show ch₁.slc_queue.length = 8 from hlength)
        (show ch₁.slc_queue_len ≤ 7 from hle) (by omega)
    have hpush : (ch₁.nextItem.2.push ch.dma).queued = ch.queued.tail ++ [some ch.dma] := by
      rw [push_queued (by omega), hqueued, hqueued₁]
    have htail : ch.queued.tail = (ch.done.drop (ch.done.length - 6)).map some := by
      have hcount : ch.done.length - ch.slc_queue_len + 1 = ch.done.length - 6 := by omega
      rw [h.queued, ← map_tail, tail_drop, hcount]
    rw [if_pos hfull]
    refine ⟨h.append (Nat.le_refl 6) (by omega) ?_ rfl rfl rfl ?_ (by rw [hpush, htail]) (by omega),
      ?_, ?_⟩
    · show (ch₁.nextItem.2.slc_queue.set _ _).length = 8
      rw [length_set, hlength₂]
    · show ch₁.nextItem.2.slc_queue_len + 1 = 7
      omega
    · rw [hpush]
      simp
    · intro o ho
      rw [hpush, mem_append, mem_singleton] at ho
      exact ho.imp_left mem_of_mem_tail
  · have hpush : (ch₁.push ch.dma).queued = ch.queued ++ [some ch.dma] :=
      push_queued (by show ch.slc_queue_len < ch.slc_queue.length; omega)
    rw [if_neg hfull]
    refine ⟨h.append (by omega) hge ?_ rfl rfl rfl rfl (by rw [hpush, h.queued]) (Nat.le_refl _),
      ?_, ?_⟩
    · show (ch.slc_queue.set _ _).length = 8
      rw [length_set, hlength]
    · rw [hpush]
      simp
    · grind

theorem Turning.squeeze (h : ch.Turning) :
    squeezeLoop ch.dma ch.slc_queue_len 0 0 ch.slc_queue = ch.slc_queue := by
  have hle := h.le
  have hlength := h.length
  refine squeezeLoop_of_notMem (fun j _ hj hfound => ?_) (by omega)
  have hmem : some ch.dma ∈ ch.queued := by
    rw [Channel.queued, mem_iff_getElem?]
    exact ⟨j, by rw [getElem?_take, if_pos (by omega), hfound]⟩
  rw [h.queued, mem_map] at hmem
  obtain ⟨b, hb, heq⟩ := hmem
  obtain rfl := some.inj heq
  exact h.distinct.2 hb

theorem Turning.received_eq (h : ch.Turning) (samples : Nat → UInt32) :
    ch.received samples =
      if ch.slc_queue_len < 7 then (ch.complete.fill ch.dma samples).push ch.dma
      else { ch.complete.fill ch.dma samples with
        slc_queue := ch.slc_queue.set ch.slc_queue_len (some ch.dma) } := by
  show (let c : Channel := { ch.complete.fill ch.dma samples with
      slc_queue := squeezeLoop ch.dma ch.slc_queue_len 0 0 ch.slc_queue }
    if ch.slc_queue_len < 7 then c.push ch.dma
    else { c with slc_queue := c.slc_queue.set ch.slc_queue_len (some ch.dma) }) = _
  rw [h.squeeze]
  rfl

theorem Turning.received (h : ch.Turning) (samples : Nat → UInt32) (hroom : ch.slc_queue_len < 7) :
    (ch.received samples).Turning := by
  have hlength := h.length
  have hpush : ((ch.complete.fill ch.dma samples).push ch.dma).queued =
      ch.queued ++ [some ch.dma] :=
    push_queued (by show ch.slc_queue_len < ch.slc_queue.length; omega)
  rw [h.received_eq, if_pos hroom]
  refine h.append (by omega) h.ge ?_ rfl rfl rfl rfl (by rw [hpush, h.queued]) (Nat.le_refl _)
  show (ch.slc_queue.set _ _).length = 8
  rw [length_set, hlength]

theorem Turning.received_full (h : ch.Turning) (samples : Nat → UInt32)
    (hfull : ¬ ch.slc_queue_len < 7) : ¬ (ch.received samples).Sound := by
  have hlen : ch.slc_queue_len = 7 := by
    have := h.le
    omega
  have hqueued : (ch.received samples).queued = ch.queued := by
    rw [h.received_eq, if_neg hfull]
    exact take_set_of_le (Nat.le_refl _)
  rintro ⟨q, hq, -, -, hsuffix, hdma, -⟩
  rw [hqueued, h.queued] at hq
  obtain rfl : ch.done.drop (ch.done.length - ch.slc_queue_len) = q :=
    map_injective_iff.mpr (fun _ _ => some.inj) hq
  have hdone : (ch.received samples).done = ch.done ++ [ch.dma] := by
    rw [h.received_eq, if_neg hfull]
    rfl
  rw [hdone] at hsuffix
  have hne : ch.done.drop (ch.done.length - ch.slc_queue_len) ≠ [] := by
    intro hnil
    have := congrArg List.length hnil
    rw [length_drop, length_nil] at this
    have := h.ge
    omega
  have hlast := hsuffix.getLast hne
  rw [getLast_append_singleton] at hlast
  exact h.distinct.2 (hlast ▸ getLast_mem hne)

theorem Turning.of_queue (h : ch.Turning) (hqueue : ch'.slc_queue = ch.slc_queue)
    (hlen : ch'.slc_queue_len = ch.slc_queue_len) (hdma : ch'.dma = ch.dma)
    (hdone : ch'.done = ch.done) (hout : ch'.outstanding = ch.outstanding) : ch'.Turning := by
  have hqueued : ch'.queued = ch.queued := by
    rw [Channel.queued, Channel.queued, hqueue, hlen]
  refine ⟨by rw [hqueue]; exact h.length, by rw [hdone]; exact h.done,
    by rw [hdma, hdone]; exact h.dma, by rw [hlen]; exact h.le, by rw [hlen, hdone]; exact h.ge,
    by rw [hqueued, hdone, hlen]; exact h.queued, ?_⟩
  rw [hqueued, hout]
  exact h.outstanding

end Channel

/-! ## Runs -/

/-- What the queues are for, and that the application is not in the middle of a buffer that
is queued. -/
structure Bus.Good (s : Bus) : Prop where
  tx : ∀ ch, s.tx = some ch → ch.Sound ∧ ∀ b, ch.Filling b → some b ∉ ch.queued
  rx : ∀ ch, s.rx = some ch → ch.Sound

/-- The interrupt does not find the reception queue full, nor the buffer that was transmitted
in the hands of the application. -/
def Action.Fits : Action → Bus → Prop
  | .isr rxeof txeof _, s =>
    (rxeof = true → ∀ ch, s.tx = some ch → ¬ ch.Filling ch.dma) ∧
      (txeof = true → ∀ ch, s.rx = some ch → ch.slc_queue_len < 7)
  | _, _ => True

structure Bus.Inv (s : Bus) : Prop where
  tx : ∀ ch, s.tx = some ch → ch.Turning ∧ ∀ b, ch.Filling b → some b ∉ ch.queued
  rx : ∀ ch, s.rx = some ch → ch.Turning

variable {s : Bus} {ch : Channel}

theorem Bus.Inv.good (h : s.Inv) : s.Good :=
  ⟨fun ch hch => ⟨(h.tx ch hch).1.sound, (h.tx ch hch).2⟩, fun ch hch => (h.rx ch hch).sound⟩

theorem inv_begin (enableRx enableTx : Bool) : (Bus.begin enableRx enableTx).Inv := by
  constructor
  · intro ch hch
    cases enableTx with
    | false => simp [Bus.begin] at hch
    | true =>
      obtain rfl : Channel.alloc = ch := by simpa [Bus.begin] using hch
      exact ⟨Channel.turning_alloc, fun b hb => by simp [Channel.Filling, Channel.alloc] at hb⟩
  · intro ch hch
    cases enableRx with
    | false => simp [Bus.begin] at hch
    | true =>
      obtain rfl : Channel.alloc = ch := by simpa [Bus.begin] using hch
      exact Channel.turning_alloc

theorem Channel.Turning.takeIfNeeded (h : ch.Turning) :
    ch.takeIfNeeded.Turning ∧ ((∀ b, ch.Filling b → some b ∉ ch.queued) →
      ∀ b, ch.takeIfNeeded.Filling b → some b ∉ ch.takeIfNeeded.queued) := by
  unfold Channel.takeIfNeeded
  split
  · rename_i hcond
    obtain ⟨hturn, b, hb, hnot⟩ := h.take hcond.2
    refine ⟨hturn, fun _ b' hb' => ?_⟩
    obtain rfl : b = b' := some.inj (hb.symm.trans hb'.1)
    exact hnot
  · exact ⟨h, fun hfill => hfill⟩

theorem Channel.putIfAble_same (sample : UInt32) (ch : Channel) :
    (ch.putIfAble sample).slc_queue = ch.slc_queue ∧
      (ch.putIfAble sample).slc_queue_len = ch.slc_queue_len ∧
      (ch.putIfAble sample).dma = ch.dma ∧ (ch.putIfAble sample).done = ch.done ∧
      (ch.putIfAble sample).outstanding = ch.outstanding ∧
      ∀ b, (ch.putIfAble sample).Filling b → ch.Filling b := by
  unfold Channel.putIfAble
  split
  · exact ⟨rfl, rfl, rfl, rfl, rfl, fun _ h => h⟩
  · unfold Channel.put
    split
    · exact ⟨rfl, rfl, rfl, rfl, rfl, fun _ h => h⟩
    · rename_i buf hbuf
      refine ⟨rfl, rfl, rfl, rfl, rfl, fun b hb => ⟨hb.1, ?_⟩⟩
      have hlt : ch.curr_slc_buf_pos + 1 < bufLen := hb.2
      omega

theorem Channel.advanceIfAble_same (ch : Channel) :
    ch.advanceIfAble.slc_queue = ch.slc_queue ∧
      ch.advanceIfAble.slc_queue_len = ch.slc_queue_len ∧ ch.advanceIfAble.dma = ch.dma ∧
      ch.advanceIfAble.done = ch.done ∧ ch.advanceIfAble.outstanding = ch.outstanding := by
  unfold Channel.advanceIfAble
  split <;> exact ⟨rfl, rfl, rfl, rfl, rfl⟩

theorem Channel.transmitted_filling (ch : Channel) (b : Buf) :
    ch.transmitted.Filling b ↔ ch.Filling b := by
  unfold Channel.transmitted Channel.Filling
  dsimp only
  split <;> rfl

/-- **One step keeps the invariant** when it fits. -/
theorem Bus.Inv.step (a : Action) (s : Bus) (h : s.Inv) (hfits : a.Fits s) : (a.step s).Inv := by
  cases a with
  | isr rxeof txeof samples =>
    constructor
    · intro ch' hch'
      cases rxeof with
      | false => exact h.tx ch' hch'
      | true =>
        obtain ⟨ch, hch, rfl⟩ := map_eq_some_iff.mp hch'
        obtain ⟨hturn, hfill⟩ := h.tx ch hch
        obtain ⟨hturn', -, hqueued⟩ := hturn.transmitted
        refine ⟨hturn', fun b hb hmem => ?_⟩
        have hb' := (ch.transmitted_filling b).mp hb
        rcases hqueued _ hmem with hold | hnew
        · exact hfill b hb' hold
        · obtain rfl := some.inj hnew
          exact hfits.1 rfl ch hch hb'
    · intro ch' hch'
      cases txeof with
      | false => exact h.rx ch' hch'
      | true =>
        obtain ⟨ch, hch, rfl⟩ := map_eq_some_iff.mp hch'
        exact (h.rx ch hch).received samples (hfits.2 rfl ch hch)
  | txTake =>
    refine ⟨fun ch' hch' => ?_, h.rx⟩
    obtain ⟨ch, hch, rfl⟩ := map_eq_some_iff.mp hch'
    obtain ⟨hturn, hfill⟩ := h.tx ch hch
    exact ⟨hturn.takeIfNeeded.1, hturn.takeIfNeeded.2 hfill⟩
  | txPut sample =>
    refine ⟨fun ch' hch' => ?_, h.rx⟩
    obtain ⟨ch, hch, rfl⟩ := map_eq_some_iff.mp hch'
    obtain ⟨hturn, hfill⟩ := h.tx ch hch
    obtain ⟨hqueue, hlen, hdma, hdone, hout, hsame⟩ := ch.putIfAble_same sample
    refine ⟨hturn.of_queue hqueue hlen hdma hdone hout, fun b hb => ?_⟩
    rw [Channel.queued, hqueue, hlen]
    exact hfill b (hsame b hb)
  | rxTake =>
    refine ⟨h.tx, fun ch' hch' => ?_⟩
    obtain ⟨ch, hch, rfl⟩ := map_eq_some_iff.mp hch'
    exact (h.rx ch hch).takeIfNeeded.1
  | rxAdvance =>
    refine ⟨h.tx, fun ch' hch' => ?_⟩
    obtain ⟨ch, hch, rfl⟩ := map_eq_some_iff.mp hch'
    obtain ⟨hqueue, hlen, hdma, hdone, hout⟩ := ch.advanceIfAble_same
    exact (h.rx ch hch).of_queue hqueue hlen hdma hdone hout

theorem Bus.Inv.fits (a : Action) (s : Bus) (h : s.Inv) (hgood : (a.step s).Good) : a.Fits s := by
  cases a with
  | isr rxeof txeof samples =>
    refine ⟨?_, ?_⟩
    · rintro rfl ch hch hfill
      obtain ⟨-, hmem, -⟩ := (h.tx ch hch).1.transmitted
      have htx := hgood.tx ch.transmitted (by simp [Action.step, hch])
      exact htx.2 ch.dma ((ch.transmitted_filling _).mpr hfill) hmem
    · rintro rfl ch hch
      by_contra hfull
      have hrx := hgood.rx (ch.received samples) (by simp [Action.step, hch])
      exact (h.rx ch hch).received_full samples hfull hrx
  | txTake => trivial
  | txPut sample => trivial
  | rxTake => trivial
  | rxAdvance => trivial

/-! ### The calls are runs -/

/-- **The queues are sound throughout a run just when no interrupt finds the reception queue
full or a buffer transmitted that the application is still filling.** -/
theorem run_queue_iff (enableRx enableTx : Bool) (actions : List Action) :
    (∀ start, start <+: actions →
      (after Action.step start (Bus.begin enableRx enableTx)).Good) ↔
      AllFit Action.step Action.Fits actions (Bus.begin enableRx enableTx) :=
  always_iff_allFit (fun _ h => h.good) Bus.Inv.step Bus.Inv.fits (inv_begin enableRx enableTx)

/-- Eight completions that nobody reads: the last one is not queued. -/
theorem not_run_queue :
    ¬ ∀ (enableRx enableTx : Bool) (actions : List Action),
      (after Action.step actions (Bus.begin enableRx enableTx)).Good := by
  intro h
  obtain ⟨q, hq, -, -, hsuffix, -⟩ :=
    (h true false (List.replicate 8 (.isr false true fun _ => 0))).rx _ rfl
  have hlist : q = (q.map some).filterMap id := by simp
  rw [hlist, ← hq] at hsuffix
  exact absurd hsuffix (by decide)

end I2s
