import RalioFirmware.Updater.Reach

/-!
# One byte at a time

What a sequence of writes leaves depends on the bytes written and not on how
they were cut: a write of some bytes comes to writing them one by one
(`Accepted.write_feed`), and so do the writes of a whole image
(`Accepted.writeAll_feed`).  The one exception is an empty write behind the
last byte of the image, which flushes an empty buffer.
-/

open Word Bytes Nor Nor.Chip Esp List

namespace Updater

variable {F : SpiFlash} {u u₀ v : Updater F}

def feed : List UInt8 → Updater F → Updater F
  | [], u => u
  | x :: rest, u => feed rest (u.write [x]).2

theorem feed_append (bytes more : List UInt8) (u : Updater F) :
    feed (bytes ++ more) u = feed more (feed bytes u) := by
  induction bytes generalizing u with
  | nil => rfl
  | cons x rest ih => exact ih _

theorem feed_dropped (h : Dropped u) (bytes : List UInt8) : feed bytes u = u := by
  induction bytes with
  | nil => rfl
  | cons x rest ih => rw [feed, write_dropped h, ih]

/-- What the end of `write` leaves once its loop is through. -/
def settle (u : Updater F) : Updater F :=
  if u.bufferLen = u.remaining then u.writeBuffer.2 else u

/-- What `write` leaves of an update that has room for `data`. -/
def absorb : Nat → List UInt8 → Updater F → Updater F
  | 0, data, u => (u.fill data).settle
  | rounds+1, data, u =>
    if u.bufferLen + data.length > u.bufferSize then
      match (u.fill (data.take (u.bufferSize - u.bufferLen))).writeBuffer with
      | (false, u') => u'
      | (true, u') => absorb rounds (data.drop (u.bufferSize - u.bufferLen)) u'
    else (u.fill data).settle

theorem writeLoop_absorb {rounds : Nat} {data left : List UInt8} {ok : Bool}
    (hw : Updater.writeLoop rounds data u = (ok, left, v)) :
    absorb rounds data u = if ok then (v.fill left).settle else v := by
  induction rounds generalizing data u with
  | zero =>
    obtain ⟨rfl, rfl, rfl⟩ : true = ok ∧ data = left ∧ u = v := by
      simpa [Updater.writeLoop] using hw
    rfl
  | succ rounds ih =>
    rw [Updater.writeLoop] at hw
    rw [absorb]
    split at hw
    · rename_i hmore
      rw [if_pos hmore]
      dsimp only at hw ⊢
      generalize (u.fill (data.take (u.bufferSize - u.bufferLen))).writeBuffer = r at hw ⊢
      obtain ⟨ok₁, u₁⟩ := r
      cases ok₁ with
      | false =>
        obtain ⟨rfl, -, rfl⟩ : false = ok ∧ data = left ∧ u₁ = v := by simpa using hw
        rfl
      | true => exact ih hw
    · rename_i hmore
      obtain ⟨rfl, rfl, rfl⟩ : true = ok ∧ data = left ∧ u = v := by simpa using hw
      rw [if_neg hmore]
      rfl

theorem Running.write_eq (h : Running u) {data : List UInt8}
    (hroom : u.position + data.length ≤ u.size) :
    (u.write data).2 = absorb (data.length + 2) data u := by
  have hp := h.progress
  have hsize := h.size_lt
  rw [position, ← hp] at hroom
  rw [Updater.write, if_neg h.active, if_neg (by rw [u32_of_lt (by omega)]; omega)]
  generalize hloop : Updater.writeLoop (data.length + 2) data u = r
  obtain ⟨ok, left, u₁⟩ := r
  rw [writeLoop_absorb hloop]
  cases ok with
  | false => rfl
  | true =>
    show _ = settle _
    dsimp only
    unfold settle
    split
    · generalize (u₁.fill left).writeBuffer = r
      obtain ⟨ok₂, u₂⟩ := r
      cases ok₂ <;> rfl
    · rfl

theorem fill_fill {bytes more : List UInt8}
    (h : u.bufferLen + bytes.length + more.length ≤ u.buffer.length) :
    (u.fill bytes).fill more = u.fill (bytes ++ more) := by
  have hmem : memcpy (memcpy u.buffer u.bufferLen bytes) (u.bufferLen + bytes.length) more =
      memcpy u.buffer u.bufferLen (bytes ++ more) := by
    apply ext_getElem?
    intro i
    rw [memcpy_getElem? (by rw [memcpy_length (by omega)]; omega), memcpy_getElem? (by omega),
      memcpy_getElem? (by rw [length_append]; omega), length_append]
    by_cases h₁ : u.bufferLen + bytes.length ≤ i ∧ i < u.bufferLen + bytes.length + more.length
    · grind
    · grind
  unfold fill
  simp only [hmem, length_append, Nat.add_assoc]

theorem Running.absorb_cons (h : Running u) (hlt : u.bufferLen < u.bufferSize) (rounds : Nat)
    (x : UInt8) (rest : List UInt8) :
    absorb (rounds + 1) (x :: rest) u = absorb (rounds + 1) rest (u.fill [x]) := by
  have hbuf := h.buffer
  have hfill : ∀ more : List UInt8, u.bufferLen + 1 + more.length ≤ u.bufferSize →
      u.fill (x :: more) = (u.fill [x]).fill more := by
    intro more hmore
    exact (@fill_fill F u [x] more (by rw [hbuf]; exact hmore)).symm
  rw [absorb, absorb, length_cons]
  show _ = if u.bufferLen + 1 + rest.length > u.bufferSize then
    match ((u.fill [x]).fill (rest.take (u.bufferSize - (u.bufferLen + 1)))).writeBuffer with
    | (false, u') => u'
    | (true, u') => absorb rounds (rest.drop (u.bufferSize - (u.bufferLen + 1))) u'
    else _
  by_cases hmore : u.bufferLen + (rest.length + 1) > u.bufferSize
  · rw [if_pos hmore, if_pos (by omega)]
    obtain ⟨n, hn⟩ : ∃ n, u.bufferSize - u.bufferLen = n + 1 :=
      ⟨u.bufferSize - u.bufferLen - 1, by omega⟩
    rw [show u.bufferSize - (u.bufferLen + 1) = n by omega, hn, take_succ_cons,
      drop_succ_cons, hfill _ (by rw [length_take]; omega)]
  · rw [if_neg hmore, if_neg (by omega), hfill rest (by omega)]

theorem absorb_full (hfull : u.bufferLen = u.bufferSize) (rounds : Nat) {data : List UInt8}
    (hdata : data ≠ []) :
    absorb (rounds + 1) data u =
      match u.writeBuffer with
      | (false, u') => u'
      | (true, u') => absorb rounds data u' := by
  have hpos := length_pos_iff.mpr hdata
  rw [absorb, if_pos (by omega), hfull, Nat.sub_self, take_zero, drop_zero, fill_nil]

theorem absorb_fuel {rounds : Nat} {data : List UInt8} (hB : 0 < u.bufferSize)
    (hle : u.bufferLen ≤ u.bufferSize)
    (hr : data.length + (if u.bufferLen = u.bufferSize then 1 else 0) < rounds) :
    absorb (rounds + 1) data u = absorb rounds data u := by
  induction rounds generalizing data u with
  | zero => omega
  | succ rounds ih =>
    rw [absorb]
    conv_rhs => rw [absorb]
    by_cases hmore : u.bufferLen + data.length > u.bufferSize
    · rw [if_pos hmore, if_pos hmore]
      generalize hwb : (u.fill (data.take (u.bufferSize - u.bufferLen))).writeBuffer = r
      obtain ⟨ok, u₁⟩ := r
      cases ok with
      | false => rfl
      | true =>
        obtain ⟨-, c₁, c₂, c₃, -, -, -, heq⟩ := writeBuffer_true hwb
        have hsize : u₁.bufferSize = u.bufferSize := by rw [heq]; rfl
        have hlen : u₁.bufferLen = 0 := by rw [heq]
        refine ih (by omega) (by omega) ?_
        rw [if_neg (by omega), length_drop]
        split at hr <;> omega
    · rw [if_neg hmore, if_neg hmore]

theorem Running.absorb_room (h : Running u) (hlt : u.bufferLen < u.bufferSize) {x : UInt8}
    {rest : List UInt8} (hrest : rest ≠ []) (hroom : u.position + (rest.length + 1) ≤ u.size) :
    absorb 2 [x] u = u.fill [x] ∧
      absorb (rest.length + 2) (x :: rest) u = ((u.fill [x]).write rest).2 := by
  have hpos := length_pos_iff.mpr hrest
  have hfill : Advanced 1 u (u.fill [x]) := h.fill [x] hlt (by rw [length_singleton]; omega)
  have hposition := hfill.position
  have hsize := hfill.size
  constructor
  · have hincomplete : ¬ (u.fill [x]).bufferLen = (u.fill [x]).remaining := by
      rw [hfill.running.remaining, hfill.running.progress]
      have hp := hposition
      rw [position] at hp
      omega
    have hle : ¬ (u.fill [x]).bufferLen + 0 > (u.fill [x]).bufferSize := by
      have := hfill.running.bufferLen_le
      omega
    rw [h.absorb_cons hlt, absorb, length_nil, if_neg hle, fill_nil, settle,
      if_neg hincomplete]
  · rw [hfill.running.write_eq (by omega)]
    exact h.absorb_cons hlt _ x rest

theorem Running.write_cons (h : Running u) {x : UInt8} {rest : List UInt8} (hrest : rest ≠ [])
    (hroom : u.position + (rest.length + 1) ≤ u.size) :
    (u.write (x :: rest)).2 = ((u.write [x]).2.write rest).2 := by
  have hpos := length_pos_iff.mpr hrest
  have hB : 0 < u.bufferSize := by rcases h.bufferSize with h' | h' <;> omega
  have hle := h.bufferLen_le
  rw [h.write_eq (show u.position + (x :: rest).length ≤ u.size from hroom),
    h.write_eq (show u.position + [x].length ≤ u.size by rw [length_singleton]; omega)]
  show absorb (rest.length + 3) (x :: rest) u = ((absorb 3 [x] u).write rest).2
  by_cases hfull : u.bufferLen = u.bufferSize
  · rw [absorb_full hfull _ (by simp), absorb_full hfull _ (by simp)]
    generalize hwb : u.writeBuffer = r
    obtain ⟨ok, u₁⟩ := r
    have hflush := h.writeBuffer hwb
    cases ok with
    | false =>
      have hdrop : Dropped u₁ := by
        obtain ⟨c, evs, e, he, -, rfl, -⟩ := writeBuffer_false hwb
        exact setError_dropped (flushError_ne he) _
      show u₁ = (u₁.write rest).2
      rw [write_dropped hdrop]
    | true =>
      obtain ⟨hadv, hempty⟩ := hflush
      obtain ⟨hone, hall⟩ := hadv.running.absorb_room (x := x)
        (by rw [hempty, hadv.bufferSize]; exact hB) hrest
        (by rw [hadv.position, hadv.size]; exact hroom)
      dsimp only
      rw [hone, ← hall]
  · obtain ⟨hone, hall⟩ := h.absorb_room (x := x) (by omega) hrest hroom
    rw [absorb_fuel hB hle (by rw [if_neg hfull, length_cons]; omega), hall,
      absorb_fuel hB hle (by rw [if_neg hfull, length_singleton]; omega), hone]

/-! ## Any cut of an image -/

theorem Staging.inBounds (hb : Begun u₀) {acc : List UInt8} {f : Nat} (h : Staging u₀ acc f u)
    (hfit : acc.length ≤ u₀.size) : Running u ∧ u.position = acc.length := by
  have hlen := h.bufferLen
  have hposition : u.position = acc.length := by
    rw [position, h.current, h.startAddress]
    omega
  refine ⟨?_, hposition⟩
  exact {
    error := h.error.trans hb.error
    size_pos := by rw [h.size]; exact hb.size_pos
    size_lt := by rw [h.size]; exact hb.size_lt
    start_lt := by rw [h.startAddress]; exact hb.start_lt
    bufferSize := by rw [h.bufferSize]; exact hb.bufferSize
    buffer := by rw [h.bufferSize]; exact h.buffer_length
    bufferLen_le := by rw [h.bufferSize]; exact h.bufferLen_le
    start_le := by rw [h.startAddress, h.current]; omega
    within := by
      rw [h.current, h.startAddress]
      rcases h.within with rfl | hcap
      · exact .inl rfl
      · exact .inr hcap
    fits := by rw [hposition, h.size]; exact hfit }

variable {acc : List UInt8}

/-- **A write comes to the writes of its bytes.** -/
theorem Accepted.write_feed (hb : Begun u₀) {data : List UInt8} (h : Accepted u₀ acc u)
    (hdata : data ≠ []) (hroom : acc.length + data.length ≤ u₀.size) :
    (u.write data).2 = feed data u := by
  induction data generalizing acc u with
  | nil => exact absurd rfl hdata
  | cons x rest ih =>
    by_cases hrest : rest = []
    · subst hrest
      rfl
    · rw [length_cons] at hroom
      obtain ⟨hrun, hposition⟩ := h.inBounds hb h.fits
      rw [hrun.write_cons hrest (by rw [hposition, h.size]; exact hroom), feed]
      rcases h.write hb (Prod.eta (u.write [x])).symm with ⟨-, hacc⟩ | ⟨hdrop, -⟩
      · exact ih hacc hrest (by rw [length_append, length_singleton]; omega)
      · rw [write_dropped hdrop, feed_dropped hdrop]

theorem Accepted.write_nil_idle (hb : Begun u₀) (h : Accepted u₀ acc u)
    (hacc : acc.length ≠ u₀.size) : (u.write []).2 = u := by
  obtain ⟨hrun, hposition⟩ := h.inBounds hb h.fits
  have hle := hrun.bufferLen_le
  rw [hrun.write_eq (show u.position + ([] : List UInt8).length ≤ u.size from hrun.fits),
    length_nil, absorb, length_nil, if_neg (by omega),
    fill_nil, settle, if_neg (by rwa [h.complete_iff hb])]

theorem overrun_nil_zero (rest : List (List UInt8)) : Overrun 0 ([] :: rest) :=
  ⟨[], rest, rfl, rfl⟩

theorem overrun_cons {data : List UInt8} {size : Nat} (rest : List (List UInt8))
    (hle : data.length ≤ size) (hne : size ≠ 0 ∨ data ≠ []) :
    Overrun size (data :: rest) ↔ Overrun (size - data.length) rest := by
  constructor
  · rintro ⟨before, after, heq, hlen⟩
    cases before with
    | nil =>
      obtain ⟨rfl, rfl⟩ := cons.inj heq
      rw [flatten_nil, length_nil] at hlen
      rcases hne with hne | hne
      · exact absurd hlen.symm hne
      · exact absurd rfl hne
    | cons first before =>
      obtain ⟨rfl, rfl⟩ := cons.inj heq
      rw [flatten_cons, length_append] at hlen
      exact ⟨before, after, rfl, by omega⟩
  · rintro ⟨before, after, rfl, hlen⟩
    refine ⟨data :: before, after, rfl, ?_⟩
    rw [flatten_cons, length_append]
    omega

theorem Staging.write_nil_dropped (hb : Begun u₀) {f : Nat} (h : Staging u₀ acc f u)
    (hacc : acc.length = u₀.size) (hf : f = acc.length) : Dropped (u.write []).2 := by
  obtain ⟨hwrite, hfail⟩ := h.write_nil hb hacc hf
  obtain ⟨c, evs, e, he, -, heq, -⟩ :=
    writeBuffer_false (Prod.ext hfail rfl : u.writeBuffer = (false, u.writeBuffer.2))
  rw [hwrite, heq]
  exact setError_dropped (flushError_ne he) _

theorem writeAll_cons (data : List UInt8) (rest : List (List UInt8)) (u : Updater F) :
    (Updater.writeAll (data :: rest) u).2 = (Updater.writeAll rest (u.write data).2).2 := rfl

/-- **Writes of an image come to the writes of its bytes**, and an empty
write at the end if there is one behind the last byte. -/
theorem Accepted.writeAll_feed (hb : Begun u₀) {chunks : List (List UInt8)}
    (h : Accepted u₀ acc u) (hroom : acc.length + chunks.flatten.length ≤ u₀.size) :
    (Overrun (u₀.size - acc.length) chunks →
      (Updater.writeAll chunks u).2 = ((feed chunks.flatten u).write []).2) ∧
    (¬ Overrun (u₀.size - acc.length) chunks →
      (Updater.writeAll chunks u).2 = feed chunks.flatten u) := by
  induction chunks generalizing acc u with
  | nil => exact ⟨fun ⟨_, _, heq, _⟩ => absurd heq (by simp), fun _ => rfl⟩
  | cons data rest ih =>
    rw [flatten_cons, length_append] at hroom
    rw [flatten_cons, feed_append, writeAll_cons]
    by_cases hend : acc.length = u₀.size ∧ data = []
    · -- the empty write drops the update, and nothing but empty writes follows
      obtain ⟨hacc, rfl⟩ := hend
      have hdrop := h.write_nil_dropped hb hacc (by rw [hacc, flushedLen_size])
      have hrest : rest.flatten = [] := length_eq_zero_iff.mp (by omega)
      rw [writeAll_dropped hdrop, hrest, hacc, Nat.sub_self]
      exact ⟨fun _ => rfl, fun hn => absurd (overrun_nil_zero rest) hn⟩
    · have hover : Overrun (u₀.size - acc.length) (data :: rest) ↔
          Overrun (u₀.size - (acc ++ data).length) rest := by
        rw [overrun_cons rest (by omega), length_append, Nat.sub_sub]
        by_cases hdata : data = []
        · exact .inl fun h0 => hend ⟨by have := h.fits; omega, hdata⟩
        · exact .inr hdata
      have hwrite : (u.write data).2 = feed data u := by
        by_cases hdata : data = []
        · rw [hdata]
          exact h.write_nil_idle hb fun hacc => hend ⟨hacc, hdata⟩
        · exact h.write_feed hb hdata (by omega)
      rw [hover, hwrite]
      rcases h.write hb (Prod.eta (u.write data)).symm with ⟨-, hacc⟩ | ⟨hdrop, -⟩
      · rw [hwrite] at hacc
        exact ih hacc (by rw [length_append]; omega)
      · rw [hwrite] at hdrop
        rw [writeAll_dropped hdrop, feed_dropped hdrop, write_dropped hdrop]
        exact ⟨fun _ => rfl, fun _ => rfl⟩

end Updater
