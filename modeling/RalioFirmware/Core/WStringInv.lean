import RalioFirmware.Core.WString

/-!
# The end of a `String`

A `String` is in order when its buffer is as long as its capacity says, its length
stays within the capacity, and a NUL stands at its length.  What each function but
`replace` leaves is in order again, whether it gets memory or not; `clear` is the
exception, and so is a size that the round-up of `changeBuffer` wraps to nothing.
-/

namespace WString

open Word Bytes CString List

namespace Str

/-! ## Accessors -/

@[simp] theorem write_len (s : Str) (off : Nat) (src : List UInt8) :
    (s.write off src).len = s.len := rfl

@[simp] theorem write_capacity (s : Str) (off : Nat) (src : List UInt8) :
    (s.write off src).capacity = s.capacity := rfl

@[simp] theorem setLen_buff (s : Str) (n : Nat) : (s.setLen n).buff = s.buff := rfl

@[simp] theorem setLen_capacity (s : Str) (n : Nat) : (s.setLen n).capacity = s.capacity := rfl

theorem write_setLen (s : Str) (n off : Nat) (src : List UInt8) :
    (s.setLen n).write off src = (s.write off src).setLen n := rfl

/-! ## The invariant -/

/-- A buffer of the size that the capacity says; a block is never small. -/
structure Sized (s : Str) : Prop where
  size : s.buff.length = s.capacity + 1
  block : s.isSSO = false → 15 ≤ s.cap ∧ s.cap < 65535

/-- A `String` in order. -/
structure Inv (s : Str) : Prop extends Sized s where
  bound : s.len ≤ s.capacity
  nul : s.buff[s.len]? = some 0

variable {s : Str} {env : Env}

theorem Sized.capacity_lt (h : s.Sized) : s.capacity < 65535 := by
  unfold capacity
  cases hsso : s.isSSO with
  | true => simp
  | false => simpa using (h.block hsso).2

theorem Sized.le_capacity (h : s.Sized) : 10 ≤ s.capacity := by
  unfold capacity
  cases hsso : s.isSSO with
  | true => simp
  | false =>
    have := (h.block hsso).1
    simp only [Bool.false_eq_true, if_false]
    omega

theorem Sized.setLen_len (h : s.Sized) {n : Nat} (hn : n ≤ s.capacity) : (s.setLen n).len = n := by
  unfold capacity at hn
  cases hsso : s.isSSO with
  | true =>
    simp only [setLen, hsso, if_true] at hn ⊢
    omega
  | false =>
    have := (h.block hsso).2
    simp only [setLen, hsso, Bool.false_eq_true, if_false] at hn ⊢
    omega

theorem Sized.write (h : s.Sized) {off : Nat} {src : List UInt8}
    (hin : off + src.length ≤ s.capacity + 1) : (s.write off src).Sized where
  size := by
    rw [write_capacity, ← h.size]
    exact memcpy_length (by rw [h.size]; exact hin)
  block := h.block

theorem Sized.setLen (h : s.Sized) (n : Nat) : (s.setLen n).Sized := ⟨h.size, h.block⟩

/-- **A length with its NUL puts a `String` in order.** -/
theorem Sized.terminate (h : s.Sized) {n : Nat} (hn : n ≤ s.capacity) :
    ((s.setLen n).write n [0]).Inv where
  toSized := (h.setLen n).write (by simpa using hn)
  bound := by
    rw [write_len, h.setLen_len hn]
    exact hn
  nul := by
    have hin : n + [(0 : UInt8)].length ≤ (s.setLen n).buff.length := by
      rw [setLen_buff, h.size, length_singleton]
      omega
    rw [write_len, h.setLen_len hn]
    have := memcpy_getElem? hin n
    rw [length_singleton, if_pos ⟨Nat.le_refl n, Nat.lt_succ_self n⟩, Nat.sub_self] at this
    exact this

theorem Inv.write (h : s.Inv) {off : Nat} {src : List UInt8} (hin : off + src.length ≤ s.len) :
    (s.write off src).Inv where
  toSized := h.toSized.write (by have := h.bound; omega)
  bound := h.bound
  nul := by
    have hbound := h.bound
    have hsize := h.size
    have := memcpy_getElem? (show off + src.length ≤ s.buff.length by omega) s.len
    rw [if_neg (by omega)] at this
    exact this.trans h.nul

theorem Inv.contents_length (h : s.Inv) : s.contents.length = s.len := by
  have := h.bound
  have := h.size
  rw [contents, length_take]
  omega

theorem Inv.buff_length_lt (h : s.Inv) : s.len < s.buff.length := by
  have := h.bound
  have := h.size
  omega

/-! ## Memory -/

theorem ownBytes_length (h : s.Sized) (env : Env) : (s.ownBytes env).length = 11 := by
  unfold ownBytes
  cases hsso : s.isSSO with
  | true =>
    have := h.size
    simpa [capacity, hsso] using this
  | false => simp

theorem init_inv (hlen : (s.ownBytes env).length = 11) : (s.init env).Inv where
  size := by simp [init, capacity, isSSO, hlen]
  block := by simp [init, isSSO]
  bound := by simp [init]
  nul := by simp [init]

theorem Sized.init (h : s.Sized) (env : Env) : (s.init env).Inv :=
  init_inv (ownBytes_length h env)

/-- A size that `changeBuffer` does not wrap to nothing, or no block to lose. -/
def Reservable (s : Str) (size : Nat) : Prop := s.isSSO = true ∨ size + 16 < 4294967296

theorem reservable_of_lt {size : Nat} (h : size < 1000000) : s.Reservable size :=
  Or.inr (by omega)

/-- A `String` whose length is within its buffer; no NUL need stand behind it, as `clear` writes
none. -/
structure Held (s : Str) : Prop extends Sized s where
  bound : s.len ≤ s.capacity

theorem Inv.held (h : s.Inv) : s.Held := { h with }

/-- `t` is `s` with a larger buffer. -/
structure Extended (asked : Nat) (s t : Str) : Prop extends Held t where
  len_eq : t.len = s.len
  room : asked ≤ t.capacity
  buff_eq : ∃ n, t.buff = s.buff ++ List.replicate n 0

/-- `s` may have become `t` when asked for room: more of it, and nothing else. -/
structure Grown (asked : Nat) (s t : Str) : Prop extends Inv t where
  len_eq : t.len = s.len
  room : asked ≤ t.capacity
  start : t.buff.take (s.len + 1) = s.buff.take (s.len + 1)

theorem Inv.grown (h : s.Inv) {size : Nat} (hsize : size ≤ s.capacity) : Grown size s s :=
  { h with len_eq := rfl, room := hsize, start := rfl }

theorem Grown.contents_eq {size : Nat} {t : Str} (h : Grown size s t) :
    t.contents = s.contents := by
  have := congrArg (take s.len) h.start
  rw [take_take, take_take, Nat.min_eq_left (Nat.le_succ _)] at this
  rw [contents, contents, h.len_eq, this]

theorem rounded_of_lt {size : Nat} (h : size + 16 < 4294967296) :
    size < u32 (size + 16) / 16 * 16 ∧ u32 (size + 16) / 16 * 16 ≤ size + 16 := by
  rw [u32_of_lt h]
  omega

theorem rounded_of_ge {size : Nat} (hlt : size < 4294967296) (h : 4294967296 ≤ size + 16) :
    u32 (size + 16) / 16 * 16 = 0 := by
  unfold u32
  omega

/-- **`changeBuffer` grows the buffer or leaves the `String` as it is.** -/
theorem changeBuffer_held (env : Env) (h : s.Held) {size : Nat} (hlt : size < 4294967296)
    (hfit : s.Reservable size) (hmore : s.capacity < size) :
    s.changeBuffer env size = (false, s) ∨
      ∃ t, s.changeBuffer env size = (true, t) ∧ Extended size s t := by
  have hcapacity := h.le_capacity
  unfold changeBuffer
  rw [if_neg (by omega)]
  simp only
  by_cases hmax : u32 (size + 16) / 16 * 16 > 65535
  · rw [if_pos hmax]
    exact Or.inl rfl
  · rw [if_neg hmax]
    by_cases hwrap : size + 16 < 4294967296
    · obtain ⟨hlow, hhigh⟩ := rounded_of_lt hwrap
      generalize hround : u32 (size + 16) / 16 * 16 = newSize at hlow hhigh hmax ⊢
      rw [if_neg (by omega)]
      split
      · right
        refine ⟨_, rfl, ?_⟩
        have hlen := h.bound
        have hcap := h.capacity_lt
        have hbuff : s.buff.take newSize = s.buff := take_of_length_le (by rw [h.size]; omega)
        have hmod : s.len % 65536 = s.len := by omega
        rw [hbuff]
        refine { size := ?_, block := ?_, bound := ?_, len_eq := hmod, room := ?_,
                 buff_eq := ⟨_, rfl⟩ }
        · simp only [length_append, length_replicate, h.size, capacity, isSSO]
          simp only [capacity, isSSO] at hmore
          simp only [Bool.not_true, Bool.false_eq_true, if_false]
          omega
        · intro _
          have : newSize % 16 = 0 := by grind
          simp only
          omega
        · simp only [capacity, isSSO, hmod]
          simp only [Bool.not_true, Bool.false_eq_true, if_false]
          simp only [capacity, isSSO] at hmore hlen
          omega
        · simp only [capacity, isSSO, Bool.not_true, Bool.false_eq_true, if_false]
          omega
      · exact Or.inl rfl
    · rw [rounded_of_ge hlt (Nat.le_of_not_lt hwrap), if_pos rfl]
      have hsso : s.isSSO = true := hfit.resolve_right hwrap
      rw [hsso, if_pos rfl]
      exact Or.inl rfl

theorem Extended.grown {size : Nat} {t : Str} (ht : Extended size s t) (h : s.Inv) :
    Grown size s t := by
  obtain ⟨n, hbuff⟩ := ht.buff_eq
  refine { ht.toHeld with nul := ?_, len_eq := ht.len_eq, room := ht.room, start := ?_ }
  · rw [ht.len_eq, hbuff, getElem?_append_left h.buff_length_lt]
    exact h.nul
  · rw [hbuff]
    exact take_append_of_le_length h.buff_length_lt

theorem changeBuffer_cases (env : Env) (h : s.Inv) {size : Nat} (hlt : size < 4294967296)
    (hfit : s.Reservable size) (hmore : s.capacity < size) :
    s.changeBuffer env size = (false, s) ∨
      ∃ t, s.changeBuffer env size = (true, t) ∧ Grown size s t := by
  obtain hsame | ⟨t, heq, ht⟩ := changeBuffer_held env h.held hlt hfit hmore
  · exact Or.inl hsame
  · exact Or.inr ⟨t, heq, ht.grown h⟩

/-- **`reserve` makes room or leaves the `String` as it is.** -/
theorem reserve_cases (env : Env) (h : s.Inv) {size : Nat} (hlt : size < 4294967296)
    (hfit : s.Reservable size) :
    s.reserve env size = (false, s) ∨ ∃ t, s.reserve env size = (true, t) ∧ Grown size s t := by
  unfold reserve
  by_cases hroom : s.capacity ≥ size
  · rw [if_pos hroom]
    exact Or.inr ⟨s, rfl, h.grown hroom⟩
  · rw [if_neg hroom]
    obtain hsame | ⟨t, hgrown, ht⟩ := changeBuffer_cases env h hlt hfit (by omega)
    · rw [hsame]
      exact Or.inl rfl
    · rw [hgrown]
      refine Or.inr ⟨_, rfl, ?_⟩
      split
      · rename_i hempty
        -- The NUL that is written stands there already.
        have hzero : t.write 0 [0] = t := by
          have hnul := ht.nul
          rw [hempty] at hnul
          cases hbuff : t.buff with
          | nil => rw [hbuff] at hnul; cases hnul
          | cons b rest =>
            rw [hbuff] at hnul
            obtain rfl : b = 0 := by simpa using hnul
            cases t
            simp only at hbuff
            subst hbuff
            simp [write, memcpy]
        rw [hzero]
        exact ht
      · exact ht

theorem reserve_inv (h : s.Inv) {size : Nat} (hlt : size < 4294967296)
    (hfit : s.Reservable size) : (s.reserve env size).2.Inv := by
  obtain hsame | ⟨t, hgrown, ht⟩ := reserve_cases env h hlt hfit
  · rw [hsame]
    exact h
  · rw [hgrown]
    exact ht.toInv

/-! ## Copy and concat -/

theorem copy_inv (h : s.Inv) {cstr : List UInt8} {length : Nat} (hlt : length < 4294967296)
    (hfit : s.Reservable length) : (s.copy env cstr length).Inv := by
  unfold copy
  obtain hsame | ⟨t, hgrown, ht⟩ := reserve_cases env h hlt hfit
  · rw [hsame]
    exact h.init env
  · rw [hgrown]
    have hroom := ht.room
    simp only [write_setLen]
    refine Sized.terminate (ht.toSized.write ?_) hroom
    rw [length_take]
    omega

theorem assignCstr_inv (h : s.Inv) {cstr : Option (List UInt8)}
    (hfit : ∀ mem, cstr = some mem → s.Reservable (u32 (strlen mem))) :
    (s.assignCstr env cstr).Inv := by
  cases cstr with
  | none => exact h.init env
  | some mem => exact copy_inv h (u32_lt _) (hfit mem rfl)

def Joinable (s : Str) (length : Nat) : Prop :=
  s.len + length < 4294967296 ∧ s.Reservable (s.len + length)

theorem Inv.joinable {t : Str} (h : s.Inv) (ht : t.Inv) : s.Joinable t.len := by
  have := h.capacity_lt
  have := h.bound
  have := ht.capacity_lt
  have := ht.bound
  exact ⟨by omega, Or.inr (by omega)⟩

theorem concat_inv (h : s.Inv) {cstr : List UInt8} {length : Nat} (hfit : s.Joinable length) :
    (s.concat env cstr length).2.Inv := by
  unfold concat
  simp only [u32_of_lt hfit.1]
  split
  · exact h
  · obtain hsame | ⟨t, hgrown, ht⟩ := reserve_cases env h hfit.1 hfit.2
    · rw [hsame]
      exact h
    · rw [hgrown]
      have hroom := ht.room
      have hlen := ht.len_eq
      refine Sized.terminate (ht.toSized.write ?_) hroom
      rw [length_take]
      omega

theorem concatSelf_inv (h : s.Inv) : (s.concatSelf env).2.Inv := by
  have hbound := h.bound
  have hcap := h.capacity_lt
  unfold concatSelf
  simp only
  split
  · exact h
  · obtain hsame | ⟨t, hgrown, ht⟩ :=
      reserve_cases env h (show 2 * s.len < 4294967296 by omega) (Or.inr (by omega))
    · rw [hsame]
      exact h
    · rw [hgrown]
      have hroom := ht.room
      have hlen := ht.len_eq
      refine Sized.terminate (ht.toSized.write ?_) hroom
      rw [ht.contents_length]
      omega

theorem concatCstr_inv (h : s.Inv) {cstr : Option (List UInt8)}
    (hfit : ∀ mem, cstr = some mem → s.Joinable (u32 (strlen mem))) :
    (s.concatCstr env cstr).2.Inv := by
  cases cstr with
  | none => exact h
  | some mem => exact concat_inv h (hfit mem rfl)

/-! ## Modification -/

/-- A `String` that `clear` leaves in order. -/
def Clearable (s : Str) : Prop := s.len = 0 ∨ s.buff[0]? = some 0

theorem clear_len (h : s.Inv) : s.clear.len = 0 := h.setLen_len (Nat.zero_le _)

/-- **`clear` leaves a `String` in order if its first character was NUL already.** -/
theorem clear_inv_iff (h : s.Inv) : s.clear.Inv ↔ s.Clearable := by
  have hclear : s.clear.buff = s.buff := rfl
  constructor
  · intro hinv
    have := hinv.nul
    rw [clear_len h, hclear] at this
    exact Or.inr this
  · intro hfit
    refine { h.toSized.setLen 0 with bound := ?_, nul := ?_ }
    · show s.clear.len ≤ _
      rw [clear_len h]
      exact Nat.zero_le _
    · show s.clear.buff[s.clear.len]? = some 0
      rw [clear_len h, hclear]
      obtain hlen | hnul := hfit
      · rw [← hlen]
        exact h.nul
      · exact hnul

theorem setCharAt_inv (h : s.Inv) (loc : Nat) (c : UInt8) : (s.setCharAt loc c).Inv := by
  unfold setCharAt
  split
  · rename_i hloc
    exact h.write (by rw [length_singleton]; omega)
  · exact h

theorem remove_inv (h : s.Inv) (index count : Nat) : (s.remove index count).Inv := by
  have hbound := h.bound
  unfold remove
  split
  · exact h
  · split
    · exact h
    · rename_i hindex _
      simp only [write_setLen]
      refine Sized.terminate (h.toSized.write ?_) (by rw [write_capacity]; omega)
      rw [length_take]
      split <;> omega

theorem mapCstr_inv (h : s.Inv) (f : UInt8 → UInt8) :
    ({ s with buff := mapCstr f s.buff } : Str).Inv where
  size := (mapCstr_length f s.buff).trans h.size
  block := h.block
  bound := h.bound
  nul := mapCstr_nul h.nul

theorem trimEnd_bounds {start stop : Nat} (hstop : start ≤ stop) :
    start ≤ s.trimEnd start stop ∧ s.trimEnd start stop ≤ stop := by
  induction stop with
  | zero => exact ⟨hstop, Nat.le_refl 0⟩
  | succ stop ih =>
    rw [trimEnd]
    split
    · rename_i hspace
      have := ih hspace.2
      omega
    · omega

theorem Inv.spaces_le (h : s.Inv) : (s.buff.takeWhile isspace).length ≤ s.len := by
  by_contra hlong
  have hnul := h.nul
  have hlt : s.len < (s.buff.takeWhile isspace).length := Nat.lt_of_not_le hlong
  rw [← takeWhile_append_dropWhile (p := isspace) (l := s.buff),
    getElem?_append_left hlt] at hnul
  have hmem := mem_takeWhile_imp (mem_of_getElem? hnul)
  exact absurd hmem (by decide)

theorem trim_inv (h : s.Inv) : s.trim.Inv := by
  have hbound := h.bound
  unfold trim
  split
  · exact h
  · obtain ⟨hlow, hhigh⟩ := trimEnd_bounds (s := s) h.spaces_le
    have hlt := Nat.lt_of_le_of_lt (hhigh.trans hbound) h.capacity_lt
    simp only [sub32_of_le hlow (Nat.lt_trans hlt (by decide))]
    generalize s.trimEnd (s.buff.takeWhile isspace).length s.len = stop at hlow hhigh hlt ⊢
    simp only [write_setLen]
    have hnew : stop - (s.buff.takeWhile isspace).length ≤ s.capacity :=
      (Nat.sub_le _ _).trans (hhigh.trans hbound)
    refine Sized.terminate (h.toSized.write ?_) hnew
    split
    · grind
    · exact Nat.zero_le _

end Str

end WString
