import Mathlib.Logic.Function.Basic

/-!
# Bytes in words

A memory that can only be read and written by words holds bytes all the same, four to a word.  A
field of a word is read by a shift and a mask, and written by a merge, which leaves the other bytes
alone.
-/

namespace Lanes

open BitVec (eq_of_getLsbD_eq getLsbD_and getLsbD_extractLsb')

/-- A byte of a word, counted from the low end. -/
def lane (w : BitVec 32) (i : Nat) : BitVec 8 := w.extractLsb' (8 * i) 8

/-- The bytes of a memory of words. -/
def flat (mem : Nat → BitVec 32) (x : Nat) : BitVec 8 := lane (mem (x / 4)) (x % 4)

/-- Ones in the low bits. -/
def lowBits (n : Nat) : BitVec 32 := (BitVec.allOnes n).setWidth 32

/-- A field of `n` bits at `pos` is taken from `v`, the rest from `w`. -/
def merge (w v : BitVec 32) (pos n : Nat) : BitVec 32 :=
  (w &&& ~~~(lowBits n <<< pos)) ||| ((v <<< pos) &&& (lowBits n <<< pos))

section

variable {w v : BitVec 32} {pos n i : Nat}

theorem getLsbD_lowBits (h : i < 32) : (lowBits n).getLsbD i = decide (i < n) := by
  simp [lowBits, h]

/-- **A field is read** by a shift and a mask. -/
theorem shift_mask (w : BitVec 32) (pos n : Nat) :
    (w >>> pos) &&& lowBits n = (w.extractLsb' pos n).setWidth 32 := by
  apply eq_of_getLsbD_eq
  intro i hi
  rw [getLsbD_and, getLsbD_lowBits hi, BitVec.getLsbD_ushiftRight, BitVec.getLsbD_setWidth,
    getLsbD_extractLsb', decide_eq_true hi, Bool.true_and, Bool.and_comm]

theorem getLsbD_merge (hi : i < 32) :
    (merge w v pos n).getLsbD i =
      if pos ≤ i ∧ i < pos + n then v.getLsbD (i - pos) else w.getLsbD i := by
  rw [merge, BitVec.getLsbD_or, getLsbD_and, getLsbD_and, BitVec.getLsbD_not,
    BitVec.getLsbD_shiftLeft, BitVec.getLsbD_shiftLeft, getLsbD_lowBits (by omega),
    decide_eq_true hi, Bool.true_and, Bool.true_and]
  by_cases hlow : i < pos
  · simp [hlow, Nat.not_le.mpr hlow]
  · by_cases hhigh : i < pos + n
    · have hin : i - pos < n := by omega
      simp [hlow, hin, hhigh, Nat.le_of_not_lt hlow]
    · have hout : ¬ i - pos < n := by omega
      simp [hlow, hout, hhigh]

/-- **A field is written** without touching the bytes beside it. -/
theorem lane_merge {k m : Nat} (hi : i < 4) :
    lane (merge w v (8 * k) (8 * m)) i =
      if k ≤ i ∧ i < k + m then lane v (i - k) else lane w i := by
  apply eq_of_getLsbD_eq
  intro j hj
  have hbit : 8 * i + j < 32 := by omega
  unfold lane
  rw [getLsbD_extractLsb', getLsbD_merge hbit]
  by_cases hin : k ≤ i ∧ i < k + m
  · have hfield : 8 * k ≤ 8 * i + j ∧ 8 * i + j < 8 * k + 8 * m := by omega
    have hplace : 8 * i + j - 8 * k = 8 * (i - k) + j := by omega
    rw [if_pos hin, if_pos hfield, getLsbD_extractLsb', hplace]
  · have hfield : ¬ (8 * k ≤ 8 * i + j ∧ 8 * i + j < 8 * k + 8 * m) := by omega
    rw [if_neg hin, if_neg hfield, getLsbD_extractLsb']

theorem extract_half (w : BitVec 32) (k : Nat) :
    w.extractLsb' (8 * k) 16 = lane w (k + 1) ++ lane w k := by
  apply eq_of_getLsbD_eq
  intro j hj
  unfold lane
  rw [BitVec.getLsbD_append, getLsbD_extractLsb', getLsbD_extractLsb',
    getLsbD_extractLsb', decide_eq_true hj, Bool.true_and]
  by_cases hlow : j < 8
  · simp [hlow]
  · have hplace : 8 * (k + 1) + (j - 8) = 8 * k + j := by omega
    have hin : j - 8 < 8 := by omega
    simp [hlow, hin, hplace]

theorem lane_shift (lo hi : BitVec 32) (k : Nat) (h : i < 4) :
    lane (((hi ++ lo) >>> (8 * k)).setWidth 32) i =
      if k + i < 4 then lane lo (k + i) else lane hi (k + i - 4) := by
  apply eq_of_getLsbD_eq
  intro j hj
  unfold lane
  have hbit : 8 * i + j < 32 := by omega
  rw [getLsbD_extractLsb', BitVec.getLsbD_setWidth, BitVec.getLsbD_ushiftRight,
    BitVec.getLsbD_append, decide_eq_true hbit, Bool.true_and]
  by_cases hlow : k + i < 4
  · have hin : 8 * k + (8 * i + j) < 32 := by omega
    have hplace : 8 * k + (8 * i + j) = 8 * (k + i) + j := by omega
    rw [if_pos hlow, getLsbD_extractLsb', hplace]
    simp [← hplace, hin]
  · have hout : ¬ 8 * k + (8 * i + j) < 32 := by omega
    have hplace : 8 * k + (8 * i + j) - 32 = 8 * (k + i - 4) + j := by omega
    rw [if_neg hlow, getLsbD_extractLsb', ← hplace]
    simp [hout]

end

theorem flat_update (mem : Nat → BitVec 32) (a : Nat) (w : BitVec 32) (x : Nat) :
    flat (Function.update mem a w) x = if x / 4 = a then lane w (x % 4) else flat mem x := by
  unfold flat
  rw [Function.update_apply]
  split <;> rfl

end Lanes
