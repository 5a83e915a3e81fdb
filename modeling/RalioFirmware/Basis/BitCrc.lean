import Mathlib.Data.List.Nodup
import RalioFirmware.Basis.Word

/-!
# Bit-serial 32-bit CRC

The most significant bit first CRC that shifts one message bit at a time
into a 32-bit register, for any polynomial.  With an odd polynomial a step
loses nothing: the register after it and either of its two inputs give the
other one back, so two messages that differ in one bit never leave the same
register.
-/

open Word List

namespace BitCrc

variable (poly : UInt32)

/-- Shift one message bit into the register. -/
def bitStep (crc : UInt32) (message : Bool) : UInt32 :=
  let bit := (crc &&& 0x80000000 != 0)
  let bit := if message then !bit else bit
  if bit then (crc <<< 1) ^^^ poly else crc <<< 1

/-- The bit masks of a byte, most significant first. -/
def masks : List UInt8 := [0x80, 0x40, 0x20, 0x10, 0x08, 0x04, 0x02, 0x01]

def byteStep (crc : UInt32) (c : UInt8) : UInt32 :=
  masks.foldl (fun crc i => bitStep poly crc (c &&& i != 0)) crc

/-- The register after a message. -/
def run (crc : UInt32) (message : List UInt8) : UInt32 := message.foldl (byteStep poly) crc

@[simp] theorem run_append (crc : UInt32) (xs ys : List UInt8) :
    run poly crc (xs ++ ys) = run poly (run poly crc xs) ys := foldl_append

/-! ## Bit by bit -/

/-- The bits of a byte in the order they are shifted in. -/
def byteBits (c : UInt8) : List Bool := masks.map fun i => c &&& i != 0

/-- The bits of a message in the order they are shifted in. -/
def bits (message : List UInt8) : List Bool := message.flatMap byteBits

theorem byteBits_ofNat (n : Nat) :
    byteBits (UInt8.ofNat n) = [7, 6, 5, 4, 3, 2, 1, 0].map n.testBit := by
  have hbyte : ∀ b : Fin 256,
      byteBits (UInt8.ofNat b) = [7, 6, 5, 4, 3, 2, 1, 0].map (b : Nat).testBit := by
    decide +kernel
  have hmod : UInt8.ofNat n = UInt8.ofNat (n % 256) := (UInt8.ofNat_mod_size).symm
  rw [hmod, hbyte ⟨n % 256, Nat.mod_lt _ (by decide)⟩]
  have hlow : ∀ i < 8, (n % 256).testBit i = n.testBit i := fun i hi => by
    rw [show 256 = 2 ^ 8 from rfl, Nat.testBit_mod_two_pow]
    simp [hi]
  simp [hlow]

/-- The register after a string of bits. -/
def runBits (crc : UInt32) (message : List Bool) : UInt32 := message.foldl (bitStep poly) crc

theorem run_eq_runBits (crc : UInt32) (message : List UInt8) :
    run poly crc message = runBits poly crc (bits message) := by
  unfold run runBits bits
  rw [foldl_flatMap]
  simp only [byteBits, foldl_map]
  rfl

theorem topBit_eq (crc : UInt32) : (crc &&& 0x80000000 != 0) = crc.toBitVec.getLsbD 31 := by
  have h : (crc &&& 0x80000000).toBitVec =
      if crc.toBitVec.getLsbD 31 then 0x80000000#32 else 0#32 := by
    rw [UInt32.toBitVec_and]
    exact BitVec.and_twoPow crc.toBitVec 31
  cases hb : crc.toBitVec.getLsbD 31 <;> rw [hb] at h
  · have hzero : crc &&& 0x80000000 = 0 := UInt32.toBitVec_inj.1 h
    simp [hzero]
  · have htop : crc &&& 0x80000000 = 0x80000000 := UInt32.toBitVec_inj.1 h
    rw [htop]
    decide

theorem bitStep_getLsbD (crc : UInt32) (message : Bool) (i : Nat) :
    (bitStep poly crc message).toBitVec.getLsbD i =
      ((i < 32 && 1 ≤ i && crc.toBitVec.getLsbD (i - 1)) ^^
        (poly.toBitVec.getLsbD i && (crc.toBitVec.getLsbD 31 ^^ message))) := by
  simp only [bitStep, topBit_eq]
  have hshift : (crc <<< 1).toBitVec.getLsbD i =
      (i < 32 && 1 ≤ i && crc.toBitVec.getLsbD (i - 1)) := by
    rw [UInt32.toBitVec_shiftLeft]
    show (crc.toBitVec <<< 1).getLsbD i = _
    rw [BitVec.getLsbD_shiftLeft]
    cases i with
    | zero => simp
    | succ i => simp
  rw [← hshift]
  cases crc.toBitVec.getLsbD 31 <;> cases message <;> simp

theorem bitStep_inj (hpoly : poly.toBitVec.getLsbD 0 = true) {crc crc' : UInt32}
    {message message' : Bool} (h : bitStep poly crc message = bitStep poly crc' message') :
    crc = crc' ↔ message = message' := by
  have hbit : ∀ i, (bitStep poly crc message).toBitVec.getLsbD i =
      (bitStep poly crc' message').toBitVec.getLsbD i := fun i => by rw [h]
  simp only [bitStep_getLsbD] at hbit
  have hlow := hbit 0
  simp only [hpoly] at hlow
  constructor
  · rintro rfl
    simpa using hlow
  · rintro rfl
    have htop : crc.toBitVec.getLsbD 31 = crc'.toBitVec.getLsbD 31 := by simpa using hlow
    apply UInt32.toBitVec_inj.1
    apply BitVec.eq_of_getLsbD_eq
    intro i hi
    by_cases h31 : i = 31
    · rw [h31, htop]
    · have hnext := hbit (i + 1)
      rw [htop] at hnext
      simpa [show i + 1 < 32 by omega] using hnext

theorem runBits_inj (hpoly : poly.toBitVec.getLsbD 0 = true) (message : List Bool)
    {crc crc' : UInt32} (h : runBits poly crc message = runBits poly crc' message) :
    crc = crc' := by
  induction message generalizing crc crc' with
  | nil => exact h
  | cons b message ih => exact (bitStep_inj poly hpoly (ih h)).2 rfl

/-- **One wrong bit is always noticed.** -/
theorem runBits_flip (hpoly : poly.toBitVec.getLsbD 0 = true) (crc : UInt32)
    (before after : List Bool) (b : Bool) :
    runBits poly crc (before ++ (!b) :: after) ≠ runBits poly crc (before ++ b :: after) := by
  intro h
  simp only [runBits, foldl_append, foldl_cons] at h
  have hstep := runBits_inj poly hpoly after h
  cases b <;> simpa using (bitStep_inj poly hpoly hstep).1 rfl

/-! ## Messages of words -/

/-- The bits of a word by the order in which its four bytes, lowest first,
are shifted in. -/
def wordOrder : List Nat :=
  [7, 6, 5, 4, 3, 2, 1, 0, 15, 14, 13, 12, 11, 10, 9, 8, 23, 22, 21, 20, 19, 18, 17, 16,
    31, 30, 29, 28, 27, 26, 25, 24]

theorem bits_le32 (n : Nat) : bits (le32 n) = wordOrder.map n.testBit := by
  simp [bits, le32, byteBits_ofNat, wordOrder, Nat.testBit_shiftRight]

theorem map_differ {α β : Type} {l : List α} (hl : l.Nodup) {a : α} (ha : a ∈ l) {f g : α → β}
    (h : ∀ b, b ≠ a → f b = g b) :
    ∃ before after, l.map f = before ++ f a :: after ∧ l.map g = before ++ g a :: after := by
  obtain ⟨before, after, rfl⟩ := append_of_mem ha
  obtain ⟨-, hafter, hbefore⟩ := nodup_append.1 hl
  have hpre : before.map f = before.map g :=
    map_congr_left fun b hb => h b (hbefore b hb a (mem_cons_self ..))
  have hpost : after.map f = after.map g :=
    map_congr_left fun b hb => h b fun hba => (nodup_cons.1 hafter).1 (hba ▸ hb)
  refine ⟨before.map f, after.map f, by simp, ?_⟩
  rw [hpre, hpost, map_append, map_cons]

theorem bits_le32_flip (n : Nat) {k : Nat} (hk : k < 32) :
    ∃ before b after, bits (le32 n) = before ++ b :: after ∧
      bits (le32 (n ^^^ 1 <<< k)) = before ++ (!b) :: after := by
  have hmem : k ∈ wordOrder := by
    have hall : ∀ k : Fin 32, (k : Nat) ∈ wordOrder := by decide
    exact hall ⟨k, hk⟩
  have hother : ∀ j, j ≠ k → n.testBit j = (n ^^^ 1 <<< k).testBit j := fun j hj => by
    rw [Nat.testBit_xor, Nat.one_shiftLeft, Nat.testBit_two_pow_of_ne (Ne.symm hj),
      Bool.xor_false]
  have hself : (n ^^^ 1 <<< k).testBit k = !n.testBit k := by
    rw [Nat.testBit_xor, Nat.one_shiftLeft, Nat.testBit_two_pow_self, Bool.xor_true]
  obtain ⟨before, after, hn, hflip⟩ := map_differ (by decide) hmem hother
  refine ⟨before, n.testBit k, after, ?_, ?_⟩
  · rw [bits_le32, hn]
  · rw [bits_le32, hflip, hself]

/-- **One wrong bit in a message of words is always noticed.** -/
theorem run_words_flip (hpoly : poly.toBitVec.getLsbD 0 = true) (crc : UInt32)
    (before after : List Nat) (n : Nat) {k : Nat} (hk : k < 32) :
    run poly crc ((before ++ (n ^^^ 1 <<< k) :: after).flatMap le32) ≠
      run poly crc ((before ++ n :: after).flatMap le32) := by
  obtain ⟨first, b, rest, hn, hflip⟩ := bits_le32_flip n hk
  have hsplit : ∀ m : Nat, bits ((before ++ m :: after).flatMap le32) =
      bits (before.flatMap le32) ++ bits (le32 m) ++ bits (after.flatMap le32) := fun m => by
    simp [bits]
  rw [run_eq_runBits, run_eq_runBits, hsplit, hsplit, hn, hflip]
  simpa using runBits_flip poly hpoly crc (bits (before.flatMap le32) ++ first)
    (rest ++ bits (after.flatMap le32)) b

end BitCrc
