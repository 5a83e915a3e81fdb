import RalioFirmware.Updater.Basic

/-!
# One flush of the sector buffer

`writeBuffer` erases the sector it enters, adjusts the flash mode in the
first flush of a sketch, programs the buffer and hashes it.  Two theorems say
all it can do: `writeBuffer_true` and `writeBuffer_false`.
-/

open Word Bytes Nor Nor.Chip Esp List

namespace Updater

variable {F : SpiFlash}

/-! ## The flash mode byte -/

/-- The image as the first flush programs it on a chip in mode `mode`. -/
def patchMode (mode : UInt8) (bytes : List UInt8) : List UInt8 :=
  if bytes.getD 0 0 ≠ 0x1f ∧ magicFlashChipMode (bytes.getD 2 0) ≠ mode then bytes.set 2 mode
  else bytes

/-- The image as it stands in the buffer once the mode byte has been put
back. -/
def unpatchMode (mode : UInt8) (bytes : List UInt8) : List UInt8 :=
  if bytes.getD 0 0 ≠ 0x1f ∧ magicFlashChipMode (bytes.getD 2 0) ≠ mode then
    bytes.set 2 (magicFlashChipMode (bytes.getD 2 0))
  else bytes

@[simp] theorem patchMode_length (mode : UInt8) (bytes : List UInt8) :
    (patchMode mode bytes).length = bytes.length := by
  unfold patchMode; split <;> simp

@[simp] theorem unpatchMode_length (mode : UInt8) (bytes : List UInt8) :
    (unpatchMode mode bytes).length = bytes.length := by
  unfold unpatchMode; split <;> simp

theorem set_two_take (bytes : List UInt8) (b : UInt8 → UInt8) (n : Nat) (p : UInt8 → UInt8 → Prop)
    [∀ x y, Decidable (p x y)] :
    (if p (bytes.getD 0 0) (bytes.getD 2 0) then bytes.set 2 (b (bytes.getD 2 0))
      else bytes).take n =
      if p ((bytes.take n).getD 0 0) ((bytes.take n).getD 2 0) then
        (bytes.take n).set 2 (b ((bytes.take n).getD 2 0))
      else bytes.take n := by
  by_cases hn : 2 < n
  · have h0 : (bytes.take n).getD 0 0 = bytes.getD 0 0 := by
      simp [getD_eq_getElem?_getD, getElem?_take_of_lt (show 0 < n by omega)]
    have h2 : (bytes.take n).getD 2 0 = bytes.getD 2 0 := by
      simp [getD_eq_getElem?_getD, getElem?_take_of_lt hn]
    rw [h0, h2]
    split
    · rw [take_set]
    · rfl
  · have hset : ∀ b, (bytes.take n).set 2 b = bytes.take n := fun b =>
      set_eq_of_length_le (by simp; omega)
    split <;> split <;> simp [take_set, hset]

theorem patchMode_take (mode : UInt8) (bytes : List UInt8) (n : Nat) :
    (patchMode mode bytes).take n = patchMode mode (bytes.take n) :=
  set_two_take bytes (fun _ => mode) n fun x y => x ≠ 0x1f ∧ magicFlashChipMode y ≠ mode

theorem unpatchMode_take (mode : UInt8) (bytes : List UInt8) (n : Nat) :
    (unpatchMode mode bytes).take n = unpatchMode mode (bytes.take n) :=
  set_two_take bytes magicFlashChipMode n fun x y => x ≠ 0x1f ∧ magicFlashChipMode y ≠ mode

theorem set_two_append {bytes : List UInt8} (more : List UInt8) (b : UInt8 → UInt8)
    (p : UInt8 → UInt8 → Prop) [∀ x y, Decidable (p x y)] (h : 3 ≤ bytes.length) :
    (if p ((bytes ++ more).getD 0 0) ((bytes ++ more).getD 2 0) then
        (bytes ++ more).set 2 (b ((bytes ++ more).getD 2 0))
      else bytes ++ more) =
      (if p (bytes.getD 0 0) (bytes.getD 2 0) then bytes.set 2 (b (bytes.getD 2 0))
        else bytes) ++ more := by
  have h0 : (bytes ++ more).getD 0 0 = bytes.getD 0 0 := by
    simp [getD_eq_getElem?_getD, getElem?_append_left (show 0 < bytes.length by omega)]
  have h2 : (bytes ++ more).getD 2 0 = bytes.getD 2 0 := by
    simp [getD_eq_getElem?_getD, getElem?_append_left (show 2 < bytes.length by omega)]
  rw [h0, h2]
  split
  · rw [set_append_left _ _ (by omega)]
  · rfl

theorem patchMode_append (mode : UInt8) {bytes : List UInt8} (more : List UInt8)
    (h : 3 ≤ bytes.length) : patchMode mode (bytes ++ more) = patchMode mode bytes ++ more :=
  set_two_append more (fun _ => mode) (fun x y => x ≠ 0x1f ∧ magicFlashChipMode y ≠ mode) h

theorem unpatchMode_append (mode : UInt8) {bytes : List UInt8} (more : List UInt8)
    (h : 3 ≤ bytes.length) : unpatchMode mode (bytes ++ more) = unpatchMode mode bytes ++ more :=
  set_two_append more magicFlashChipMode (fun x y => x ≠ 0x1f ∧ magicFlashChipMode y ≠ mode) h

/-! ## What a flush works with -/

def atHeader (u : Updater F) : Prop := u.currentAddress = u32 u.startAddress ∧ u.command = U_FLASH

instance (u : Updater F) : Decidable u.atHeader := by unfold atHeader; infer_instance

def chipMode (u : Updater F) : UInt8 := (getFlashChipMode u.eraseIfAtSector.2.chip).1

/-- What the next flush programs for `bytes`. -/
def toProgram (u : Updater F) (bytes : List UInt8) : List UInt8 :=
  if u.atHeader then patchMode u.chipMode bytes else bytes

/-- What the next flush leaves of `bytes` to be hashed. -/
def toHash (u : Updater F) (bytes : List UInt8) : List UInt8 :=
  if u.atHeader then unpatchMode u.chipMode bytes else bytes

/-- What a flush of `size` bytes at `address` asks of the chip, in order. -/
def flushEvents (address size : Nat) : List Event :=
  (if address % 4096 = 0 then [.eraseSector (address / 4096)] else []) ++
    [.flashWrite address size]

/-- The erase a flush begins with, if any, with its result. -/
def ErasesTo (u : Updater F) (ok : Bool) (c : Chip F) : Prop :=
  if u.currentAddress % 4096 = 0 then
    flashEraseSector (u.currentAddress / 4096) u.chip = (ok, c)
  else ok = true ∧ c = u.chip

/-- Whether `adjustFlashMode` replaces the mode byte. -/
def patches (u : Updater F) : Prop :=
  u.atFlashMode ∧ magicFlashChipMode (u.buffer.getD 2 0) ≠ (getFlashChipMode u.chip).1

variable {u : Updater F}

theorem adjustFlashMode_of_patches (h : u.patches) :
    u.adjustFlashMode = (some (magicFlashChipMode (u.buffer.getD 2 0)),
      { u with
        chip := (getFlashChipMode u.chip).2
        buffer := u.buffer.set 2 (getFlashChipMode u.chip).1 }) := by
  simp only [adjustFlashMode, if_pos h.1, if_pos h.2]

theorem adjustFlashMode_of_not_patches (h : ¬ u.patches) :
    ∃ c, ReadOnly u.chip c ∧ u.adjustFlashMode = (none, { u with chip := c }) := by
  by_cases hat : u.atFlashMode
  · have hm : ¬ magicFlashChipMode (u.buffer.getD 2 0) ≠ (getFlashChipMode u.chip).1 :=
      fun hm => h ⟨hat, hm⟩
    exact ⟨_, getFlashChipMode_readOnly u.chip, by
      simp only [adjustFlashMode, if_pos hat, if_neg hm]⟩
  · exact ⟨u.chip, ReadOnly.refl _, by simp only [adjustFlashMode, if_neg hat]⟩

theorem eraseIfAtSector_spec (u : Updater F) :
    ∃ ok c, u.eraseIfAtSector = (ok, { u with
        chip := c
        log := u.log ++ if u.currentAddress % 4096 = 0 then
          [.eraseSector (u.currentAddress / 4096)] else [] }) ∧ u.ErasesTo ok c := by
  unfold eraseIfAtSector ErasesTo
  by_cases h : u.currentAddress % 4096 = 0
  · refine ⟨(flashEraseSector (u.currentAddress / 4096) u.chip).1,
      (flashEraseSector (u.currentAddress / 4096) u.chip).2, ?_, ?_⟩
    · simp only [if_pos h]
    · simp only [if_pos h]
  · exact ⟨true, u.chip, by simp only [if_neg h, append_nil], by simp [h]⟩

theorem toProgram_eq {v : Updater F} {ok : Bool} (h : u.eraseIfAtSector = (ok, v))
    (hv : v.buffer = u.buffer ∧ v.currentAddress = u.currentAddress ∧
      v.startAddress = u.startAddress ∧ v.command = u.command) :
    (v.patches → u.toProgram u.buffer = u.buffer.set 2 (getFlashChipMode v.chip).1 ∧
      u.toHash u.buffer = u.buffer.set 2 (magicFlashChipMode (u.buffer.getD 2 0))) ∧
    (¬ v.patches → u.toProgram u.buffer = u.buffer ∧ u.toHash u.buffer = u.buffer) := by
  have hmode : u.chipMode = (getFlashChipMode v.chip).1 := by rw [chipMode, h]
  have hiff : v.patches ↔ u.atHeader ∧ u.buffer.getD 0 0 ≠ 0x1f ∧
      magicFlashChipMode (u.buffer.getD 2 0) ≠ u.chipMode := by
    rw [patches, atFlashMode, atHeader, hmode, hv.1, hv.2.1, hv.2.2.1, hv.2.2.2, Nat.add_zero]
    constructor
    · rintro ⟨⟨h₁, h₂, h₃⟩, h₄⟩
      exact ⟨⟨h₁, h₃⟩, h₂, h₄⟩
    · rintro ⟨⟨h₁, h₃⟩, h₂, h₄⟩
      exact ⟨⟨h₁, h₂, h₃⟩, h₄⟩
  rw [hiff, ← hmode]
  constructor
  · rintro ⟨hat, hp⟩
    simp only [toProgram, toHash, if_pos hat, patchMode, unpatchMode, if_pos hp, and_self]
  · intro hn
    by_cases hat : u.atHeader
    · have hp := fun hp => hn ⟨hat, hp⟩
      simp only [toProgram, toHash, if_pos hat, patchMode, unpatchMode, if_neg hp, and_self]
    · simp only [toProgram, toHash, if_neg hat, and_self]

theorem toProgram_take (u : Updater F) (n : Nat) (bytes : List UInt8) :
    (u.toProgram bytes).take n = u.toProgram (bytes.take n) := by
  unfold toProgram
  split
  · exact patchMode_take _ _ _
  · rfl

theorem toHash_take (u : Updater F) (n : Nat) (bytes : List UInt8) :
    (u.toHash bytes).take n = u.toHash (bytes.take n) := by
  unfold toHash
  split
  · exact unpatchMode_take _ _ _
  · rfl

@[simp] theorem toProgram_length (u : Updater F) (bytes : List UInt8) :
    (u.toProgram bytes).length = bytes.length := by
  unfold toProgram; split <;> simp

@[simp] theorem toHash_length (u : Updater F) (bytes : List UInt8) :
    (u.toHash bytes).length = bytes.length := by
  unfold toHash; split <;> simp

theorem adjustFlashMode_spec {v : Updater F} {ok : Bool} (h : u.eraseIfAtSector = (ok, v))
    (hv : v.buffer = u.buffer ∧ v.currentAddress = u.currentAddress ∧
      v.startAddress = u.startAddress ∧ v.command = u.command) :
    ∃ mode c, ReadOnly v.chip c ∧
      v.adjustFlashMode = (mode, { v with chip := c, buffer := u.toProgram u.buffer }) ∧
      ∀ w : Updater F, w.buffer = u.toProgram u.buffer →
        w.restoreFlashMode mode = { w with buffer := u.toHash u.buffer } := by
  obtain ⟨hpatch, hnot⟩ := toProgram_eq h hv
  by_cases hp : v.patches
  · obtain ⟨hprog, hhash⟩ := hpatch hp
    refine ⟨some (magicFlashChipMode (v.buffer.getD 2 0)), (getFlashChipMode v.chip).2,
      getFlashChipMode_readOnly v.chip, ?_, fun w hw => ?_⟩
    · rw [hprog, ← hv.1]
      exact adjustFlashMode_of_patches hp
    · simp only [restoreFlashMode, hw, hprog, hhash, hv.1, set_set]
  · obtain ⟨hprog, hhash⟩ := hnot hp
    obtain ⟨c, hro, hadj⟩ := adjustFlashMode_of_not_patches hp
    refine ⟨none, c, hro, ?_, fun w hw => ?_⟩
    · rw [hprog, ← hv.1, hadj]
    · rw [hhash, ← hprog, ← hw]
      rfl

/-- **All a flush can do.**  Up to its write it has erased the sector it
enters and read from the chip; with the result of that write it either hashes
the buffer and moves on, or drops the update. -/
theorem writeBuffer_spec (u : Updater F) :
    (∃ c₁, u.ErasesTo false c₁ ∧
      ∃ c₂ evs, ReadOnly c₁ c₂ ∧ evs <+: flushEvents u.currentAddress u.bufferLen ∧
        u.writeBuffer = (false, ({ u with chip := c₂, log := u.log ++ evs }).setError .erase)) ∨
    ∃ c₁ c₂ ok c₃, u.ErasesTo true c₁ ∧ ReadOnly c₁ c₂ ∧
      flashWrite u.currentAddress u.bufferPtr (u.toProgram u.buffered) c₂ = (ok, c₃) ∧
      u.writeBuffer =
        if ok then (true, { u with
          chip := c₃
          log := u.log ++ flushEvents u.currentAddress u.bufferLen
          buffer := u.toHash u.buffer
          md5 := if u.verifier.isNone then u.md5 ++ u.toHash u.buffered else u.md5
          currentAddress := u32 (u.currentAddress + u.bufferLen)
          bufferLen := 0 })
        else (false, ({ u with
          chip := c₃
          log := u.log ++ flushEvents u.currentAddress u.bufferLen }).setError .write) := by
  obtain ⟨ok₁, c₁, hv, herase⟩ := u.eraseIfAtSector_spec
  generalize herased : (if u.currentAddress % 4096 = 0 then
    [Event.eraseSector (u.currentAddress / 4096)] else []) = evs at hv
  obtain ⟨mode, c₂, hro, hadj, hrestore⟩ := adjustFlashMode_spec hv ⟨rfl, rfl, rfl, rfl⟩
  cases ok₁ with
  | false =>
    refine .inl ⟨c₁, herase, c₂, evs, hro, ?_, ?_⟩
    · rw [← herased]
      exact prefix_append _ _
    · simp only [writeBuffer, hv, hadj]
      rfl
  | true =>
    generalize hw : flashWrite u.currentAddress u.bufferPtr (u.toProgram u.buffered) c₂ = r
    obtain ⟨ok, c₃⟩ := r
    refine .inr ⟨c₁, c₂, ok, c₃, herase, hro, hw, ?_⟩
    rw [buffered, ← toProgram_take] at hw
    simp only [writeBuffer, hv, hadj, buffered, if_true, hw, ← toHash_take]
    rw [hrestore _ rfl, flushEvents, ← append_assoc, herased]
    cases ok with
    | true =>
      cases hver : u.verifier <;> simp
    | false => rfl

theorem ErasesTo.faults_le {ok : Bool} {c : Chip F} (h : u.ErasesTo ok c) :
    u.chip.faults ≤ c.faults ∧ (ok = false → u.chip.faults < c.faults) := by
  unfold ErasesTo at h
  split at h
  · cases ok with
    | true =>
      have := (erase_true h).2.2.1
      exact ⟨by omega, by simp⟩
    | false =>
      have := (erase_false h).2
      exact ⟨by omega, fun _ => by omega⟩
  · obtain ⟨rfl, rfl⟩ := h
    exact ⟨Nat.le_refl _, by simp⟩

theorem flashWrite_faults_le {address ptr : Nat} {data : List UInt8} {c c' : Chip F} {ok : Bool}
    (h : flashWrite address ptr data c = (ok, c')) : c.faults ≤ c'.faults := by
  cases ok with
  | true => exact Nat.le_of_eq (flashWrite_true h).2.faults.symm
  | false =>
    rcases flashWrite_false h with ⟨-, -, h'⟩ | ⟨-, rfl⟩
    · exact Nat.le_of_lt h'
    · exact Nat.le_refl _

variable {u' : Updater F}

theorem writeBuffer_true (h : u.writeBuffer = (true, u')) :
    u.buffered ≠ [] ∧ ∃ c₁ c₂ c₃, u.ErasesTo true c₁ ∧ ReadOnly c₁ c₂ ∧
      Programmed c₂ c₃ u.currentAddress (u.toProgram u.buffered) ∧
      u' = { u with
        chip := c₃
        log := u.log ++ flushEvents u.currentAddress u.bufferLen
        buffer := u.toHash u.buffer
        md5 := if u.verifier.isNone then u.md5 ++ u.toHash u.buffered else u.md5
        currentAddress := u32 (u.currentAddress + u.bufferLen)
        bufferLen := 0 } := by
  rcases u.writeBuffer_spec with ⟨c₁, -, c₂, evs, -, -, heq⟩ | ⟨c₁, c₂, ok, c₃, he, hro, hw, heq⟩
  · rw [heq] at h
    simp at h
  · cases ok with
    | false =>
      rw [heq] at h
      simp at h
    | true =>
      obtain ⟨hne, hprog⟩ := flashWrite_true hw
      rw [if_pos rfl, h] at heq
      refine ⟨fun h0 => hne ?_, c₁, c₂, c₃, he, hro, hprog, (Prod.mk.inj heq).2⟩
      exact length_eq_zero_iff.mp (by simp [h0])

theorem writeBuffer_false (h : u.writeBuffer = (false, u')) :
    ∃ c evs e, (e = .erase ∨ e = .write) ∧ evs <+: flushEvents u.currentAddress u.bufferLen ∧
      u' = ({ u with chip := c, log := u.log ++ evs }).setError e ∧ u.chip.faults ≤ c.faults ∧
      (u.bufferPtr ≠ 0 → u.buffered ≠ [] → u.chip.faults < c.faults) := by
  rcases u.writeBuffer_spec with ⟨c₁, he, c₂, evs, hro, hevs, heq⟩ |
    ⟨c₁, c₂, ok, c₃, he, hro, hw, heq⟩
  · have h₁ := he.faults_le
    have h₂ := hro.faults
    rw [h] at heq
    exact ⟨c₂, evs, .erase, .inl rfl, hevs, (Prod.mk.inj heq).2, by omega, fun _ _ => by
      have := h₁.2 rfl
      omega⟩
  · have h₁ := he.faults_le
    have h₂ := hro.faults
    have h₃ := flashWrite_faults_le hw
    cases ok with
    | true =>
      rw [heq] at h
      simp at h
    | false =>
      rw [h, if_neg (by simp)] at heq
      refine ⟨c₃, _, .write, .inr rfl, prefix_rfl, (Prod.mk.inj heq).2, by omega,
        fun hp hb => ?_⟩
      rcases flashWrite_false hw with ⟨-, -, hlt⟩ | ⟨h0 | h0, -⟩
      · omega
      · exact absurd h0 hp
      · have : (u.toProgram u.buffered).length = 0 := by rw [h0]; rfl
        exact absurd (length_eq_zero_iff.mp (by simpa using this)) hb

theorem writeBuffer_log {ok : Bool} (h : u.writeBuffer = (ok, u')) :
    ∃ evs, evs <+: flushEvents u.currentAddress u.bufferLen ∧ u'.log = u.log ++ evs := by
  cases ok with
  | true =>
    obtain ⟨-, c₁, c₂, c₃, -, -, -, rfl⟩ := writeBuffer_true h
    exact ⟨_, prefix_rfl, rfl⟩
  | false =>
    obtain ⟨c, evs, e, -, hevs, rfl, -⟩ := writeBuffer_false h
    exact ⟨evs, hevs, rfl⟩

theorem writeBuffer_faults_le {ok : Bool} (h : u.writeBuffer = (ok, u')) :
    u.chip.faults ≤ u'.chip.faults := by
  cases ok with
  | true =>
    obtain ⟨-, c₁, c₂, c₃, he, hro, hprog, rfl⟩ := writeBuffer_true h
    have h₁ := he.faults_le.1
    have h₂ := hro.faults
    have h₃ := hprog.faults
    show u.chip.faults ≤ c₃.faults
    omega
  | false =>
    obtain ⟨c, evs, e, -, -, rfl, hle, -⟩ := writeBuffer_false h
    exact hle

end Updater
