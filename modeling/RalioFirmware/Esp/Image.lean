import RalioFirmware.Basis.BitCrc
import RalioFirmware.Esp.Flash

/-!
# What `EspClass` reads off the flash image

The flash holds the boot loader in its first sector and the sketch image
from `APP_START_OFFSET` (0x1000) on.  `EspClass` reads the flash mode and
size from the first header, walks the sketch's section headers for its size,
and checks the CRC the build stored in it.
-/

open Word Bytes Nor Nor.Chip

namespace Esp

variable {F : SpiFlash}

/-- `FM_UNKNOWN`; the known modes are 0 (`FM_QIO`) to 3 (`FM_DOUT`). -/
def FM_UNKNOWN : UInt8 := 0xff

/-- `EspClass::magicFlashChipMode`: every byte above `FM_DOUT` is one and the
same unknown mode. -/
def magicFlashChipMode (byte : UInt8) : UInt8 := if byte > 3 then FM_UNKNOWN else byte

def magicFlashChipSize (byte : Nat) : Nat :=
  match byte &&& 0x0F with
  | 0x0 => 512 * 1024
  | 0x1 => 256 * 1024
  | 0x2 => 1024 * 1024
  | 0x3 => 2 * 1024 * 1024
  | 0x4 => 4 * 1024 * 1024
  | 0x8 => 8 * 1024 * 1024
  | 0x9 => 16 * 1024 * 1024
  | _ => 0

def getFlashChipRealSize (F : SpiFlash) : Nat := u32 (1 <<< ((F.flashId >>> 16) &&& 0xFF))

/-- `EspClass::getFlashChipSize`: the size the header at address 0 names. -/
def getFlashChipSize (c : Chip F) : Nat × Chip F :=
  match c.read 0 4 with
  | (some bytes, c) => (magicFlashChipSize (((bytes.getD 3 0).toNat &&& 0xf0) >>> 4), c)
  | (none, c) => (0, c)

/-- `EspClass::getFlashChipMode`: the mode the header at address 0 names. -/
def getFlashChipMode (c : Chip F) : UInt8 × Chip F :=
  match c.read 0 4 with
  | (some bytes, c) => (magicFlashChipMode (bytes.getD 2 0), c)
  | (none, c) => (FM_UNKNOWN, c)

def checkFlashConfig (needsEquals : Bool) (c : Chip F) : Bool × Chip F :=
  let (size, c) := getFlashChipSize c
  if needsEquals then (getFlashChipRealSize F = size, c)
  else (getFlashChipRealSize F ≥ size, c)

/-- The section loop of `EspClass::getSketchSize`: the position behind the
last section, `none` where a read fails. -/
def sectionWalk : Nat → Nat → Chip F → Option Nat × Chip F
  | 0, pos, c => (some pos, c)
  | sections+1, pos, c =>
    match c.read pos 8 with
    | (none, c) => (none, c)
    | (some header, c) => sectionWalk sections (u32 (u32 (pos + 8) + ofLe (header.drop 4))) c

/-- `EspClass::getSketchSize`.  `result` is its static cache: the value is
read off the flash once and kept. -/
def getSketchSize (result : Nat) (c : Chip F) : Nat × Nat × Chip F :=
  if result ≠ 0 then (result, result, c)
  else
    match c.read 0x1000 8 with
    | (none, c) => (0, result, c)
    | (some header, c) =>
      match sectionWalk (header.getD 1 0).toNat (0x1000 + 8) c with
      | (none, c) => (0, result, c)
      | (some pos, c) =>
        let result := clearLow 4 (u32 (pos + 16))
        (result, result, c)

/-- `crc32` of the core. -/
def crc32 (data : List UInt8) (crc : UInt32) : UInt32 := BitCrc.run 0x04c11db7 crc data

/-- `EspClass::checkFlashCRC` over the memory-mapped flash, for the linker
symbols `__crc_len` and `__crc_val`.  Flash address 0 is mapped at
0x40200000. -/
def checkFlashCRC (crc_len crc_val : Nat) (c : Chip F) : Bool :=
  let z : List UInt8 := le32 0 ++ le32 0
  let word (symbol : Nat) := ofLe (slice c.cells (symbol - 0x40200000) 4)
  let firstPart := crc_len - 0x40200000
  let crc := crc32 (slice c.cells 0 firstPart) 0xffffffff
  let crc := crc32 z crc
  let crc := crc32 (slice c.cells (firstPart + 8) (sub32 (word crc_len) (firstPart + 8))) crc
  crc.toNat = word crc_val

/-! ## These readers change nothing -/

theorem getFlashChipMode_readOnly (c : Chip F) : ReadOnly c (getFlashChipMode c).2 := by
  cases h : c.read 0 4 with
  | mk r c₁ => cases r <;> simpa [getFlashChipMode, h] using (reads_of_read h).readOnly

theorem checkFlashConfig_readOnly (needsEquals : Bool) (c : Chip F) :
    ReadOnly c (checkFlashConfig needsEquals c).2 := by
  cases h : c.read 0 4 with
  | mk r c₁ =>
    cases r <;> cases needsEquals <;>
      simpa [checkFlashConfig, getFlashChipSize, h] using (reads_of_read h).readOnly

theorem sectionWalk_readOnly (sections pos : Nat) (c : Chip F) :
    ReadOnly c (sectionWalk sections pos c).2 := by
  induction sections generalizing pos c with
  | zero => exact ReadOnly.refl c
  | succ n ih =>
    simp only [sectionWalk]
    split
    · rename_i c₁ h
      exact (reads_of_read h).readOnly
    · rename_i header c₁ h
      exact (reads_of_read h).readOnly.trans (ih _ c₁)

theorem getSketchSize_readOnly (result : Nat) (c : Chip F) :
    ReadOnly c (getSketchSize result c).2.2 := by
  unfold getSketchSize
  split
  · exact ReadOnly.refl c
  · split
    · rename_i c₁ h
      exact (reads_of_read h).readOnly
    · rename_i header c₁ h
      have h₁ := (reads_of_read h).readOnly
      split
      · rename_i c₂ hw
        have := sectionWalk_readOnly (header.getD 1 0).toNat (0x1000 + 8) c₁
        rw [hw] at this
        exact h₁.trans this
      · rename_i pos c₂ hw
        have := sectionWalk_readOnly (header.getD 1 0).toNat (0x1000 + 8) c₁
        rw [hw] at this
        exact h₁.trans this

end Esp
