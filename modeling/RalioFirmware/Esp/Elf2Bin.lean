import RalioFirmware.Basis.BitCrc

/-!
# The tool that makes the binary

`elf2bin.py` writes a header, the segments and a checksum for the boot loader and
for the sketch, the boot loader's image padded to a sector, and puts the length
and the CRC of the whole file into two words at the start of the sketch.

* `writeBin_some`: how an image is laid out;
* `main_some`: the file, and which length and CRC it holds.
-/

open Word Bytes List

namespace Elf2Bin

/-! ## The tool -/

/-- `fmodeb`. -/
inductive FlashMode
  | dout
  | dio
  | qout
  | qio

def FlashMode.byte : FlashMode → UInt8
  | dout => 3
  | dio => 2
  | qout => 1
  | qio => 0

/-- `ffreqb`. -/
inductive FlashFreq
  | f40
  | f26
  | f20
  | f80

def FlashFreq.nibble : FlashFreq → UInt8
  | f40 => 0
  | f26 => 1
  | f20 => 2
  | f80 => 15

/-- `fsizeb`. -/
inductive FlashSize
  | s512K
  | s256K
  | s1M
  | s2M
  | s4M
  | s8M
  | s16M

def FlashSize.nibble : FlashSize → UInt8
  | s512K => 0
  | s256K => 1
  | s1M => 2
  | s2M => 3
  | s4M => 4
  | s8M => 8
  | s16M => 9

structure Args where
  flash_mode : FlashMode
  flash_freq : FlashFreq
  flash_size : FlashSize

/-- A segment: what `get_segment_size_addr` and `read_segment` give. -/
structure Segment where
  size : Nat
  addr : Nat
  raw : List UInt8

structure Elf where
  entry : Nat
  segments : List Segment
  entry_lt : entry < 4294967296
  addr_lt : ∀ s ∈ segments, s.addr < 4294967296

/-- `crcsize_offset` and `crcval_offset`. -/
def crcsizeOffset : Nat := 4096 + 16
def crcvalOffset : Nat := 4096 + 16 + 4

/-- The loop over the segments, with the size so far and the checksum; nothing is
written where the tool raises. -/
def writeSegments : List Segment → Nat → UInt8 → Option (List UInt8 × Nat × UInt8)
  | [], total_size, checksum => some ([], total_size, checksum)
  | s :: segments, total_size, checksum =>
    if s.raw.length ≠ s.size then none
    else
      (writeSegments segments (total_size + 8 + s.raw.length)
        (s.raw.foldl (· ^^^ ·) checksum)).map fun (out, total_size, checksum) =>
          (le32 s.addr ++ le32 s.size ++ s.raw ++ out, total_size, checksum)

def header (args : Args) (elf : Elf) : List UInt8 :=
  [0xe9, UInt8.ofNat elf.segments.length, args.flash_mode.byte,
    args.flash_freq.nibble + 16 * args.flash_size.nibble] ++ le32 elf.entry

def writeBin (args : Args) (elf : Elf) (to_addr : Nat) : Option (List UInt8) :=
  -- a `bytearray` takes no more than 255
  if 255 < elf.segments.length then none
  else
    (writeSegments elf.segments 8 0xef).bind fun (out, total_size, checksum) =>
      let total_size := total_size + 1
      let zeros := List.replicate (roundUp 16 total_size - total_size) 0
      let total_size := roundUp 16 total_size
      let image := header args elf ++ out ++ zeros ++ [checksum]
      if to_addr ≠ 0 then
        if total_size + 8 > to_addr then none
        else some (image ++ List.replicate (to_addr - total_size) 0xaa)
      else some image

def crc8266 (ldata : List UInt8) : UInt32 := BitCrc.run 0x04c11db7 0xffffffff ldata

def storeWord (raw : List UInt8) (offset val : Nat) : Option (List UInt8) :=
  if offset + 4 ≤ raw.length then some (memcpy raw offset (le32 val)) else none

def addCrc (raw : List UInt8) : Option (List UInt8) :=
  (storeWord raw crcsizeOffset 0).bind fun raw => (storeWord raw crcvalOffset 0).bind fun raw =>
    let crc := crc8266 raw
    (storeWord raw crcsizeOffset raw.length).bind fun raw => storeWord raw crcvalOffset crc.toNat

def main (args : Args) (eboot app : Elf) : Option (List UInt8) :=
  (writeBin args eboot 4096).bind fun boot => (writeBin args app 0).bind fun image =>
    addCrc (boot ++ image)

/-! ## The layout -/

def Segment.bytes (s : Segment) : List UInt8 := le32 s.addr ++ (le32 s.size ++ s.raw)

theorem Segment.bytes_length (s : Segment) : s.bytes.length = 8 + s.raw.length := by
  rw [bytes, length_append, length_append, le32_length, le32_length, ← Nat.add_assoc]

theorem writeSegments_some {segments : List Segment} {total_size total : Nat}
    {checksum sum : UInt8} {out : List UInt8}
    (h : writeSegments segments total_size checksum = some (out, total, sum)) :
    out = segments.flatMap Segment.bytes ∧ total = total_size + out.length ∧
      ∀ s ∈ segments, s.raw.length = s.size := by
  induction segments generalizing total_size checksum out with
  | nil =>
    cases h
    exact ⟨rfl, rfl, fun s hs => absurd hs not_mem_nil⟩
  | cons s segments ih =>
    rw [writeSegments] at h
    split at h
    · cases h
    · rename_i hsize
      obtain ⟨⟨out', total', sum'⟩, hrest, heq⟩ := Option.map_eq_some_iff.1 h
      cases heq
      obtain ⟨hout, htotal, hsizes⟩ := ih hrest
      refine ⟨?_, ?_, forall_mem_cons.2 ⟨not_not.1 hsize, hsizes⟩⟩
      · rw [flatMap_cons, Segment.bytes, ← hout, append_assoc, append_assoc,
          append_assoc, append_assoc]
      · simp only [length_append, le32_length]
        omega

theorem header_length (args : Args) (elf : Elf) : (header args elf).length = 8 := rfl

/-- **The layout of an image**: a header, the segments, and what stands behind them. -/
theorem writeBin_some {args : Args} {elf : Elf} {to_addr : Nat} {image : List UInt8}
    (h : writeBin args elf to_addr = some image) :
    elf.segments.length ≤ 255 ∧ (∀ s ∈ elf.segments, s.raw.length = s.size) ∧
      (∃ back, image = header args elf ++ (elf.segments.flatMap Segment.bytes ++ back)) ∧
      image.length = if to_addr = 0
        then roundUp 16 (8 + (elf.segments.flatMap Segment.bytes).length + 1) else to_addr := by
  rw [writeBin] at h
  split at h
  · cases h
  · rename_i hshort
    obtain ⟨⟨out, total, sum⟩, hout, himage⟩ := Option.bind_eq_some_iff.1 h
    obtain ⟨rfl, rfl, hsizes⟩ := writeSegments_some hout
    have hle := le_roundUp (show 0 < 16 by decide)
      (8 + (elf.segments.flatMap Segment.bytes).length + 1)
    dsimp only at himage
    refine ⟨Nat.le_of_not_lt hshort, hsizes, ?_⟩
    by_cases hzero : to_addr = 0
    · rw [if_neg (not_not.2 hzero)] at himage
      cases himage
      refine ⟨⟨_, by rw [append_assoc, append_assoc]⟩, ?_⟩
      rw [if_pos hzero]
      simp only [length_append, header_length, length_replicate, length_singleton]
      omega
    · rw [if_pos hzero] at himage
      split at himage
      · cases himage
      · rename_i hroom
        cases himage
        refine ⟨⟨_, by rw [append_assoc, append_assoc, append_assoc]⟩, ?_⟩
        rw [if_neg hzero]
        simp only [length_append, header_length, length_replicate, length_singleton]
        omega

/-! ## The two words -/

theorem storeWord_append {front old : List UInt8} {off : Nat} (hfront : front.length = off)
    (hlen : old.length = 4) (back : List UInt8) (val : Nat) :
    storeWord (front ++ (old ++ back)) off val = some (front ++ (le32 val ++ back)) := by
  rw [storeWord, if_pos, memcpy_append hfront (by rw [le32_length, hlen])]
  rw [length_append, length_append, hfront, hlen]
  omega

/-- The CRC of a file whose two words stand between `front` and `back`. -/
def fileCrc (front back : List UInt8) : UInt32 := crc8266 (front ++ (le32 0 ++ (le32 0 ++ back)))

/-- **The two words** are the length of the file and its CRC without them. -/
theorem addCrc_eq {front first second : List UInt8} (hfront : front.length = crcsizeOffset)
    (hfirst : first.length = 4) (hsecond : second.length = 4) (back : List UInt8) :
    addCrc (front ++ (first ++ (second ++ back))) =
      some (front ++ (le32 (front ++ (first ++ (second ++ back))).length ++
        (le32 (fileCrc front back).toNat ++ back))) := by
  have hsize : ∀ old new rest : List UInt8, old.length = 4 → ∀ val,
      storeWord (front ++ (old ++ (new ++ rest))) crcsizeOffset val =
        some (front ++ (le32 val ++ (new ++ rest))) :=
    fun old new rest hold val => storeWord_append hfront hold _ val
  have hval : ∀ size old rest : List UInt8, size.length = 4 → old.length = 4 → ∀ val,
      storeWord (front ++ (size ++ (old ++ rest))) crcvalOffset val =
        some (front ++ (size ++ (le32 val ++ rest))) := by
    intro size old rest hsize hold val
    have hoff : (front ++ size).length = crcvalOffset := by
      rw [length_append, hfront, hsize]
      rfl
    rw [← append_assoc, storeWord_append hoff hold, append_assoc]
  rw [addCrc, hsize _ _ _ hfirst, Option.bind_some, hval _ _ _ (le32_length 0) hsecond,
    Option.bind_some]
  dsimp only
  rw [hsize _ _ _ (le32_length 0), Option.bind_some, hval _ _ _ (le32_length _) (le32_length 0),
    fileCrc]
  simp only [length_append, le32_length, hfirst, hsecond]

theorem storeWord_some {raw : List UInt8} {offset : Nat} (h : offset + 4 ≤ raw.length)
    (val : Nat) : ∃ raw', storeWord raw offset val = some raw' ∧ raw'.length = raw.length :=
  ⟨_, if_pos h, memcpy_length h⟩

theorem addCrc_some {raw : List UInt8} (h : crcvalOffset + 4 ≤ raw.length) :
    ∃ bin, addCrc raw = some bin ∧ bin.length = raw.length := by
  have hsize : crcsizeOffset + 4 ≤ raw.length := Nat.le_trans (by decide) h
  obtain ⟨raw₁, h₁, hlen₁⟩ := storeWord_some hsize 0
  obtain ⟨raw₂, h₂, hlen₂⟩ := storeWord_some (hlen₁ ▸ h) 0
  obtain ⟨raw₃, h₃, hlen₃⟩ := storeWord_some (hlen₂ ▸ hlen₁ ▸ hsize) raw₂.length
  obtain ⟨raw₄, h₄, hlen₄⟩ := storeWord_some (hlen₃ ▸ hlen₂ ▸ hlen₁ ▸ h) (crc8266 raw₂).toNat
  refine ⟨raw₄, ?_, hlen₄.trans (hlen₃.trans (hlen₂.trans hlen₁))⟩
  rw [addCrc, h₁, Option.bind_some, h₂, Option.bind_some]
  dsimp only
  rw [h₃, Option.bind_some, h₄]

def Segment.stamped (s : Segment) (size crc : Nat) : Segment :=
  { s with raw := le32 size ++ (le32 crc ++ s.raw.drop 8) }

/-- **The file**: a sector with the boot loader, and the image of the sketch, whose
first segment starts with the two words. -/
theorem main_some {args : Args} {eboot app : Elf} {first : Segment} {rest : List Segment}
    {bin : List UInt8} (h : main args eboot app = some bin)
    (hsegments : app.segments = first :: rest) (hfirst : 8 ≤ first.raw.length) :
    ∃ front tail, front.length = crcsizeOffset ∧
      bin = front ++ (le32 bin.length ++ (le32 (fileCrc front tail).toNat ++ tail)) ∧
      ∃ boot image back, writeBin args app 0 = some image ∧ boot.length = 4096 ∧
        bin.length = 4096 + image.length ∧
        bin = boot ++ (header args app ++
          ((first.stamped bin.length (fileCrc front tail).toNat :: rest).flatMap Segment.bytes ++
            back)) := by
  obtain ⟨boot, hboot, h⟩ := Option.bind_eq_some_iff.1 h
  obtain ⟨image, himage, hbin⟩ := Option.bind_eq_some_iff.1 h
  obtain ⟨-, -, -, hsector⟩ := writeBin_some hboot
  rw [if_neg (by decide)] at hsector
  obtain ⟨-, -, ⟨back, hlayout⟩, -⟩ := writeBin_some himage
  obtain ⟨front, hfront⟩ : ∃ front, front =
      boot ++ (header args app ++ (le32 first.addr ++ le32 first.size)) := ⟨_, rfl⟩
  obtain ⟨tail, htail⟩ : ∃ tail, tail =
      first.raw.drop 8 ++ (rest.flatMap Segment.bytes ++ back) := ⟨_, rfl⟩
  have hoffset : front.length = crcsizeOffset := by
    rw [hfront]
    simp only [length_append, hsector, header_length, le32_length]
    rfl
  have hraw : first.raw = first.raw.take 4 ++ ((first.raw.drop 4).take 4 ++ first.raw.drop 8) := by
    rw [show 8 = 4 + 4 from rfl, ← drop_drop, take_append_drop, take_append_drop]
  have hfile : boot ++ image =
      front ++ (first.raw.take 4 ++ ((first.raw.drop 4).take 4 ++ tail)) := by
    conv_lhs => rw [hlayout, hsegments, flatMap_cons, Segment.bytes, hraw]
    simp only [hfront, htail, append_assoc]
  have hlength := congrArg length hfile
  have htake : (first.raw.take 4).length = 4 := by
    rw [length_take]
    omega
  have htake' : ((first.raw.drop 4).take 4).length = 4 := by grind
  rw [hfile, addCrc_eq hoffset htake htake', ← hlength] at hbin
  have hbin := (Option.some.inj hbin).symm
  have hsize : bin.length = (boot ++ image).length := by
    rw [hlength, hbin]
    simp only [length_append, le32_length, htake, htake']
  rw [← hsize] at hbin
  refine ⟨front, tail, hoffset, hbin, boot, image, back, himage, hsector, ?_, ?_⟩
  · rw [hsize, length_append, hsector]
  · generalize (fileCrc front tail).toNat = crc at hbin ⊢
    conv_lhs => rw [hbin, hfront, htail]
    rw [flatMap_cons, Segment.bytes, Segment.stamped]
    simp only [append_assoc]

end Elf2Bin
