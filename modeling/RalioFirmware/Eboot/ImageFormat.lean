import RalioFirmware.Eboot.Main
import RalioFirmware.Esp.Elf2Bin
import RalioFirmware.Esp.Image
import RalioFirmware.Updater.Signed

/-!
# The readers of the image

The boot loader reads the sections of the sketch off the flash and copies those
that belong to RAM; `EspClass` walks over the same headers for the size of the
sketch and checks the CRC.  `image_format` says that they agree with the tool
that wrote the image.
-/

open Word Bytes Nor Nor.Chip Crash Crash.Prog Elf2Bin Updater List

namespace Eboot

variable {F : SpiFlash}

/-! ## The boot loader -/

/-- A section as the loader comes past it; the bytes are those copied to the
address. -/
structure Section where
  header : SectionHeader
  bytes : Option (List UInt8)

/-- The loop of `load_app_from_flash_raw`, with all that it copies. -/
def sections : Nat → Nat → Esp.Chip F → Except Nat (List Section) × Esp.Chip F
  | 0, _, c => (.ok [], c)
  | count + 1, pos, c =>
    match c.read pos 8 with
    | (none, c) => (.error 2, c)
    | (some bytes, c) =>
      let section_header := SectionHeader.ofBytes bytes
      let pos := u32 (pos + 8)
      if section_header.load then
        match c.read pos section_header.size with
        | (none, c) => (.error 3, c)
        | (some data, c) =>
          let later := sections count (u32 (pos + section_header.size)) c
          (later.1.map (⟨section_header, some data⟩ :: ·), later.2)
      else
        let later := sections count (u32 (pos + section_header.size)) c
        (later.1.map (⟨section_header, none⟩ :: ·), later.2)

/-- `load_app_from_flash_raw`, with all that it copies. -/
def loadedApp (flash_addr : Nat) (c : Esp.Chip F) : Except Nat (Nat × List Section) :=
  let pos := u32 (flash_addr + 0x1000)
  match c.read pos 8 with
  | (none, _) => .error 1
  | (some bytes, c) =>
    let image_header := ImageHeader.ofBytes bytes
    (sections image_header.num_segments.toNat (u32 (pos + 8)) c).1.map (image_header.entry, ·)

def failure {α : Type} : Except Nat α → Option Nat
  | .ok _ => none
  | .error res => some res

theorem failure_map {α β : Type} (f : α → β) (r : Except Nat α) :
    failure (r.map f) = failure r := by
  cases r <;> rfl

theorem run_SPIRead (addr size : Nat) (b : Board F) :
    (SPIRead addr size : Prog (rom F) _).run b =
      ((b.chip.read addr size).1, { b with chip := (b.chip.read addr size).2 }) := rfl

theorem storeLoaded_chip (address : Nat) (data : List UInt8) (b : Board F) :
    ((storeLoaded address data : Prog (rom F) _).run b).2.chip = b.chip := by
  fun_induction storeLoaded (F := F) address data generalizing b with
  | case1 address w0 w1 w2 w3 rest ih =>
    rw [run_bind, ih, storeWord]
    split <;> rfl
  | case2 address data hshort => rfl

/-- **The loop** comes past the sections that `sections` lists. -/
theorem loadSections_run (count pos : Nat) (b : Board F) :
    ((loadSections count pos : Prog (rom F) _).run b).1 = failure (sections count pos b.chip).1 ∧
      ((loadSections count pos : Prog (rom F) _).run b).2.chip =
        (sections count pos b.chip).2 := by
  induction count generalizing pos b with
  | zero => exact ⟨rfl, rfl⟩
  | succ count ih =>
    rw [loadSections, sections, run_bind, run_SPIRead]
    rcases b.chip.read pos 8 with ⟨_ | bytes, c⟩
    · exact ⟨rfl, rfl⟩
    · dsimp only
      split
      · rw [run_bind]
        rw [run_SPIRead]
        dsimp only
        rcases c.read (u32 (pos + 8)) (SectionHeader.ofBytes bytes).size with ⟨_ | data, c'⟩
        · exact ⟨rfl, rfl⟩
        · dsimp only
          rw [run_bind]
          have hrest := ih (u32 (u32 (pos + 8) + (SectionHeader.ofBytes bytes).size))
            ((storeLoaded (SectionHeader.ofBytes bytes).address data : Prog (rom F) _).run
              { b with chip := c' }).2
          rw [storeLoaded_chip] at hrest
          exact ⟨hrest.1.trans (failure_map _ _).symm, hrest.2⟩
      · have hrest := ih (u32 (u32 (pos + 8) + (SectionHeader.ofBytes bytes).size))
          { b with chip := c }
        exact ⟨hrest.1.trans (failure_map _ _).symm, hrest.2⟩

/-- **The boot loader** jumps to the entry that `loadedApp` gives, or fails as it does. -/
theorem loadAppFromFlashRaw_run (flash_addr : Nat) (b : Board F) :
    ((loadAppFromFlashRaw flash_addr : Prog (rom F) _).run b).1 =
      (loadedApp flash_addr b.chip).map Prod.fst := by
  rw [loadAppFromFlashRaw, loadedApp]
  dsimp only
  rw [run_bind, run_SPIRead]
  rcases b.chip.read (u32 (flash_addr + 0x1000)) 8 with ⟨_ | bytes, c⟩
  · rfl
  · dsimp only
    rw [run_bind, (loadSections_run _ _ _).1]
    dsimp only
    cases (sections (ImageHeader.ofBytes bytes).num_segments.toNat
      (u32 (u32 (flash_addr + 0x1000) + 8)) c).1 with
    | error res => rfl
    | ok later => rfl

/-! ## What the readers come past -/

def sectionOf (s : Segment) : Section :=
  ⟨⟨s.addr, s.size⟩, if (SectionHeader.mk s.addr s.size).load then some s.raw else none⟩

variable {c : Esp.Chip F}

theorem read_bytes {n a : Nat} {bs : List UInt8} (hsdk : AnswersIn F 0 n)
    (hholds : Holds c.cells a bs) (hn : a + bs.length ≤ n) :
    ∃ c', c.read a bs.length = (some bs, c') ∧ c'.cells = c.cells := by
  refine ⟨_, ?_, read_cells a bs.length c⟩
  rw [hsdk.read (Nat.zero_le _) hn, hholds.slice_eq]

theorem read_header {n pos : Nat} {s : Segment} {rest : List UInt8} (hsdk : AnswersIn F 0 n)
    (hholds : Holds c.cells pos (s.bytes ++ rest)) (hn : pos + s.bytes.length ≤ n) :
    ∃ c', c.read pos 8 = (some (le32 s.addr ++ le32 s.size), c') ∧ c'.cells = c.cells ∧
      Holds c.cells (pos + 8) s.raw ∧ Holds c.cells (pos + 8 + s.raw.length) rest := by
  obtain ⟨hsegment, hrest⟩ := hholds.of_append
  rw [Segment.bytes, ← append_assoc] at hsegment
  obtain ⟨hheader, hraw⟩ := hsegment.of_append
  rw [Segment.bytes_length] at hn hrest
  obtain ⟨c', hread, hcells⟩ := read_bytes hsdk hheader (by
    rw [length_append, le32_length, le32_length]
    omega)
  rw [← Nat.add_assoc] at hrest
  exact ⟨c', hread, hcells, hraw, hrest⟩

section Sections

variable {n : Nat} {rest : List UInt8} {segments : List Segment}

/-- **The loader** comes past the segments as they are. -/
theorem sections_segments (hsdk : AnswersIn F 0 n) (hn : n < 4294967296)
    (hsize : ∀ s ∈ segments, s.raw.length = s.size)
    (haddr : ∀ s ∈ segments, s.addr < 4294967296) {pos : Nat}
    (hholds : Holds c.cells pos (segments.flatMap Segment.bytes ++ rest))
    (hpos : pos + (segments.flatMap Segment.bytes).length ≤ n) :
    (sections segments.length pos c).1 = .ok (segments.map sectionOf) := by
  induction segments generalizing pos c with
  | nil => rfl
  | cons s segments ih =>
    rw [forall_mem_cons] at hsize haddr
    rw [flatMap_cons, append_assoc] at hholds
    rw [flatMap_cons, length_append] at hpos
    obtain ⟨c₁, hheader, hcells, hraw, hrest⟩ := read_header hsdk hholds (by omega)
    rw [Segment.bytes_length] at hpos
    have hsection : SectionHeader.ofBytes (le32 s.addr ++ le32 s.size) = ⟨s.addr, s.size⟩ := by
      rw [SectionHeader.ofBytes, take_left' (le32_length _), drop_left' (le32_length _),
        ofLe_le32, ofLe_le32, u32_of_lt haddr.1, u32_of_lt (by rw [← hsize.1]; omega)]
    rw [length_cons, sections, hheader]
    dsimp only
    rw [hsection, u32_of_lt (show pos + 8 < 4294967296 by omega), ← hsize.1,
      u32_of_lt (show pos + 8 + s.raw.length < 4294967296 by omega)]
    rw [← hcells] at hraw hrest
    rw [map_cons, sectionOf, ← hsize.1]
    split
    · obtain ⟨c₂, hbytes, hcells₂⟩ := read_bytes hsdk hraw (by omega)
      rw [← hcells₂] at hrest
      rw [hbytes]
      dsimp only
      rw [@ih c₂ hsize.2 haddr.2 _ hrest (by omega)]
      rfl
    · rw [@ih c₁ hsize.2 haddr.2 _ hrest (by omega)]
      rfl

/-- **The walk** ends behind the last segment. -/
theorem sectionWalk_segments (hsdk : AnswersIn F 0 n) (hn : n < 4294967296)
    (hsize : ∀ s ∈ segments, s.raw.length = s.size) {pos : Nat}
    (hholds : Holds c.cells pos (segments.flatMap Segment.bytes ++ rest))
    (hpos : pos + (segments.flatMap Segment.bytes).length ≤ n) :
    (Esp.sectionWalk segments.length pos c).1 =
      some (pos + (segments.flatMap Segment.bytes).length) := by
  induction segments generalizing pos c with
  | nil => rfl
  | cons s segments ih =>
    rw [forall_mem_cons] at hsize
    rw [flatMap_cons, append_assoc] at hholds
    rw [flatMap_cons, length_append] at hpos
    obtain ⟨c₁, hheader, hcells, -, hrest⟩ := read_header hsdk hholds (by omega)
    rw [Segment.bytes_length] at hpos
    have hlength : ofLe ((le32 s.addr ++ le32 s.size).drop 4) = s.raw.length := by
      rw [drop_left' (le32_length _), ofLe_le32, ← hsize.1, u32_of_lt (by omega)]
    rw [length_cons, Esp.sectionWalk, hheader]
    dsimp only
    rw [← hcells] at hrest
    rw [hlength, u32_of_lt (show pos + 8 < 4294967296 by omega),
      u32_of_lt (show pos + 8 + s.raw.length < 4294967296 by omega),
      ih hsize.2 hrest (by omega), flatMap_cons, length_append, Segment.bytes_length]
    simp only [Nat.add_assoc]

end Sections

/-! ## The image -/

/-- What the linker script does: the sketch starts with the two words, which are
mapped from where the tool patches them. -/
structure Linked (app : Elf) (crc_len crc_val : Nat) : Prop where
  len : crc_len = 0x40200000 + crcsizeOffset
  val : crc_val = 0x40200000 + crcvalOffset
  first : ∃ first rest, app.segments = first :: rest ∧ first.addr = crc_len ∧
    8 ≤ first.raw.length

variable {args : Args} {eboot app : Elf} {bin : List UInt8} {crc_len crc_val : Nat}

theorem read_image {n : Nat} {rest : List UInt8} (hsdk : AnswersIn F 0 n)
    (hholds : Holds c.cells 4096 (header args app ++ rest)) (hn : 4096 + 8 ≤ n) :
    ∃ c', c.read 0x1000 8 = (some (header args app), c') ∧ c'.cells = c.cells ∧
      Holds c'.cells (4096 + 8) rest := by
  obtain ⟨hheader, hrest⟩ := hholds.of_append
  obtain ⟨c', hread, hcells⟩ := read_bytes hsdk hheader hn
  exact ⟨c', hread, hcells, hcells ▸ hrest⟩

theorem read_segments {n : Nat} {segments : List Segment} {rest : List UInt8}
    (hsdk : AnswersIn F 0 n) (hn : n ≤ 0x1000000) (hcount : app.segments.length ≤ 255)
    (hsegments : segments.length = app.segments.length)
    (hsize : ∀ s ∈ segments, s.raw.length = s.size)
    (haddr : ∀ s ∈ segments, s.addr < 4294967296)
    (hholds : Holds c.cells 4096 (header args app ++ (segments.flatMap Segment.bytes ++ rest)))
    (hpos : 4096 + 8 + (segments.flatMap Segment.bytes).length ≤ n) :
    loadedApp 0 c = .ok (app.entry, segments.map sectionOf) ∧
      (Esp.getSketchSize 0 c).1 =
        roundUp 16 (4096 + 8 + (segments.flatMap Segment.bytes).length + 1) := by
  obtain ⟨c', hread, hcells, hrest⟩ := read_image hsdk hholds (by omega)
  have hnum : ((header args app).getD 1 0).toNat = segments.length := by
    show (UInt8.ofNat app.segments.length).toNat = _
    rw [UInt8.toNat_ofNat', hsegments]
    omega
  constructor
  · have hentry : (ImageHeader.ofBytes (header args app)).entry = app.entry := by
      show ofLe (le32 app.entry) = _
      rw [ofLe_le32, u32_of_lt app.entry_lt]
    have hload := sections_segments hsdk (by omega) hsize haddr hrest hpos
    rw [loadedApp]
    dsimp only
    rw [u32_of_lt (by decide), Nat.zero_add, hread]
    dsimp only
    rw [hentry]
    show (sections ((header args app).getD 1 0).toNat (4096 + 8) c').1.map _ = _
    rw [hnum, hload]
    rfl
  · have hwalk := sectionWalk_segments hsdk (by omega) hsize hrest hpos
    rw [Esp.getSketchSize, if_neg (by decide), hread]
    dsimp only
    rw [hnum]
    rcases hwalked : Esp.sectionWalk segments.length (4096 + 8) c' with ⟨pos, c''⟩
    rw [hwalked] at hwalk
    dsimp only at hwalk
    subst hwalk
    dsimp only
    rw [u32_of_lt (by omega), clearLow_eq (show 4 ≤ 32 by decide) (show 1 <<< 4 = 16 from rfl)
      (by omega), roundUp]
    omega

/-- **The CRC** of a file that holds its length and its CRC is accepted. -/
theorem checkFlashCRC_file {front tail : List UInt8} (hfront : front.length = crcsizeOffset)
    (hwords : bin = front ++ (le32 bin.length ++ (le32 (fileCrc front tail).toNat ++ tail)))
    (hholds : Holds c.cells 0 bin) (hsmall : bin.length < 4294967296)
    (hlen : crc_len = 0x40200000 + crcsizeOffset) (hval : crc_val = 0x40200000 + crcvalOffset) :
    Esp.checkFlashCRC crc_len crc_val c = true := by
  rw [hwords] at hholds
  obtain ⟨hstart, hholds⟩ := hholds.of_append
  obtain ⟨hsize, hholds⟩ := hholds.of_append
  obtain ⟨hcrc, htail⟩ := hholds.of_append
  rw [Nat.zero_add, hfront] at hsize hcrc htail
  rw [le32_length] at hcrc htail
  have hlength := congrArg length hwords
  simp only [length_append, le32_length, hfront] at hlength
  have hfirst : crc_len - 0x40200000 = crcsizeOffset := by omega
  have hsecond : crc_val - 0x40200000 = crcsizeOffset + 4 := by
    rw [hval, Nat.add_sub_cancel_left]
    rfl
  have hword : ofLe (slice c.cells crcsizeOffset 4) = bin.length := by
    have hslice := hsize.slice_eq
    rw [le32_length] at hslice
    rw [hslice, ofLe_le32, u32_of_lt hsmall]
  have hword' : ofLe (slice c.cells (crcsizeOffset + 4) 4) = (fileCrc front tail).toNat := by
    have hslice := hcrc.slice_eq
    rw [le32_length] at hslice
    rw [hslice, ofLe_le32, u32_of_lt (fileCrc front tail).toNat_lt]
  have hback : sub32 bin.length (crcsizeOffset + 8) = tail.length := by
    rw [sub32_of_le (by omega) hsmall]
    omega
  have hfrontSlice := hstart.slice_eq
  rw [hfront] at hfrontSlice
  rw [Nat.add_assoc, le32_length] at htail
  simp only [Esp.checkFlashCRC, hfirst, hsecond, hword, hword', hback, hfrontSlice]
  rw [htail.slice_eq, decide_eq_true_eq, fileCrc, crc8266, Esp.crc32, Esp.crc32, Esp.crc32,
    ← BitCrc.run_append, ← BitCrc.run_append, append_assoc]

theorem length_le_of_answers {n : Nat} (hsdk : AnswersIn F 0 n) (c : Esp.Chip F) :
    n ≤ 0x1000000 := by
  have hread := hsdk.read (Nat.le_refl 0) (Nat.le_of_eq (Nat.zero_add n)) c
  have hcapacity := (read_some hread).2.2.2
  have := F.capacity_le
  omega

theorem read_file (hbin : Elf2Bin.main args eboot app = some bin)
    (hlinked : Linked app crc_len crc_val) (hholds : Holds c.cells 0 bin)
    (hsdk : AnswersIn F 0 bin.length) :
    loadedApp 0 c = .ok (app.entry, app.segments.map sectionOf) ∧
      ∃ image, writeBin args app 0 = some image ∧
        (Esp.getSketchSize 0 c).1 = 4096 + image.length := by
  obtain ⟨first, rest, hsegments, haddr, hfirst⟩ := hlinked.first
  obtain ⟨front, tail, -, -, boot, image, back, himage, hboot, hlength, hlayout⟩ :=
    main_some hbin hsegments hfirst
  obtain ⟨hcount, hsizes, ⟨_, himageLayout⟩, hpadded⟩ := writeBin_some himage
  obtain ⟨stamped, hstamped⟩ : ∃ s, s = first.stamped bin.length (fileCrc front tail).toNat :=
    ⟨_, rfl⟩
  have hraw : stamped.raw.length = first.raw.length := by
    rw [hstamped, Segment.stamped]
    simp only [length_append, le32_length, length_drop]
    omega
  have hflat : ((stamped :: rest).flatMap Segment.bytes).length =
      (app.segments.flatMap Segment.bytes).length := by
    rw [hsegments, flatMap_cons, flatMap_cons, length_append, length_append,
      Segment.bytes_length, Segment.bytes_length, hraw]
  have hsections : (stamped :: rest).map sectionOf = app.segments.map sectionOf := by
    -- the first segment is mapped, and its bytes are not copied
    have hmapped : (SectionHeader.mk first.addr first.size).load = false := by
      rw [haddr, hlinked.len]
      rfl
    rw [hsegments, map_cons, map_cons, hstamped, sectionOf, sectionOf]
    simp only [Segment.stamped, hmapped, Bool.false_eq_true, if_false]
  rw [hsegments, forall_mem_cons] at hsizes
  have haddrs := app.addr_lt
  rw [hsegments, forall_mem_cons] at haddrs
  rw [← hstamped] at hlayout
  have hroom : 4096 + 8 + ((stamped :: rest).flatMap Segment.bytes).length ≤ bin.length := by
    conv_rhs => rw [hlayout]
    simp only [length_append, hboot, header_length]
    omega
  rw [hlayout] at hholds
  obtain ⟨-, hholds⟩ := hholds.of_append
  rw [Nat.zero_add, hboot] at hholds
  obtain ⟨hload, hsize⟩ := read_segments hsdk (length_le_of_answers hsdk c) hcount
    (by rw [hsegments]; rfl)
    (forall_mem_cons.2 ⟨hraw.trans (by rw [hsizes.1, hstamped]; rfl), hsizes.2⟩)
    (forall_mem_cons.2 ⟨by rw [hstamped]; exact haddrs.1, haddrs.2⟩) hholds hroom
  rw [hsections] at hload
  refine ⟨hload, image, himage, hsize.trans ?_⟩
  rw [hpadded, if_pos rfl, hflat, ← roundUp_add_eq (by decide) (by decide)]
  simp only [Nat.add_assoc]

/-- **The image format**: the loader comes past the segments of the sketch and jumps
to its entry, the walk gives the length of the whole file, and the CRC is accepted. -/
theorem image_format {b : Board F} (hbin : Elf2Bin.main args eboot app = some bin)
    (hlinked : Linked app crc_len crc_val) (hholds : Holds b.chip.cells 0 bin)
    (hsdk : AnswersIn F 0 bin.length) :
    ((loadAppFromFlashRaw 0 : Prog (rom F) _).run b).1 = .ok app.entry ∧
      loadedApp 0 b.chip = .ok (app.entry, app.segments.map sectionOf) ∧
      (∃ image, writeBin args app 0 = some image ∧
        (Esp.getSketchSize 0 b.chip).1 = 4096 + image.length) ∧
      Esp.checkFlashCRC crc_len crc_val b.chip = true := by
  obtain ⟨hload, hsize⟩ := read_file hbin hlinked hholds hsdk
  obtain ⟨first, rest, hsegments, -, hfirst⟩ := hlinked.first
  obtain ⟨front, tail, hfront, hwords, -⟩ := main_some hbin hsegments hfirst
  have hsmall := length_le_of_answers hsdk b.chip
  refine ⟨?_, hload, hsize,
    checkFlashCRC_file hfront hwords hholds (by omega) hlinked.len hlinked.val⟩
  rw [loadAppFromFlashRaw_run, hload]
  rfl

/-! ## A file -/

def sampleBoot : Elf := ⟨0x40100000, [], by decide, fun s hs => absurd hs List.not_mem_nil⟩

def sampleApp : Elf where
  entry := 0x40100004
  segments := [⟨8, 0x40201010, [0, 0, 0, 0, 0, 0, 0, 0]⟩, ⟨3, 0x3FFE8000, [1, 2, 3]⟩]
  entry_lt := by decide
  addr_lt := by decide

def sampleArgs : Args := ⟨.dio, .f40, .s1M⟩

def flashed (bin : List UInt8) : Esp.Chip (sampleFlash fun _ => false) :=
  ⟨(fun a => bin.getD a 0, 0), 0⟩

theorem flashed_holds (bin : List UInt8) : Holds (flashed bin).cells 0 bin := by
  intro i hi
  show bin.getD (0 + i) 0 = _
  rw [Nat.zero_add, getD_eq_getElem?_getD, getElem?_eq_getElem hi, Option.getD_some]

theorem sampleApp_linked : Linked sampleApp 0x40201010 0x40201014 :=
  ⟨rfl, rfl, _, _, rfl, rfl, by decide⟩

theorem main_sample : ∃ bin, Elf2Bin.main sampleArgs sampleBoot sampleApp = some bin ∧
    AnswersIn (sampleFlash fun _ => false) 0 bin.length := by
  obtain ⟨boot, hboot⟩ : ∃ boot, writeBin sampleArgs sampleBoot 4096 = some boot := ⟨_, rfl⟩
  obtain ⟨image, himage⟩ : ∃ image, writeBin sampleArgs sampleApp 0 = some image := ⟨_, rfl⟩
  have hsector : boot.length = 4096 := (writeBin_some hboot).2.2.2
  have hlength : image.length = 48 := (writeBin_some himage).2.2.2
  have hfile : (boot ++ image).length = 4144 := by
    rw [length_append, hsector, hlength]
  obtain ⟨bin, hbin, hsize⟩ := @addCrc_some (boot ++ image) (by rw [hfile]; decide)
  refine ⟨bin, ?_, sampleFlash_answers (by rw [hsize, hfile]; decide)⟩
  rw [Elf2Bin.main, hboot, Option.bind_some, himage, Option.bind_some, hbin]

theorem image_format_sample : ∃ bin, Elf2Bin.main sampleArgs sampleBoot sampleApp = some bin ∧
    ((loadAppFromFlashRaw 0 : Prog (rom _) _).run ⟨flashed bin, fun _ => 0⟩).1 =
      .ok 0x40100004 ∧
    loadedApp 0 (flashed bin) =
      .ok (0x40100004, [⟨⟨0x40201010, 8⟩, none⟩, ⟨⟨0x3FFE8000, 3⟩, some [1, 2, 3]⟩]) ∧
    (∃ image, writeBin sampleArgs sampleApp 0 = some image ∧
      (Esp.getSketchSize 0 (flashed bin)).1 = 4096 + image.length) ∧
    Esp.checkFlashCRC 0x40201010 0x40201014 (flashed bin) = true := by
  obtain ⟨bin, hbin, hsdk⟩ := main_sample
  exact ⟨bin, hbin, image_format hbin sampleApp_linked (flashed_holds bin) hsdk⟩

/-- A mapped segment stays in flash, and the size of the sketch counts the sector of
the boot loader. -/
theorem not_image_format : ∃ bin, Elf2Bin.main sampleArgs sampleBoot sampleApp = some bin ∧
    loadedApp 0 (flashed bin) ≠
      .ok (sampleApp.entry, sampleApp.segments.map fun s => ⟨⟨s.addr, s.size⟩, some s.raw⟩) ∧
    ∀ image, writeBin sampleArgs sampleApp 0 = some image →
      (Esp.getSketchSize 0 (flashed bin)).1 ≠ image.length := by
  obtain ⟨bin, hbin, hsdk⟩ := main_sample
  obtain ⟨hload, image, himage, hsize⟩ :=
    read_file hbin sampleApp_linked (flashed_holds bin) hsdk
  refine ⟨bin, hbin, fun hagreed => ?_, fun image' himage' hagreed => ?_⟩
  · rw [hload] at hagreed
    have hsections := congrArg (map Section.bytes) (Prod.mk.inj (Except.ok.inj hagreed)).2
    exact Option.noConfusion rfl (heq_of_eq (cons.inj hsections).1)
  · rw [himage] at himage'
    cases himage'
    omega

end Eboot
