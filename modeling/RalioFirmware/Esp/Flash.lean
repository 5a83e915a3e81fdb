import RalioFirmware.Basis.Word
import RalioFirmware.Basis.NorChip

/-!
# Flash access of `EspClass`

`ESP.flashWrite` and `ESP.flashRead` sit between the sketch and the SDK's
`spi_flash_*` calls, which want word-aligned ranges and, for writes, ranges
that stay inside a page.  The functions below are those of `Esp.cpp`, over a
flash driver that may fail at any call.  Sectors have 4096 bytes
(`FLASH_SECTOR_SIZE`), pages 256 (`FLASH_PAGE_SIZE`), words 4 (`Alignment`).

The two results later files use are `flashWrite_true`, that a successful
write programs exactly the bytes it was given at the address it was given,
whatever their alignment, and `flashWrite_false`, that a write of at least
one byte fails only if some driver call failed.
-/

open Word Bytes Nor Nor.Chip List

/-- The flash chip of a board: its driver, its id as `spi_flash_get_id`
reports it, and whether the page buffer of the PUYA path could be had. A
flash command carries a 24-bit address. -/
structure SpiFlash extends Nor.Driver 4096 4 where
  flashId : Nat
  puyaBuffer : Bool
  capacity_le : capacity ≤ 0x1000000

namespace Esp

variable {F : SpiFlash}

abbrev Chip (F : SpiFlash) := Nor.Chip F.toDriver

/-- `SPI_FLASH_VENDOR_PUYA`, the vendor whose pages must be read back before
they are written. -/
def isPuya (F : SpiFlash) : Bool := F.flashId &&& 0x000000ff = 0x85

def flashEraseSector (sector : Nat) (c : Chip F) : Bool × Chip F := c.erase sector

/-! ## Writing -/

/-- The loop of `spi_flash_write_page_break`: `pages` whole pages, from
`size_page_aligned` bytes into `data`. -/
def writePages (offset : Nat) (data : List UInt8) :
    Nat → Nat → Chip F → Bool × Nat × Chip F
  | 0, size_page_aligned, c => (true, size_page_aligned, c)
  | pages+1, size_page_aligned, c =>
    match c.program (offset + size_page_aligned)
        ((data.drop (4 * (size_page_aligned >>> 2))).take 256) with
    | (false, c) => (false, size_page_aligned, c)
    | (true, c) => writePages offset data pages (size_page_aligned + 256) c

/-- `spi_flash_write_page_break`: a write that crosses no page boundary in
any one driver call. -/
def spiFlashWritePageBreak (offset : Nat) (data : List UInt8) (c : Chip F) : Bool × Chip F :=
  let size_page_aligned := 256 - offset % 256
  if data.length < size_page_aligned then c.program offset data
  else
    match c.program offset (data.take size_page_aligned) with
    | (false, c) => (false, c)
    | (true, c) =>
      let last_page := (data.length - size_page_aligned) / 256
      match writePages offset data last_page size_page_aligned c with
      | (false, _, c) => (false, c)
      | (true, size_page_aligned, c) =>
        c.program (offset + size_page_aligned)
          ((data.drop (4 * (size_page_aligned >>> 2))).take (data.length - size_page_aligned))

/-- The loop of `spi_flash_write_puya`: read a stretch back, clear in it the
bits the data clears, write it.  Each round takes at least one byte. -/
def writePuyaLoop : Nat → Nat → List UInt8 → Chip F → Bool × Chip F
  | 0, _, _, c => (true, c)
  | rounds+1, pos, data, c =>
    if data.length = 0 then (true, c)
    else
      let bytesNow := min data.length 256
      match c.read pos bytesNow with
      | (none, c) => (false, c)
      | (some buf, c) =>
        match c.program pos (List.zipWith (· &&& ·) buf (data.take bytesNow)) with
        | (false, c) => (false, c)
        | (true, c) => writePuyaLoop rounds (pos + bytesNow) (data.drop bytesNow) c

def spiFlashWritePuya (offset : Nat) (data : List UInt8) (c : Chip F) : Bool × Chip F :=
  if data.length % 4 ≠ 0 then (false, c)
  else if F.puyaBuffer = false then (false, { c with faults := c.faults + 1 })
  else writePuyaLoop data.length offset data c

/-- `EspClass::flashWrite` for words. -/
def flashWriteWords (address : Nat) (data : List UInt8) (c : Chip F) : Bool × Chip F :=
  if isPuya F then spiFlashWritePuya address data c
  else spiFlashWritePageBreak address data c

/-- `aligned`: the next multiple of four. -/
def aligned (value : Nat) : Nat := (value + 3) / 4 * 4

/-- `alignBefore`: for an unaligned value, the multiple of four before it. -/
def alignBefore (value : Nat) : Nat := aligned value - 4

/-- The first part of `flashWriteUnalignedMemory`: the bytes up to the next
word boundary, by reading, changing and writing the word they lie in. -/
def writeHead (address : Nat) (data : List UInt8) (c : Chip F) : Bool × Chip F :=
  let before_address := alignBefore address
  let offset := address - before_address
  match c.read before_address 4 with
  | (none, c) => (false, c)
  | (some buf, c) =>
    let word :=
      if isPuya F then memcpy buf offset (List.zipWith (· &&& ·) (buf.drop offset) data)
      else memcpy buf offset data
    c.program before_address word

/-- The loop of `flashWriteUnalignedMemory`, page-sized pieces with the last
one completed to a word by what the chip holds.  Returns the number of bytes
written. -/
def writeUnalignedLoop : Nat → Nat → List UInt8 → Nat → Chip F → Nat × Chip F
  | 0, _, _, written, c => (written, c)
  | rounds+1, address, data, written, c =>
    if data.length = 0 then (written, c)
    else
      let len := min data.length 256
      let wlen := aligned len
      if wlen ≠ len then
        let part := wlen - 4
        match c.read (address + part) 4 with
        | (none, c) => (written, c)
        | (some tail, c) =>
          match flashWriteWords address (data.take len ++ tail.drop (len - part)) c with
          | (false, c) => (written, c)
          | (true, c) =>
            writeUnalignedLoop rounds (address + len) (data.drop len) (written + len) c
      else
        match flashWriteWords address (data.take len) c with
        | (false, c) => (written, c)
        | (true, c) =>
          writeUnalignedLoop rounds (address + len) (data.drop len) (written + len) c

def flashWriteUnalignedMemory (address : Nat) (data : List UInt8) (c : Chip F) : Nat × Chip F :=
  if address % 4 ≠ 0 then
    let wlen := min (4 - (address - alignBefore address)) data.length
    match writeHead address (data.take wlen) c with
    | (false, c) => (0, c)
    | (true, c) =>
      writeUnalignedLoop data.length (address + wlen) (data.drop wlen) wlen c
  else writeUnalignedLoop data.length address data 0 c

/-- `EspClass::flashWrite` for bytes, from the RAM address `ptr`. -/
def flashWrite (address ptr : Nat) (data : List UInt8) (c : Chip F) : Bool × Chip F :=
  if ptr ≠ 0 ∧ data.length ≠ 0 then
    if address % 4 ≠ 0 ∨ ptr % 4 ≠ 0 ∨ data.length % 4 ≠ 0 then
      let (written, c) := flashWriteUnalignedMemory address data c
      (written = data.length, c)
    else flashWriteWords address data c
  else (false, c)

/-! ## What a write does -/

variable {c c' : Chip F}

/-- What a write that reports `ok` is held to: all bytes programmed, or a
driver call failed. -/
def Writes (ok : Bool) (c c' : Chip F) (a : Nat) (bs : List UInt8) : Prop :=
  match ok with
  | true => Programmed c c' a bs
  | false => c.faults < c'.faults

variable {a : Nat} {bs : List UInt8}

theorem writes_of_program {ok : Bool} (ha : a % 4 = 0)
    (hbs : bs.length % 4 = 0) (h : c.program a bs = (ok, c')) : Writes ok c c' a bs := by
  cases ok with
  | true => exact programmed_of_program ha hbs h
  | false =>
    have := (program_false ha hbs h).2
    simp only [Writes]
    omega

variable {c₀ : Chip F}

theorem Writes.after {b : Nat} {cs : List UInt8} {ok : Bool}
    (h₀ : Programmed c₀ c a bs) (hb : b = a + bs.length) (h : Writes ok c c' b cs) :
    Writes ok c₀ c' a (bs ++ cs) := by
  cases ok with
  | true => exact h₀.trans hb h
  | false => simpa only [Writes, h₀.faults] using h

variable {offset : Nat}

theorem writePages_spec {data : List UInt8}
    (hoff : offset % 4 = 0) {pages spa spa' : Nat} {ok : Bool} (hspa : spa % 4 = 0)
    (hlen : spa + 256 * pages ≤ data.length)
    (h₀ : Programmed c₀ c offset (data.take spa))
    (h : writePages offset data pages spa c = (ok, spa', c')) :
    (ok = true → spa' = spa + 256 * pages) ∧
      ∃ n, Writes ok c₀ c' offset (data.take n) ∧ (ok = true → n = spa') := by
  induction pages generalizing spa c with
  | zero =>
    simp only [writePages, Prod.mk.injEq] at h
    obtain ⟨rfl, rfl, rfl⟩ := h
    exact ⟨fun _ => by omega, spa, h₀, fun _ => rfl⟩
  | succ n ih =>
    have hdrop : 4 * (spa >>> 2) = spa := by
      rw [Nat.shiftRight_eq_div_pow]; omega
    have hpage : ((data.drop spa).take 256).length = 256 := by grind
    simp only [writePages, hdrop] at h
    split at h
    · rename_i c₁ hp
      simp only [Prod.mk.injEq] at h
      obtain ⟨rfl, rfl, rfl⟩ := h
      have h₁ := Writes.after h₀ (by simp; omega) (writes_of_program (by omega) (by omega) hp)
      exact ⟨by simp, spa, h₁, by simp⟩
    · rename_i c₁ hp
      have h₁ := h₀.trans (by simp; omega) (programmed_of_program (by omega) (by omega) hp)
      rw [← take_add] at h₁
      obtain ⟨hspa', hw⟩ := ih (by omega) (by omega) h₁ h
      exact ⟨fun hok => by have := hspa' hok; omega, hw⟩

theorem spiFlashWritePageBreak_spec {data : List UInt8} {ok : Bool}
    (hoff : offset % 4 = 0) (hdata : data.length % 4 = 0)
    (h : spiFlashWritePageBreak offset data c = (ok, c')) :
    Writes ok c c' offset data := by
  unfold spiFlashWritePageBreak at h
  generalize hspa : 256 - offset % 256 = spa at h
  dsimp only at h
  split at h
  · exact writes_of_program hoff hdata h
  · rename_i hlt
    have hhead : (data.take spa).length = spa := by simp; omega
    split at h
    · rename_i c₁ hp
      obtain ⟨rfl, rfl⟩ := Prod.mk.inj h
      have h₁ := writes_of_program hoff (by omega) hp
      exact h₁
    · rename_i c₁ hp
      have h₁ := programmed_of_program hoff (by omega) hp
      split at h
      · rename_i spa' c₂ hl
        obtain ⟨rfl, rfl⟩ := Prod.mk.inj h
        obtain ⟨-, n, hw, -⟩ := writePages_spec hoff (by omega) (by omega) h₁ hl
        exact hw
      · rename_i spa' c₂ hl
        obtain ⟨hspa', n, h₂, hn⟩ := writePages_spec hoff (by omega) (by omega) h₁ hl
        obtain rfl := hn rfl
        replace hspa' := hspa' rfl
        have hdrop : 4 * (n >>> 2) = n := by
          rw [Nat.shiftRight_eq_div_pow]; omega
        have hrest : (data.drop n).take (data.length - n) = data.drop n :=
          take_of_length_le (by simp)
        rw [hdrop, hrest] at h
        have h₃ := Writes.after h₂ (by simp; omega)
          (writes_of_program (by omega) (by simp; omega) h)
        simpa only [take_append_drop] using h₃

variable {buf : List UInt8}

theorem programmed_of_zipWith
    (hbuf : buf = slice c.cells a bs.length)
    (h : Programmed c c' a (List.zipWith (· &&& ·) buf bs)) : Programmed c c' a bs := by
  subst hbuf
  have hlen : (zipWith (· &&& ·) (slice c.cells a bs.length) bs).length = bs.length := by
    simp
  refine h.shrink (Nat.le_refl a) (by omega) (fun x h₁ h₂ => ?_) (fun x h₁ h₂ h₃ => by omega)
  obtain ⟨i, rfl⟩ : ∃ i, x = a + i := ⟨x - a, by omega⟩
  rw [maskAt_add (by omega), maskAt_add (by omega)]
  simp [← UInt8.and_assoc]

variable {rounds : Nat}

theorem writePuyaLoop_spec {pos : Nat} {data : List UInt8} {ok : Bool}
    (hpos : pos % 4 = 0) (hdata : data.length % 4 = 0) (hr : data.length ≤ rounds)
    (h : writePuyaLoop rounds pos data c = (ok, c')) : Writes ok c c' pos data := by
  induction rounds generalizing pos data c with
  | zero =>
    obtain rfl : data = [] := length_eq_zero_iff.mp (by omega)
    obtain ⟨rfl, rfl⟩ := Prod.mk.inj h
    exact Programmed.refl _ _
  | succ n ih =>
    simp only [writePuyaLoop] at h
    split at h
    · rename_i hz
      obtain rfl : data = [] := length_eq_zero_iff.mp hz
      obtain ⟨rfl, rfl⟩ := Prod.mk.inj h
      exact Programmed.refl _ _
    · generalize hnow : min data.length 256 = now at h
      have htake : (data.take now).length = now := by simp; omega
      split at h
      · rename_i c₁ hread
        obtain ⟨rfl, rfl⟩ := Prod.mk.inj h
        have := (read_none hread).2
        simp only [Writes]
        omega
      · rename_i buf c₁ hread
        obtain ⟨hbuf, hcells, hf, -⟩ := read_some hread
        have hzip : (zipWith (· &&& ·) buf (data.take now)).length = now := by
          simp [hbuf]; omega
        split at h
        · rename_i c₂ hp
          obtain ⟨rfl, rfl⟩ := Prod.mk.inj h
          have := (program_false hpos (by omega) hp).2
          simp only [Writes]
          omega
        · rename_i c₂ hp
          have h₁ := programmed_of_zipWith (by rw [hbuf, hcells, htake])
            (programmed_of_program hpos (by omega) hp)
          have h₂ := ih (by omega) (by simp; omega) (by simp; omega) h
          have h₃ := Writes.after h₁ (by omega) h₂
          rw [take_append_drop] at h₃
          cases ok with
          | true => exact ⟨fun x => hcells ▸ h₃.cells x, h₃.faults.trans hf, h₃.within⟩
          | false => simpa only [Writes, hf] using h₃

theorem flashWriteWords_spec {address : Nat} {data : List UInt8} {ok : Bool}
    (hadr : address % 4 = 0) (hdata : data.length % 4 = 0)
    (h : flashWriteWords address data c = (ok, c')) : Writes ok c c' address data := by
  unfold flashWriteWords spiFlashWritePuya at h
  split at h
  · rw [if_neg (by simpa using hdata)] at h
    split at h
    · obtain ⟨rfl, rfl⟩ := Prod.mk.inj h
      simp [Writes]
    · exact writePuyaLoop_spec hadr hdata (Nat.le_refl _) h
  · exact spiFlashWritePageBreak_spec hadr hdata h

theorem aligned_eq (n : Nat) : aligned n % 4 = 0 ∧ n ≤ aligned n ∧ aligned n < n + 4 := by
  unfold aligned; omega

theorem programmed_of_tail {address part : Nat} {data tail : List UInt8}
    (hpart : part + 4 = aligned data.length)
    (htail : tail = slice c.cells (address + part) 4)
    (h : Programmed c c' address (data ++ tail.drop (data.length - part))) :
    Programmed c c' address data := by
  have hal := aligned_eq data.length
  have hdrop : (tail.drop (data.length - part)).length = aligned data.length - data.length := by
    simp [htail]; omega
  refine h.shrink (Nat.le_refl _) (by simp) (fun x h₁ h₂ => ?_) (fun x h₁ h₂ h₃ => ?_)
  · rw [maskAt_append, maskAt_of_lt (a := address + data.length) h₂, and_ff]
  · rw [length_append, hdrop] at h₂
    rw [maskAt_append, maskAt_of_ge (a := address) (by omega), ff_and]
    obtain ⟨i, rfl⟩ : ∃ i, x = address + data.length + i := ⟨x - (address + data.length), by omega⟩
    rw [maskAt_add (by omega), getElem_drop]
    simp only [htail, slice_getElem]
    congr 1
    omega

theorem programmed_of_head {address : Nat} {data word : List UInt8}
    (hlen : address % 4 + data.length ≤ 4) (hbuf : buf = slice c.cells (address / 4 * 4) 4)
    (hword : word = memcpy buf (address % 4) data ∨
      word = memcpy buf (address % 4) (List.zipWith (· &&& ·) (buf.drop (address % 4)) data))
    (h : Programmed c c' (address / 4 * 4) word) :
    word.length = 4 → Programmed c c' address data := by
  intro hw
  have hbuflen : buf.length = 4 := by simp [hbuf]
  have hcell : ∀ i, i < 4 → buf[i]? = some (c.cells (address / 4 * 4 + i)) := by
    intro i hi
    rw [getElem?_eq_getElem (by omega)]
    simp only [hbuf, slice_getElem]
  have hzip : (zipWith (· &&& ·) (buf.drop (address % 4)) data).length = data.length := by
    simp [hbuflen]; omega
  refine h.shrink (by omega) (by omega) (fun x h₁ h₂ => ?_) (fun x h₁ h₂ h₃ => ?_)
  · obtain ⟨i, rfl⟩ : ∃ i, x = address + i := ⟨x - address, by omega⟩
    rw [maskAt_add (by omega)]
    simp only [maskAt, if_pos (show address / 4 * 4 ≤ address + i by omega),
      show address + i - address / 4 * 4 = address % 4 + i by omega]
    rcases hword with rfl | rfl
    · rw [memcpy_getElem? (by omega), if_pos (by omega)]
      simp [show address % 4 + i - address % 4 = i by omega, show i < data.length by omega]
    · rw [memcpy_getElem? (by omega), if_pos (by omega)]
      rw [show address % 4 + i - address % 4 = i by omega, getElem?_zipWith,
        getElem?_drop, hcell _ (by omega), getElem?_eq_getElem (by omega),
        show address / 4 * 4 + (address % 4 + i) = address + i by omega]
      simp [← UInt8.and_assoc]
  · simp only [maskAt, if_pos h₁]
    have hold : buf[x - address / 4 * 4]? = some (c.cells x) := by
      rw [hcell _ (by omega), show address / 4 * 4 + (x - address / 4 * 4) = x by omega]
    rcases hword with rfl | rfl
    · rw [memcpy_getElem? (by omega), if_neg (by omega), hold, Option.getD_some]
    · rw [memcpy_getElem? (by omega), if_neg (by omega), hold, Option.getD_some]

theorem Writes.of_cells_eq {ok : Bool}
    (hcells : c.cells = c₀.cells) (hf : c.faults = c₀.faults) (h : Writes ok c c' a bs) :
    Writes ok c₀ c' a bs := by
  cases ok with
  | true => exact ⟨fun x => hcells ▸ h.cells x, h.faults.trans hf, h.within⟩
  | false => simpa only [Writes, hf] using h

theorem writeHead_spec {address : Nat} {data : List UInt8} {ok : Bool}
    (hadr : address % 4 ≠ 0) (hlen : address % 4 + data.length ≤ 4)
    (h : writeHead address data c = (ok, c')) : Writes ok c c' address data := by
  have hbefore : alignBefore address = address / 4 * 4 := by
    unfold alignBefore aligned; omega
  have hoffset : address - address / 4 * 4 = address % 4 := by omega
  simp only [writeHead, hbefore, hoffset] at h
  split at h
  · rename_i c₁ hread
    obtain ⟨rfl, rfl⟩ := Prod.mk.inj h
    have := (read_none hread).2
    simp only [Writes]
    omega
  · rename_i buf c₁ hread
    obtain ⟨hbuf, hcells, hf, -⟩ := read_some hread
    have hbuflen : buf.length = 4 := by simp [hbuf]
    generalize hword : (if isPuya F = true then _ else _) = word at h
    have hcases : word = memcpy buf (address % 4) data ∨ word = memcpy buf (address % 4)
        (zipWith (· &&& ·) (buf.drop (address % 4)) data) := by grind
    have hwlen : word.length = 4 := by
      rcases hcases with rfl | rfl
      · rw [memcpy_length (by omega), hbuflen]
      · rw [memcpy_length (by simp [hbuflen]; omega), hbuflen]
    refine Writes.of_cells_eq hcells hf ?_
    cases ok with
    | true =>
      exact programmed_of_head hlen (by rw [hbuf, hcells]) hcases
        (programmed_of_program (by omega) (by omega) h) hwlen
    | false =>
      have := writes_of_program (by omega) (by omega) h
      exact this

variable {n : Nat}

theorem writeUnalignedLoop_spec {address written : Nat} {data : List UInt8}
    (hadr : address % 4 = 0) (hr : data.length ≤ rounds)
    (h : writeUnalignedLoop rounds address data written c = (n, c')) :
    (n = written + data.length ∧ Programmed c c' address data) ∨
      (n < written + data.length ∧ c.faults < c'.faults) := by
  induction rounds generalizing address data written c with
  | zero =>
    obtain rfl : data = [] := length_eq_zero_iff.mp (by omega)
    obtain ⟨rfl, rfl⟩ := Prod.mk.inj h
    exact .inl ⟨rfl, Programmed.refl _ _⟩
  | succ k ih =>
    simp only [writeUnalignedLoop] at h
    split at h
    · rename_i hz
      obtain rfl : data = [] := length_eq_zero_iff.mp hz
      obtain ⟨rfl, rfl⟩ := Prod.mk.inj h
      exact .inl ⟨rfl, Programmed.refl _ _⟩
    · rename_i hz
      generalize hl : min data.length 256 = len at h
      have htake : (data.take len).length = len := by simp; omega
      have hal := aligned_eq len
      -- whatever the piece, the rest goes on from it
      have hrest : ∀ {c₁ : Chip F}, Programmed c c₁ address (data.take len) →
          len % 4 = 0 ∨ data.length = len →
          writeUnalignedLoop k (address + len) (data.drop len) (written + len) c₁ = (n, c') →
          (n = written + data.length ∧ Programmed c c' address data) ∨
            (n < written + data.length ∧ c.faults < c'.faults) := by
        intro c₁ h₁ hcase h
        rcases hcase with hcase | hcase
        · have hdl : (data.drop len).length = data.length - len := by simp
          rcases ih (by omega) (by omega) h with ⟨rfl, h₂⟩ | ⟨hn, hf⟩
          · refine .inl ⟨by omega, ?_⟩
            have := h₁.trans (by omega) h₂
            rwa [take_append_drop] at this
          · exact .inr ⟨by omega, by rw [← h₁.faults]; exact hf⟩
        · have hnil : data.drop len = [] := by simp [← hcase]
          have hall : data.take len = data := by simp [← hcase]
          rw [hnil] at h
          have hdone : writeUnalignedLoop k (address + len) [] (written + len) c₁ =
              (written + len, c₁) := by
            cases k <;> simp [writeUnalignedLoop]
          obtain ⟨rfl, rfl⟩ := Prod.mk.inj (hdone.symm.trans h)
          exact .inl ⟨by omega, hall ▸ h₁⟩
      split at h
      · rename_i hne
        split at h
        · rename_i c₁ hread
          obtain ⟨rfl, rfl⟩ := Prod.mk.inj h
          have := (read_none hread).2
          exact .inr ⟨by omega, by omega⟩
        · rename_i tail c₁ hread
          obtain ⟨htail, hcells, hf, -⟩ := read_some hread
          have hwhole : (data.take len ++ tail.drop (len - (aligned len - 4))).length =
              aligned len := by
            simp [htail]; omega
          split at h
          · rename_i c₂ hw
            obtain ⟨rfl, rfl⟩ := Prod.mk.inj h
            have hw := flashWriteWords_spec hadr (by omega) hw
            exact .inr ⟨by omega, by rw [← hf]; exact hw⟩
          · rename_i c₂ hw
            have hw := flashWriteWords_spec hadr (by omega) hw
            have h₁ : Writes true c₁ c₂ address (data.take len) := by
              refine @programmed_of_tail F _ _ _ (aligned len - 4) _ tail ?_ ?_ ?_
              · rw [htake]; omega
              · rw [htail, hcells]
              · rw [htake]; exact hw
            exact hrest (h₁.of_cells_eq hcells hf) (.inr (by omega)) h
      · rename_i heq
        have heq : aligned len = len := by omega
        split at h
        · rename_i c₁ hw
          obtain ⟨rfl, rfl⟩ := Prod.mk.inj h
          have hw := flashWriteWords_spec hadr (by omega) hw
          exact .inr ⟨by omega, hw⟩
        · rename_i c₁ hw
          have hw := flashWriteWords_spec hadr (by omega) hw
          exact hrest hw (.inl (by omega)) h

theorem flashWriteUnalignedMemory_spec {address : Nat} {data : List UInt8}
    (hne : data ≠ []) (h : flashWriteUnalignedMemory address data c = (n, c')) :
    (n = data.length ∧ Programmed c c' address data) ∨
      (n ≠ data.length ∧ c.faults < c'.faults) := by
  have hpos := length_pos_iff.mpr hne
  unfold flashWriteUnalignedMemory at h
  split at h
  · rename_i hadr
    have hoffset : address - alignBefore address = address % 4 := by
      unfold alignBefore aligned; omega
    rw [hoffset] at h
    generalize hw : min (4 - address % 4) data.length = wlen at h
    have htake : (data.take wlen).length = wlen := by simp; omega
    dsimp only at h
    split at h
    · rename_i c₁ hhead
      obtain ⟨rfl, rfl⟩ := Prod.mk.inj h
      have := writeHead_spec hadr (by omega) hhead
      exact .inr ⟨by omega, this⟩
    · rename_i c₁ hhead
      have h₁ := writeHead_spec hadr (by omega) hhead
      have hdl : (data.drop wlen).length = data.length - wlen := by simp
      rcases Nat.lt_or_ge wlen data.length with hlt | hge
      · rcases writeUnalignedLoop_spec (by omega) (by omega) h with ⟨rfl, h₂⟩ | ⟨hn, hf⟩
        · refine .inl ⟨by omega, ?_⟩
          have h₃ := Programmed.trans h₁ (by omega) h₂
          rwa [take_append_drop] at h₃
        · exact .inr ⟨by omega, by rw [← h₁.faults]; exact hf⟩
      · -- the head took everything and the loop has nothing left
        have hnil : data.drop wlen = [] := drop_eq_nil_of_le hge
        have hall : data.take wlen = data := take_of_length_le hge
        rw [hnil] at h
        have hdone : writeUnalignedLoop data.length (address + wlen) [] wlen c₁ = (wlen, c₁) := by
          cases data.length <;> simp [writeUnalignedLoop]
        obtain ⟨rfl, rfl⟩ := Prod.mk.inj (hdone.symm.trans h)
        exact .inl ⟨by omega, hall ▸ h₁⟩
  · rename_i hadr
    rcases writeUnalignedLoop_spec (by omega) (Nat.le_refl _) h with ⟨rfl, h₂⟩ | ⟨hn, hf⟩
    · exact .inl ⟨by omega, h₂⟩
    · exact .inr ⟨by omega, hf⟩

/-- **A successful `flashWrite` programs what it was given**, byte for byte,
whatever the alignment of address, pointer and size. -/
theorem flashWrite_true {address ptr : Nat} {data : List UInt8}
    (h : flashWrite address ptr data c = (true, c')) :
    data ≠ [] ∧ Programmed c c' address data := by
  unfold flashWrite at h
  split at h
  · rename_i hpd
    have hne : data ≠ [] := length_pos_iff.mp (by omega)
    refine ⟨hne, ?_⟩
    split at h
    · cases hm : flashWriteUnalignedMemory address data c with
      | mk written c₁ =>
        rw [hm] at h
        obtain ⟨hn, rfl⟩ := Prod.mk.inj h
        rcases flashWriteUnalignedMemory_spec hne hm with ⟨-, hp⟩ | ⟨hn', -⟩
        · exact hp
        · exact absurd (by simpa using hn) hn'
    · exact flashWriteWords_spec (by omega) (by omega) h
  · simp at h

theorem flashWrite_false {address ptr : Nat} {data : List UInt8}
    (h : flashWrite address ptr data c = (false, c')) :
    (ptr ≠ 0 ∧ data ≠ [] ∧ c.faults < c'.faults) ∨ ((ptr = 0 ∨ data = []) ∧ c' = c) := by
  unfold flashWrite at h
  split at h
  · rename_i hpd
    have hne : data ≠ [] := length_pos_iff.mp (by omega)
    refine .inl ⟨hpd.1, hne, ?_⟩
    split at h
    · cases hm : flashWriteUnalignedMemory address data c with
      | mk written c₁ =>
        rw [hm] at h
        obtain ⟨hn, rfl⟩ := Prod.mk.inj h
        rcases flashWriteUnalignedMemory_spec hne hm with ⟨hn', -⟩ | ⟨-, hf⟩
        · exact absurd hn' (by simpa using hn)
        · exact hf
    · have hw : Writes false c c' address data := flashWriteWords_spec (by omega) (by omega) h
      exact hw
  · grind

/-! ## Reading -/

/-- `EspClass::flashRead` for words: `none` where it returns `false`. -/
def flashReadWords (address ptr size : Nat) (c : Chip F) : Option (List UInt8) × Chip F :=
  if ptr % 4 ≠ 0 ∨ size % 4 ≠ 0 then (none, c) else c.read address size

/-- The bounce-buffer loop of `flashRead`, 64 bytes a round: whether it got
through, and what it has copied to the destination. -/
def readBounceLoop : Nat → Nat → Nat → List UInt8 → Chip F → Bool × List UInt8 × Chip F
  | 0, _, _, got, c => (true, got, c)
  | rounds+1, address, sizeLeft, got, c =>
    if sizeLeft = 0 then (true, got, c)
    else
      let willCopy := min sizeLeft 64
      match flashReadWords (address + got.length) 0 willCopy c with
      | (none, c) => (false, got, c)
      | (some buf, c) => readBounceLoop rounds address (sizeLeft - willCopy) (got ++ buf) c

/-- The whole words of `flashRead` for bytes. -/
def readAligned (address ptr sizeAligned : Nat) (c : Chip F) : Bool × List UInt8 × Chip F :=
  if ptr % 4 ≠ 0 then readBounceLoop sizeAligned address sizeAligned [] c
  else
    match flashReadWords address ptr sizeAligned c with
    | (none, c) => (false, [], c)
    | (some got, c) => (true, got, c)

/-- `EspClass::flashRead` for bytes: the whole words first, then the rest out
of one more word.  With the result comes what was copied to the destination,
a part of it when a read failed. -/
def flashReadBytes (address ptr size : Nat) (c : Chip F) : Bool × List UInt8 × Chip F :=
  let sizeAligned := clearLow 2 size
  match readAligned address ptr sizeAligned c with
  | (false, got, c) => (false, got, c)
  | (true, got, c) =>
    if sizeAligned < size then
      match c.read (address + sizeAligned) 4 with
      | (none, c) => (false, got, c)
      | (some tempData, c) => (true, got ++ tempData.take (size - sizeAligned), c)
    else (true, got, c)

/-- What every reader is held to: the contents stay, faults only grow. -/
structure ReadOnly (c c' : Chip F) : Prop where
  cells : c'.cells = c.cells
  faults : c.faults ≤ c'.faults

theorem ReadOnly.refl (c : Chip F) : ReadOnly c c := ⟨rfl, Nat.le_refl _⟩

theorem ReadOnly.trans {c'' : Chip F} (h : ReadOnly c c') (h' : ReadOnly c' c'') :
    ReadOnly c c'' :=
  ⟨h'.cells.trans h.cells, Nat.le_trans h.faults h'.faults⟩

/-- The result of a reader that asked for `n` bytes at `a`: these bytes and
no new fault, or a fault. -/
def Reads (r : Option (List UInt8)) (c c' : Chip F) (a n : Nat) : Prop :=
  c'.cells = c.cells ∧
    match r with
    | some bs => bs = slice c.cells a n ∧ c'.faults = c.faults
    | none => c.faults < c'.faults

variable {r : Option (List UInt8)}

theorem Reads.readOnly (h : Reads r c c' a n) :
    ReadOnly c c' := by
  cases r with
  | some bs => exact ⟨h.1, Nat.le_of_eq h.2.2.symm⟩
  | none => exact ⟨h.1, Nat.le_of_lt h.2⟩

theorem reads_of_read (h : c.read a n = (r, c')) :
    Reads r c c' a n := by
  cases r with
  | some bs =>
    obtain ⟨hbs, hcells, hf, -⟩ := read_some h
    exact ⟨hcells, hbs, hf⟩
  | none =>
    obtain ⟨hcells, hf⟩ := read_none h
    exact ⟨hcells, by show _ < _; omega⟩

variable {got : List UInt8}

theorem Reads.append {b m : Nat}
    (h₀ : Reads (some got) c₀ c a m) (hb : b = a + m) (h : Reads r c c' b n) :
    Reads (r.map (got ++ ·)) c₀ c' a (m + n) := by
  obtain ⟨hc₀, rfl, hf₀⟩ := h₀
  subst hb
  refine ⟨h.1.trans hc₀, ?_⟩
  cases r with
  | some bs =>
    obtain ⟨-, rfl, hf⟩ := h
    exact ⟨by rw [slice_append, hc₀], hf.trans hf₀⟩
  | none =>
    have := h.2
    simp only at this
    simp only [Option.map_none]
    omega

/-- The result of a reader that also says what it copied when it failed. -/
def ReadsInto (ok : Bool) (got : List UInt8) (c c' : Chip F) (a n : Nat) : Prop :=
  Reads (if ok then some got else none) c c' a n

theorem readBounceLoop_spec {address sizeLeft : Nat}
    {got' : List UInt8} {ok : Bool} (hl : sizeLeft % 4 = 0) (hr : sizeLeft ≤ rounds)
    (h₀ : Reads (some got) c₀ c address n)
    (h : readBounceLoop rounds address sizeLeft got c = (ok, got', c')) :
    ReadsInto ok got' c₀ c' address (n + sizeLeft) := by
  have hgot : got.length = n := by rw [h₀.2.1, slice_length]
  induction rounds generalizing sizeLeft got n c with
  | zero =>
    obtain ⟨rfl, rfl, rfl⟩ : true = ok ∧ got = got' ∧ c = c' := by
      simpa [readBounceLoop] using h
    rwa [show sizeLeft = 0 by omega, Nat.add_zero]
  | succ k ih =>
    simp only [readBounceLoop] at h
    split at h
    · rename_i hz
      obtain ⟨rfl, rfl, rfl⟩ : true = ok ∧ got = got' ∧ c = c' := by simpa using h
      rwa [hz, Nat.add_zero]
    · generalize hw : min sizeLeft 64 = w at h
      rw [flashReadWords, if_neg (by omega), hgot] at h
      split at h
      · rename_i c₁ hread
        obtain ⟨rfl, rfl, rfl⟩ : false = ok ∧ got = got' ∧ c₁ = c' := by simpa using h
        have := h₀.append rfl (reads_of_read hread)
        exact ⟨this.1, this.2⟩
      · rename_i buf c₁ hread
        have h₁ := h₀.append rfl (reads_of_read hread)
        have := ih (by omega) (by omega) h₁ h (by rw [h₁.2.1, slice_length])
        rwa [show n + w + (sizeLeft - w) = n + sizeLeft by omega] at this

theorem readAligned_spec {address ptr sizeAligned : Nat} {ok : Bool}
    (hs : sizeAligned % 4 = 0) (h : readAligned address ptr sizeAligned c = (ok, got, c')) :
    ReadsInto ok got c c' address sizeAligned := by
  unfold readAligned at h
  split at h
  · have hnil : Reads (some []) c c address 0 := ⟨rfl, by simp [slice], rfl⟩
    simpa using readBounceLoop_spec hs (Nat.le_refl _) hnil h
  · rw [flashReadWords, if_neg (by omega)] at h
    split at h
    · rename_i c₁ hread
      obtain ⟨rfl, rfl, rfl⟩ : false = ok ∧ [] = got ∧ c₁ = c' := by simpa using h
      exact reads_of_read hread
    · rename_i bytes c₁ hread
      obtain ⟨rfl, rfl, rfl⟩ : true = ok ∧ bytes = got ∧ c₁ = c' := by simpa using h
      exact reads_of_read hread

/-- **`flashRead` for bytes handles every alignment**: it returns the bytes
at the address it was given, or a driver call failed. -/
theorem flashReadBytes_spec {address ptr size : Nat} {ok : Bool}
    (hsize : size < 4294967296) (h : flashReadBytes address ptr size c = (ok, got, c')) :
    ReadsInto ok got c c' address size := by
  have hal : clearLow 2 size = size / 4 * 4 := clearLow_eq (by omega) rfl hsize
  unfold flashReadBytes at h
  rw [hal] at h
  dsimp only at h
  generalize hfirst : readAligned address ptr (size / 4 * 4) c = first at h
  obtain ⟨ok₁, got₁, c₁⟩ := first
  have h₁ := readAligned_spec (by omega) hfirst
  cases ok₁ with
  | false =>
    obtain ⟨rfl, rfl, rfl⟩ : false = ok ∧ got₁ = got ∧ c₁ = c' := by simpa using h
    exact h₁
  | true =>
    simp only at h
    split at h
    · split at h
      · rename_i c₂ hread
        obtain ⟨rfl, rfl, rfl⟩ : false = ok ∧ got₁ = got ∧ c₂ = c' := by simpa using h
        have := Reads.append h₁ rfl (reads_of_read hread)
        exact ⟨this.1, this.2⟩
      · rename_i temp c₂ hread
        obtain ⟨rfl, rfl, rfl⟩ : true = ok ∧
            got₁ ++ temp.take (size - size / 4 * 4) = got ∧ c₂ = c' := by simpa using h
        have hr := reads_of_read hread
        have htake : Reads (some (temp.take (size - size / 4 * 4))) c₁ c₂
            (address + size / 4 * 4) (size - size / 4 * 4) := by
          refine ⟨hr.1, ?_, hr.2.2⟩
          rw [hr.2.1, slice_take, Nat.min_eq_left (by omega)]
        have := Reads.append h₁ rfl htake
        rwa [show size / 4 * 4 + (size - size / 4 * 4) = size by omega] at this
    · obtain ⟨rfl, rfl, rfl⟩ : true = ok ∧ got₁ = got ∧ c₁ = c' := by simpa using h
      rwa [show size / 4 * 4 = size by omega] at h₁

end Esp
