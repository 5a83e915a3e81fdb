import Mathlib.Data.Nat.Basic
import RalioFirmware.Avrisp.Programmer
import RalioFirmware.Basis.Groups

/-!
# A page at a time

The words of a flash write are grouped by the page of the target that they are in, as the masks of
the programmer tell it for four sizes of a page.  A write to the flash fills the command buffer with
as many bytes as the client says; all else keeps to its buffer.
-/

namespace AVRISP

open List

def Access.Inside : Access → Prop
  | .buff x => x < 256
  | .data size x => x < size

structure Word where
  address : Nat
  low : UInt8
  high : UInt8
deriving DecidableEq, Repr

def loads (w : Word) : List Spi :=
  [⟨0x40, UInt8.ofNat (w.address >>> 8), UInt8.ofNat w.address, w.low⟩,
    ⟨0x48, UInt8.ofNat (w.address >>> 8), UInt8.ofNat w.address, w.high⟩]

def commits (address : Nat) : List Spi :=
  [⟨0x4C, UInt8.ofNat (address >>> 8), UInt8.ofNat address, 0⟩]

/-- The words from `here` on, for the bytes from `x` on. -/
def wordsFrom (bytes : Nat → UInt8) : Nat → Nat → Nat → List Word
  | 0, _, _ => []
  | n + 1, here, x => ⟨here, bytes x, bytes (x + 1)⟩ :: wordsFrom bytes n (here + 1) (x + 2)

namespace ESP8266AVRISP

variable (s : ESP8266AVRISP)

theorem fillFrom_eq (n x : Nat) : s.fillFrom n x =
    { s with
      buff := fun i => if x ≤ i ∧ i < x + n then s.input (i - x) else s.buff i
      input := fun k => s.input (k + n)
      accesses := s.accesses ++ (List.range' x n).map .buff } := by
  induction n generalizing x s with
  | zero =>
    have hbuff : (fun i => if x ≤ i ∧ i < x + 0 then s.input (i - x) else s.buff i) = s.buff := by
      funext i
      exact if_neg (by omega)
    rw [fillFrom, hbuff]
    simp only [range'_zero, map_nil, append_nil, Nat.add_zero]
  | succ n ih =>
    have hbuff : (fun i => if x + 1 ≤ i ∧ i < x + 1 + n then s.input (i - (x + 1) + 1)
        else if i = x then s.input 0 else s.buff i) =
        fun i => if x ≤ i ∧ i < x + (n + 1) then s.input (i - x) else s.buff i := by
      funext i
      by_cases hi : i = x
      · grind
      · by_cases hin : x + 1 ≤ i ∧ i < x + 1 + n
        · grind
        · rw [if_neg hin, if_neg hi, if_neg (by omega)]
    have hinput : (fun k => s.input (k + n + 1)) = fun k => s.input (k + (n + 1)) := rfl
    simp only [fillFrom, getch]
    rw [ih]
    simp only [setBuff, touch, hbuff, hinput, range'_succ, map_cons,
      append_assoc, singleton_append]

variable {rounds x : Nat}

theorem flashWords_succ {length : Nat} (page : Nat) (hx : x < length) :
    s.flashWords length (rounds + 1) x page =
      flashWords length rounds (x + 2) (addr_page s.pagesize s.here)
        { s with
          here := s.here + 1
          spi := s.spi ++ ((if addr_page s.pagesize s.here = page then [] else commits page) ++
            loads ⟨s.here, s.buff x, s.buff (x + 1)⟩)
          accesses := s.accesses ++ [.buff x, .buff (x + 1)] } := by
  by_cases hpage : addr_page s.pagesize s.here = page
  · simp only [flashWords, if_pos hx, hpage, ne_eq, not_true_eq_false, if_false, if_true, touch,
      flash, spi_transaction, loads, nil_append, append_assoc, cons_append]
    rfl
  · have hpage' : page ≠ addr_page s.pagesize s.here := fun h => hpage h.symm
    simp only [flashWords, if_pos hx, hpage, hpage', ne_eq, not_false_eq_true, if_false, if_true,
      touch, flash, commit, commits, spi_transaction, loads, append_assoc, cons_append,
      nil_append]
    rfl

theorem flashWords_commit (length : Nat) (page : Nat)
    (hrounds : length - x ≤ rounds) :
    (s.flashWords length rounds x page).2.commit (s.flashWords length rounds x page).1 =
      { s with
        here := s.here + (length - x + 1) / 2
        spi := s.spi ++ Groups.handle loads commits (fun w => addr_page s.pagesize w.address) page
          (wordsFrom s.buff ((length - x + 1) / 2) s.here x)
        accesses := s.accesses ++ (List.range' x (2 * ((length - x + 1) / 2))).map .buff } := by
  induction rounds generalizing x page s with
  | zero =>
    have hnone : (length - x + 1) / 2 = 0 := by omega
    simp only [flashWords, hnone, wordsFrom, Groups.handle, commit, commits, spi_transaction,
      Nat.mul_zero, range'_zero, map_nil, append_nil, Nat.add_zero]
  | succ rounds ih =>
    by_cases hx : x < length
    · have hwords : (length - x + 1) / 2 = (length - (x + 2) + 1) / 2 + 1 := by omega
      have hranges : range' x (2 * ((length - (x + 2) + 1) / 2 + 1)) =
          x :: (x + 1) :: range' (x + 2) (2 * ((length - (x + 2) + 1) / 2)) := rfl
      rw [flashWords_succ s page hx, ih _ _ (by omega), hwords, hranges]
      simp only [wordsFrom, Groups.handle, map_cons, append_assoc, cons_append,
        nil_append]
      have hhere : s.here + 1 + (length - (x + 2) + 1) / 2 =
          s.here + ((length - (x + 2) + 1) / 2 + 1) := by omega
      rw [hhere]
      by_cases hpage : addr_page s.pagesize s.here = page
      · simp only [hpage, if_true, nil_append]
      · simp only [hpage, if_false]
    · have hnone : (length - x + 1) / 2 = 0 := by omega
      simp only [flashWords, if_neg hx, hnone, wordsFrom, Groups.handle, commit, commits,
        spi_transaction, Nat.mul_zero, range'_zero, map_nil, append_nil,
        Nat.add_zero]

/-! ## Bytes that are touched -/

/-- The programmer when `n` bytes of the input are taken. -/
def skip (n : Nat) : ESP8266AVRISP := { s with input := fun k => s.input (k + n) }

def commandLength : Nat := 256 * (s.input 0).toNat + (s.input 1).toNat

/-- What is touched on the way from `s` to `s'` is inside of its buffer. -/
def Stays (s s' : ESP8266AVRISP) : Prop :=
  ∃ new, s'.accesses = s.accesses ++ new ∧ ∀ a ∈ new, a.Inside

variable {s} {s' s'' : ESP8266AVRISP}

theorem stays_of_eq (h : s'.accesses = s.accesses) : Stays s s' :=
  ⟨[], by rw [h, append_nil], fun _ ha => by cases ha⟩

theorem Stays.trans (h : Stays s s') (h' : Stays s' s'') : Stays s s'' := by
  obtain ⟨new, heq, hnew⟩ := h
  obtain ⟨new', heq', hnew'⟩ := h'
  refine ⟨new ++ new', by rw [heq', heq, append_assoc], fun a ha => ?_⟩
  rcases mem_append.mp ha with ha | ha
  · exact hnew a ha
  · exact hnew' a ha

theorem stays_touch {a : Access} (ha : a.Inside) (heq : s'.accesses = s.accesses ++ [a]) :
    Stays s s' :=
  ⟨[a], heq, fun b hb => by rw [mem_singleton.mp hb]; exact ha⟩

variable {n : Nat}

theorem inside_range' (hn : x + n ≤ 256) :
    ∀ a ∈ (List.range' x n).map Access.buff, a.Inside := by
  intro a ha
  obtain ⟨i, hi, rfl⟩ := mem_map.mp ha
  rw [mem_range'_1] at hi
  have hlt : i < 256 := by omega
  exact hlt

theorem stays_fill (hn : n ≤ 256) : Stays s (s.fill n) :=
  ⟨(range' 0 n).map .buff, by rw [fill, fillFrom_eq], inside_range' (by omega)⟩

theorem stays_eepromBytes (start : Nat) (hn : x + n ≤ 256) :
    Stays s (s.eepromBytes start n x) := by
  induction n generalizing x s with
  | zero => exact stays_of_eq rfl
  | succ n ih =>
    have hx : x < 256 := by omega
    exact (stays_touch (a := .buff x) hx rfl).trans (ih (x := x + 1) (by omega))

theorem stays_chunk (start : Nat) (hn : n ≤ 256) :
    Stays s (s.write_eeprom_chunk start n) :=
  (stays_fill hn).trans (stays_eepromBytes start (by omega))

theorem stays_eepromChunks (start : Nat) {remaining : Nat}
    (hrounds : remaining ≤ rounds + EECHUNK) : Stays s (s.eepromChunks rounds start remaining) := by
  unfold EECHUNK at hrounds
  induction rounds generalizing start remaining s with
  | zero => exact stays_chunk start (by omega)
  | succ rounds ih =>
    unfold eepromChunks EECHUNK
    split
    · exact (stays_chunk start (by decide)).trans (ih _ (by omega))
    · exact stays_chunk start (by omega)

theorem stays_write_eeprom (length : Nat) : Stays s (s.write_eeprom length).2 := by
  unfold write_eeprom
  split
  · exact stays_of_eq rfl
  · exact stays_eepromChunks _ (by unfold EECHUNK; omega)

theorem stays_readWords (length : Nat) (data : Nat → UInt8) :
    Stays s (s.readWords length rounds x data).2 := by
  induction rounds generalizing x data s with
  | zero => exact stays_of_eq rfl
  | succ rounds ih =>
    unfold readWords
    split
    · have hlow : x < length + 1 := by omega
      have hhigh : x + 1 < length + 1 := by omega
      exact (stays_touch (a := .data (length + 1) x) hlow rfl).trans
        ((stays_touch (a := .data (length + 1) (x + 1)) hhigh rfl).trans (ih _))
    · exact stays_of_eq rfl

theorem stays_readBytes (length start : Nat) (data : Nat → UInt8)
    (hn : x + n ≤ length) : Stays s (s.readBytes length start n x data).2 := by
  induction n generalizing x data s with
  | zero => exact stays_of_eq rfl
  | succ n ih =>
    have hx : x < length + 1 := by omega
    exact (stays_touch (a := .data (length + 1) x) hx rfl).trans (ih _ (by omega))

theorem stays_finish (length : Nat) (data : Nat → UInt8) :
    Stays s ((s.setData (length + 1) length Resp_STK_OK data).2.writeData (length + 1)
      (s.setData (length + 1) length Resp_STK_OK data).1) := by
  have hlast : length < length + 1 := by omega
  refine (stays_touch (a := .data (length + 1) length) hlast rfl).trans
    ⟨(range (length + 1)).map (.data (length + 1)), rfl, fun a ha => ?_⟩
  obtain ⟨i, hi, rfl⟩ := mem_map.mp ha
  exact mem_range.mp hi

theorem stays_flash_read_page (length : Nat) : Stays s (s.flash_read_page length).2 := by
  unfold flash_read_page
  cases s.malloc (length + 1) with
  | none => exact stays_of_eq rfl
  | some data => exact (stays_readWords length data).trans (stays_finish length _)

theorem stays_eeprom_read_page (length : Nat) : Stays s (s.eeprom_read_page length).2 := by
  unfold eeprom_read_page
  cases s.malloc (length + 1) with
  | none => exact stays_of_eq rfl
  | some data =>
    exact (stays_readBytes length (s.here * 2) data (by omega)).trans (stays_finish length _)

/-- **A page that is read** keeps to its buffer. -/
theorem stays_read_page : Stays s s.read_page := by
  simp only [read_page, getch, Nat.zero_add, Nat.reduceAdd]
  by_cases hsync : s.input 3 ≠ Sync_CRC_EOP
  · rw [if_pos hsync]
    exact stays_of_eq rfl
  rw [if_neg hsync]
  by_cases hflash : s.input 2 = 0x46
  · rw [if_pos hflash]
    exact (stays_of_eq rfl).trans (stays_flash_read_page _)
  rw [if_neg hflash]
  by_cases heeprom : s.input 2 = 0x45
  · rw [if_pos heeprom]
    exact (stays_of_eq rfl).trans (stays_eeprom_read_page _)
  · rw [if_neg heeprom]
    exact stays_of_eq rfl

theorem stays_program_page (hmem : s.input 2 ≠ 0x46) : Stays s s.program_page := by
  simp only [program_page, getch, Nat.zero_add, Nat.reduceAdd]
  rw [if_neg hmem]
  by_cases heeprom : s.input 2 = 0x45
  · have hskip : Stays s (s.skip 3) := stays_of_eq rfl
    rw [if_pos heeprom]
    refine (hskip.trans (stays_write_eeprom s.commandLength)).trans (stays_of_eq ?_)
    split <;> rfl
  · rw [if_neg heeprom]
    exact stays_of_eq rfl

/-! ## A flash write -/

def pageBytes (s : ESP8266AVRISP) (i : Nat) : UInt8 :=
  if i < s.commandLength then s.input (i + 3) else s.buff i

/-- The words that a command writes, with addresses of any size. -/
def rawWords (s : ESP8266AVRISP) : List Word :=
  wordsFrom s.pageBytes ((s.commandLength + 1) / 2) s.here 0

structure Writes (s : ESP8266AVRISP) : Prop where
  memtype : s.input 2 = 0x46
  sync : s.input (s.commandLength + 3) = Sync_CRC_EOP

theorem program_page_flash (hmem : s.input 2 = 0x46) :
    s.program_page = (s.skip 3).write_flash s.commandLength := by
  simp only [program_page, getch, Nat.zero_add, Nat.reduceAdd]
  rw [if_pos hmem]
  rfl

/-- The programmer when the bytes of a page and the one behind them are taken. -/
def filled (s : ESP8266AVRISP) : ESP8266AVRISP := ((s.skip 3).fill s.commandLength).getch.2

theorem filled_eq : s.filled =
    { s with
      buff := s.pageBytes
      input := fun k => s.input (k + s.commandLength + 4)
      accesses := s.accesses ++ (List.range' 0 s.commandLength).map .buff } := by
  have hbytes : (fun i => if 0 ≤ i ∧ i < 0 + s.commandLength then s.input (i - 0 + 3)
      else s.buff i) = s.pageBytes := by
    funext i
    simp only [pageBytes, Nat.zero_le, true_and, Nat.zero_add, Nat.sub_zero]
  have hinput : (fun k => s.input (k + 1 + s.commandLength + 3)) =
      fun k => s.input (k + s.commandLength + 4) := by
    funext k
    congr 1
    omega
  rw [filled, fill, fillFrom_eq]
  simp only [getch, skip, hbytes, hinput]

theorem sync_input : ((s.skip 3).fill s.commandLength).input 0 = s.input (s.commandLength + 3) := by
  rw [fill, fillFrom_eq]
  simp only [skip, Nat.zero_add]

theorem accesses_aborted (hmem : s.input 2 = 0x46)
    (hsync : s.input (s.commandLength + 3) ≠ Sync_CRC_EOP) :
    s.program_page.accesses = s.accesses ++ (List.range' 0 s.commandLength).map .buff := by
  have hwrite : (s.skip 3).write_flash s.commandLength =
      { s.filled with error := s.filled.error + 1 }.print Resp_STK_NOSYNC :=
    if_neg (by rw [sync_input]; exact hsync)
  rw [program_page_flash hmem, hwrite, filled_eq]
  rfl

theorem program_page_writes (h : s.Writes) :
    s.program_page.spi = s.spi ++
        Groups.handle loads commits (fun w => addr_page s.pagesize w.address)
          (addr_page s.pagesize s.here) s.rawWords ∧
      s.program_page.here = s.here + (s.commandLength + 1) / 2 ∧
      s.program_page.accesses = s.accesses ++ (List.range' 0 s.commandLength).map .buff ++
        (List.range' 0 (2 * ((s.commandLength + 1) / 2))).map .buff := by
  have hwrite : (s.skip 3).write_flash s.commandLength =
      ((s.filled.print Resp_STK_INSYNC).write_flash_pages s.commandLength).2.print
        ((s.filled.print Resp_STK_INSYNC).write_flash_pages s.commandLength).1 :=
    if_pos (by rw [sync_input]; exact h.sync)
  have hpages : ((s.filled.print Resp_STK_INSYNC).write_flash_pages s.commandLength).2 = _ :=
    flashWords_commit (s.filled.print Resp_STK_INSYNC) s.commandLength
      (addr_page s.filled.pagesize s.filled.here) (Nat.le_refl (s.commandLength - 0))
  rw [program_page_flash h.memtype, hwrite, hpages, filled_eq]
  exact ⟨rfl, rfl, rfl⟩

end ESP8266AVRISP

/-! ## Pages of the target -/

/-- The page that has a word, of a target with pages of so many bytes; of one without pages, the
word itself. -/
def targetPage (pagesize address : Nat) : Nat :=
  if pagesize = 0 then address else 2 * address / pagesize

def Word.wrap (w : Word) : Word := { w with address := w.address % 65536 }

/-- **A page at a time**: the words are loaded in order, group by group, each group is committed
once all of it is loaded, and no two groups are in the same page. -/
def PageWise (pagesize : Nat) (words : List Word) (spi : List Spi) : Prop :=
  ∃ groups : List (Nat × List Word), groups.flatMap Prod.snd = words ∧
    spi = groups.flatMap (fun g => g.2.flatMap loads ++ commits g.1) ∧
    (∀ g ∈ groups, g.1 < 65536 ∧
      ∀ w ∈ g.2, targetPage pagesize w.address = targetPage pagesize g.1) ∧
    (groups.map fun g => targetPage pagesize g.1).Nodup

theorem ofNat_wrap (address : Nat) :
    UInt8.ofNat (address % 65536) = UInt8.ofNat address ∧
      UInt8.ofNat ((address % 65536) >>> 8) = UInt8.ofNat (address >>> 8) := by
  constructor
  · apply UInt8.toNat_inj.mp
    simp only [UInt8.toNat_ofNat']
    omega
  · apply UInt8.toNat_inj.mp
    simp only [UInt8.toNat_ofNat', Nat.shiftRight_eq_div_pow]
    omega

theorem loads_wrap (w : Word) : loads w.wrap = loads w := by
  simp only [loads, Word.wrap, ofNat_wrap w.address]

theorem commits_wrap (address : Nat) : commits (address % 65536) = commits address := by
  simp only [commits, ofNat_wrap address]

def committed (t : Spi) : Option Nat :=
  if t.a = 0x4C then some (t.b.toNat * 256 + t.c.toNat) else none

theorem committed_loads (words : List Word) : (words.flatMap loads).filterMap committed = [] := by
  induction words with
  | nil => rfl
  | cons w words ih =>
    rw [flatMap_cons, filterMap_append, ih]
    rfl

theorem committed_commits (address : Nat) :
    (commits address).filterMap committed = [address % 65536] := by
  have hvalue : (UInt8.ofNat (address >>> 8)).toNat * 256 + (UInt8.ofNat address).toNat =
      address % 65536 := by
    simp only [UInt8.toNat_ofNat', Nat.shiftRight_eq_div_pow]
    omega
  simp only [commits, committed, filterMap_cons, if_true, hvalue, filterMap_nil]

theorem committed_groups (groups : List (Nat × List Word)) :
    (groups.flatMap fun g => g.2.flatMap loads ++ commits g.1).filterMap committed =
      groups.map fun g => g.1 % 65536 := by
  induction groups with
  | nil => rfl
  | cons g groups ih =>
    rw [flatMap_cons, filterMap_append, filterMap_append, ih, committed_loads,
      committed_commits]
    rfl

theorem wordsFrom_eq (bytes : Nat → UInt8) (n here x : Nat) : wordsFrom bytes n here x =
    (List.range n).map fun i => ⟨here + i, bytes (x + 2 * i), bytes (x + 2 * i + 1)⟩ := by
  induction n generalizing here x with
  | zero => rfl
  | succ n ih =>
    rw [wordsFrom, ih, range_succ_eq_map, map_cons, map_map]
    congr 1
    refine map_congr_left fun i _ => ?_
    have hhere : here + 1 + i = here + (i + 1) := by omega
    have hx : x + 2 + 2 * i = x + 2 * (i + 1) := by omega
    rw [hhere, hx]
    rfl

open ESP8266AVRISP (addr_page)

def maskedSizes : List Nat := [32, 64, 128, 256]

theorem addr_page_of_unmasked {pagesize : Nat} (h : pagesize ∉ maskedSizes) (address : Nat) :
    addr_page pagesize address = address := by
  simp only [maskedSizes, mem_cons, not_mem_nil, or_false, not_or] at h
  simp only [addr_page, h, if_false]

section Masked

variable {pagesize : Nat} (h : pagesize ∈ maskedSizes)
include h

theorem masked_cases : pagesize = 32 ∨ pagesize = 64 ∨ pagesize = 128 ∨ pagesize = 256 := by
  simpa only [maskedSizes, mem_cons, not_mem_nil, or_false] using h

theorem targetPage_masked (address : Nat) : targetPage pagesize address =
    2 * address / pagesize := by
  rcases masked_cases h with rfl | rfl | rfl | rfl <;> rfl

theorem addr_page_masked (address : Nat) :
    addr_page pagesize address = address - address % (pagesize / 2) := by
  rcases masked_cases h with rfl | rfl | rfl | rfl <;> rfl

theorem targetPage_addr_page_masked (address : Nat) :
    targetPage pagesize (addr_page pagesize address % 65536) =
      targetPage pagesize (address % 65536) := by
  rw [targetPage_masked h, targetPage_masked h, addr_page_masked h]
  rcases masked_cases h with rfl | rfl | rfl | rfl <;> omega

theorem addr_page_mono {a b : Nat} (hab : a ≤ b) : addr_page pagesize a ≤ addr_page pagesize b := by
  rw [addr_page_masked h, addr_page_masked h]
  rcases masked_cases h with rfl | rfl | rfl | rfl <;> omega

theorem targetPage_ne {a b : Nat} (hlt : addr_page pagesize a < addr_page pagesize b)
    (hnear : b ≤ a + 256) : targetPage pagesize (addr_page pagesize a % 65536) ≠
      targetPage pagesize (addr_page pagesize b % 65536) := by
  rw [addr_page_masked h, addr_page_masked h] at hlt
  rw [targetPage_masked h, targetPage_masked h, addr_page_masked h, addr_page_masked h]
  rcases masked_cases h with rfl | rfl | rfl | rfl <;> omega

end Masked

theorem targetPage_addr_page (pagesize address : Nat) :
    targetPage pagesize (addr_page pagesize address % 65536) =
      targetPage pagesize (address % 65536) := by
  by_cases h : pagesize ∈ maskedSizes
  · exact targetPage_addr_page_masked h address
  · rw [addr_page_of_unmasked h]

/-! ## The groups of a write -/

variable {w : Word}

section Write

variable (pagesize here : Nat) (raw : List Word)

def pageOf (w : Word) : Nat := addr_page pagesize w.address

def pageGroups : List (Nat × List Word) :=
  Groups.groups (pageOf pagesize) (addr_page pagesize here) [] raw

theorem pageWise_iff : PageWise pagesize (raw.map Word.wrap)
    (Groups.handle loads commits (pageOf pagesize) (addr_page pagesize here) raw) ↔
      ((pageGroups pagesize here raw).map fun g => targetPage pagesize (g.1 % 65536)).Nodup := by
  have hspi : (pageGroups pagesize here raw).flatMap
      (fun g => g.2.flatMap loads ++ commits g.1) = [].flatMap loads ++
        Groups.handle loads commits (pageOf pagesize) (addr_page pagesize here) raw :=
    Groups.flatMap_groups loads commits
  rw [flatMap_nil, nil_append] at hspi
  constructor
  · rintro ⟨groups, -, heq, hin, hnodup⟩
    have hsame : groups.map (fun g => g.1 % 65536) =
        (pageGroups pagesize here raw).map fun g => g.1 % 65536 := by
      rw [← committed_groups, ← committed_groups, ← heq, hspi]
    have hpages : (groups.map fun g => targetPage pagesize g.1) =
        (groups.map fun g => g.1 % 65536).map (targetPage pagesize) := by
      rw [map_map]
      refine map_congr_left fun g hg => ?_
      have hlt := (hin g hg).1
      rw [Function.comp_apply, Nat.mod_eq_of_lt hlt]
    rw [hpages, hsame, map_map] at hnodup
    exact hnodup
  · intro hnodup
    refine ⟨(pageGroups pagesize here raw).map fun g => (g.1 % 65536, g.2.map Word.wrap),
      ?_, ?_, ?_, ?_⟩
    · have hitems : (pageGroups pagesize here raw).flatMap Prod.snd = [] ++ raw :=
        Groups.flatMap_snd_groups
      rw [nil_append] at hitems
      have hwrap : ((pageGroups pagesize here raw).flatMap fun g => g.2.map Word.wrap) =
          raw.map Word.wrap := by rw [← map_flatMap, hitems]
      rw [flatMap_map]
      exact hwrap
    · rw [← hspi, flatMap_map]
      refine flatMap_congr fun g _ => ?_
      simp only [commits_wrap, flatMap_map, loads_wrap]
    · intro g' hg'
      obtain ⟨g, hg, rfl⟩ := mem_map.mp hg'
      refine ⟨Nat.mod_lt _ (by decide), fun w' hw' => ?_⟩
      obtain ⟨w, hw, rfl⟩ := mem_map.mp hw'
      have hkey : pageOf pagesize w = g.1 :=
        Groups.key_of_mem_groups (fun _ ha => by cases ha) hg hw
      simp only [Word.wrap, ← hkey, pageOf, targetPage_addr_page]
    · rw [map_map]
      exact hnodup

variable {pagesize here raw}

theorem nodup_masked (h : pagesize ∈ maskedSizes)
    (haddress : ∀ w ∈ raw, here ≤ w.address ∧ w.address ≤ here + 128)
    (horder : raw.Pairwise fun v w => v.address ≤ w.address) :
    ((pageGroups pagesize here raw).map fun g => targetPage pagesize (g.1 % 65536)).Nodup := by
  have hsorted : raw.Pairwise fun v w => pageOf pagesize v ≤ pageOf pagesize w :=
    horder.imp fun hle => addr_page_mono h hle
  have hkeys : ((pageGroups pagesize here raw).map Prod.fst).Pairwise (· < ·) := by
    unfold pageGroups
    exact Groups.pairwise_keys (fun w hw => addr_page_mono h (haddress w hw).1) hsorted
  have hnear : ∀ k ∈ (pageGroups pagesize here raw).map Prod.fst,
      ∃ a, here ≤ a ∧ a ≤ here + 128 ∧ k = addr_page pagesize a := by
    intro k hk
    rcases Groups.mem_keys hk with rfl | ⟨w, hw, rfl⟩
    · exact ⟨here, Nat.le_refl here, by omega, rfl⟩
    · exact ⟨w.address, (haddress w hw).1, (haddress w hw).2, rfl⟩
  have hmap : ((pageGroups pagesize here raw).map fun g => targetPage pagesize (g.1 % 65536)) =
      ((pageGroups pagesize here raw).map Prod.fst).map fun k => targetPage pagesize
          (k % 65536) := by
    rw [map_map]
    rfl
  rw [hmap, List.Nodup, pairwise_map]
  refine hkeys.imp_of_mem fun hk hk' hlt => ?_
  obtain ⟨a, ha, _, rfl⟩ := hnear _ hk
  obtain ⟨b, _, hb, rfl⟩ := hnear _ hk'
  exact targetPage_ne h hlt (by omega)

theorem groups_unmasked (h : pagesize ∉ maskedSizes) {rest : List Word}
    (hfirst : w.address = here) (hown : (w :: rest).Pairwise fun v w => v.address ≠ w.address) :
    (pageGroups pagesize here (w :: rest)).map (fun g => targetPage pagesize (g.1 % 65536)) =
      ((w :: rest).map Word.wrap).map fun w => targetPage pagesize w.address := by
  obtain ⟨hne, hown⟩ := pairwise_cons.mp hown
  have hpage : ∀ v : Word, pageOf pagesize v = v.address := fun v => addr_page_of_unmasked h _
  have hkeys : (pageGroups pagesize here (w :: rest)).map Prod.fst =
      addr_page pagesize here :: rest.map (pageOf pagesize) := by
    rw [pageGroups, Groups.groups, if_pos (by rw [pageOf, hfirst])]
    refine Groups.keys_of_injective (fun v hv => ?_) (hown.imp fun hvw => ?_)
    · rw [hpage, addr_page_of_unmasked h, ← hfirst]
      exact Ne.symm (hne v hv)
    · rw [hpage, hpage]
      exact hvw
  have hmap : (pageGroups pagesize here (w :: rest)).map
      (fun g => targetPage pagesize (g.1 % 65536)) =
      ((pageGroups pagesize here (w :: rest)).map Prod.fst).map fun k =>
        targetPage pagesize (k % 65536) := by
    rw [map_map]
    rfl
  rw [hmap, hkeys, addr_page_of_unmasked h, ← hfirst, map_map]
  simp only [map_cons, map_map]
  congr 1
  exact map_congr_left fun v _ => by simp only [Function.comp_apply, hpage, Word.wrap]

end Write

/-! ## What is promised -/

namespace ESP8266AVRISP

variable (s : ESP8266AVRISP)

/-- The words that a command writes: pairs of bytes in order, at addresses that the target gets in
16 bits; with an odd length, the last byte and what the buffer has behind it. -/
def words : List Word :=
  (List.range ((s.commandLength + 1) / 2)).map fun i =>
    ⟨(s.here + i) % 65536, s.pageBytes (2 * i), s.pageBytes (2 * i + 1)⟩

/-- All that a command to program or to read a page touches is inside of its buffer, and a flash
write writes its words a page at a time and advances the address behind them. -/
structure PageCommands : Prop where
  programs : ∀ a ∈ s.program_page.accesses.drop s.accesses.length, a.Inside
  reads : ∀ a ∈ s.read_page.accesses.drop s.accesses.length, a.Inside
  writes : s.Writes → PageWise s.pagesize s.words (s.program_page.spi.drop s.spi.length) ∧
    s.program_page.here = s.here + s.words.length

def Apart : Prop := (s.words.map fun w => targetPage s.pagesize w.address).Nodup

theorem words_eq : s.words = s.rawWords.map Word.wrap := by
  rw [words, rawWords, wordsFrom_eq, map_map]
  refine map_congr_left fun i _ => ?_
  simp only [Function.comp_apply, Word.wrap, Nat.zero_add]

theorem rawWords_eq : s.rawWords = (List.range ((s.commandLength + 1) / 2)).map fun i =>
    ⟨s.here + i, s.pageBytes (2 * i), s.pageBytes (2 * i + 1)⟩ := by
  rw [rawWords, wordsFrom_eq]
  simp only [Nat.zero_add]

theorem rawWords_pairwise : s.rawWords.Pairwise fun v w => v.address < w.address := by
  rw [rawWords_eq, pairwise_map]
  exact pairwise_lt_range.imp fun hlt => Nat.add_lt_add_left hlt s.here

variable {s}

theorem rawWords_address (hlength : s.commandLength ≤ 256) (hw : w ∈ s.rawWords) :
    s.here ≤ w.address ∧ w.address ≤ s.here + 128 := by
  rw [rawWords_eq] at hw
  obtain ⟨i, hi, rfl⟩ := mem_map.mp hw
  rw [mem_range] at hi
  dsimp only
  omega

/-- **A flash write is a page at a time** for the sizes that have a mask, and else if every word is
in a page of its own. -/
theorem pageWise_words (hlength : s.commandLength ≤ 256) :
    PageWise s.pagesize s.words (Groups.handle loads commits (pageOf s.pagesize)
      (addr_page s.pagesize s.here) s.rawWords) ↔ s.pagesize ∈ maskedSizes ∨ s.Apart := by
  rw [words_eq, pageWise_iff]
  by_cases h : s.pagesize ∈ maskedSizes
  · refine iff_of_true (nodup_masked h (fun w hw => rawWords_address hlength hw) ?_) (Or.inl h)
    exact s.rawWords_pairwise.imp Nat.le_of_lt
  · rw [Apart, words_eq, or_iff_right h]
    cases hraw : s.rawWords with
    | nil => exact iff_of_true (nodup_singleton _) nodup_nil
    | cons w rest =>
      have hfirst : w.address = s.here := by
        rw [rawWords] at hraw
        cases hcount : (s.commandLength + 1) / 2 with
        | zero =>
          rw [hcount, wordsFrom] at hraw
          cases hraw
        | succ n =>
          rw [hcount, wordsFrom] at hraw
          rw [← (cons.inj hraw).1]
      have hown : (w :: rest).Pairwise fun v w => v.address ≠ w.address := by
        rw [← hraw]
        exact s.rawWords_pairwise.imp Nat.ne_of_lt
      rw [groups_unmasked h hfirst hown]

theorem Stays.inside {s' : ESP8266AVRISP} (h : Stays s s') :
    ∀ a ∈ s'.accesses.drop s.accesses.length, a.Inside := by
  obtain ⟨new, heq, hnew⟩ := h
  rw [heq, drop_left]
  exact hnew

theorem not_inside_of_overflow (hlength : 256 < s.commandLength) (more : List Access)
    (h : s.program_page.accesses =
      s.accesses ++ (List.range' 0 s.commandLength).map .buff ++ more) :
    ¬ ∀ a ∈ s.program_page.accesses.drop s.accesses.length, a.Inside := by
  intro hinside
  rw [h, append_assoc, drop_left] at hinside
  have hlast := hinside (.buff 256)
    (mem_append_left _ (mem_map.mpr ⟨256, mem_range'_1.mpr (by omega), rfl⟩))
  exact Nat.lt_irrefl 256 hlast

/-- **Which page commands are right**: all that do not write to the flash, and the flash writes of
256 bytes at most, for a target whose page size has a mask or with every word in a page of its
own. -/
theorem page_commands_iff (s : ESP8266AVRISP) : s.PageCommands ↔ (s.input 2 = 0x46 →
    s.commandLength ≤ 256 ∧ (s.input (s.commandLength + 3) = Sync_CRC_EOP →
      s.pagesize ∈ maskedSizes ∨ s.Apart)) := by
  by_cases hmem : s.input 2 = 0x46
  · by_cases hsync : s.input (s.commandLength + 3) = Sync_CRC_EOP
    · have hwrites : s.Writes := ⟨hmem, hsync⟩
      obtain ⟨hspi, hhere, haccesses⟩ := program_page_writes hwrites
      by_cases hlength : s.commandLength ≤ 256
      · have hpages := pageWise_words hlength
        constructor
        · intro h _
          have hpage := (h.writes hwrites).1
          rw [hspi, drop_left] at hpage
          exact ⟨hlength, fun _ => hpages.mp hpage⟩
        · intro h
          refine ⟨?_, stays_read_page.inside, fun _ => ⟨?_, ?_⟩⟩
          · rw [haccesses, append_assoc, drop_left]
            intro a ha
            rcases mem_append.mp ha with ha | ha
            · exact inside_range' (by omega) a ha
            · exact inside_range' (by omega) a ha
          · rw [hspi, drop_left]
            exact hpages.mpr ((h hmem).2 hsync)
          · rw [hhere, words, length_map, length_range]
      · refine iff_of_false (fun h => ?_) (fun h => hlength (h hmem).1)
        exact not_inside_of_overflow (Nat.lt_of_not_le hlength) _ haccesses h.programs
    · have haccesses := accesses_aborted hmem hsync
      by_cases hlength : s.commandLength ≤ 256
      · refine iff_of_true ⟨?_, stays_read_page.inside, fun h => absurd h.sync hsync⟩
          (fun _ => ⟨hlength, fun h => absurd h hsync⟩)
        rw [haccesses, drop_left]
        exact inside_range' (by omega)
      · refine iff_of_false (fun h => ?_) (fun h => hlength (h hmem).1)
        refine not_inside_of_overflow (Nat.lt_of_not_le hlength) [] ?_ h.programs
        rw [haccesses, append_nil]
  · exact iff_of_true ⟨(stays_program_page hmem).inside, stays_read_page.inside,
      fun h => absurd h.memtype hmem⟩ (fun h => absurd h hmem)

def longPage : ESP8266AVRISP where
  pagesize := 128
  eepromsize := 512
  buff _ := 0
  error := 0
  here := 0
  input k := if k < 2 then 1 else if k = 2 then 0x46 else 0
  target _ := 0
  malloc _ := none
  spi := []
  accesses := []
  sent := []

/-- **A page of 257 bytes** is written behind the buffer. -/
theorem not_page_commands : ¬ ∀ s : ESP8266AVRISP, s.PageCommands := by
  intro hclaim
  have haccesses := accesses_aborted (s := longPage) rfl (by decide)
  refine not_inside_of_overflow (s := longPage) (by decide) [] ?_ (hclaim longPage).programs
  rw [haccesses, append_nil]

end ESP8266AVRISP

end AVRISP
