import Mathlib.Data.List.Range
import RalioFirmware.Basis.Word

/-!
# `SPIEraseAreaEx`

The function that erases an area of the flash, sector by sector up to the
first block boundary, block by block from there, and sector by sector again
for what is left.  The boot loader and the core carry a copy each, with the
same body behind two different checks of the start address.

An erase call of the ROM may fail at any time; which calls do is a function
of the calls made so far.
-/

open Word

namespace EraseArea

def FLASH_SECTOR_SIZE : Nat := 0x1000
def FLASH_BLOCK_SIZE : Nat := 0x10000
def sectorsPerBlock : Nat := FLASH_BLOCK_SIZE / FLASH_SECTOR_SIZE

inductive EraseCall
  | SPIEraseSector (sector : Nat)
  | SPIEraseBlock (block : Nat)
deriving DecidableEq

def EraseCall.sectors : EraseCall → List Nat
  | .SPIEraseSector sector => [sector]
  | .SPIEraseBlock block => List.range' (block * sectorsPerBlock) sectorsPerBlock

abbrev Calls := List EraseCall

def Calls.sectors (calls : Calls) : List Nat := calls.flatMap EraseCall.sectors

variable (fails : Calls → Bool)

/-- A loop of the function: while `going`, call for the current sector and
step on; the error `err` when the call fails, else the sector reached. -/
def eraseLoop (call : Nat → EraseCall) (step err : Nat) (going : Nat → Bool) :
    Nat → Nat → Calls → Except Nat Nat × Calls
  | 0, current_sector, calls => (.ok current_sector, calls)
  | rounds+1, current_sector, calls =>
    if going current_sector then
      let calls := calls ++ [call current_sector]
      if fails calls then (.error err, calls)
      else eraseLoop call step err going rounds (current_sector + step) calls
    else (.ok current_sector, calls)

def eraseHead (stop current_sector : Nat) (calls : Calls) : Except Nat Nat × Calls :=
  eraseLoop fails .SPIEraseSector 1 2
    (fun c => c < stop && c &&& (sectorsPerBlock - 1) != 0) (stop - current_sector)
    current_sector calls

def eraseBlocks (stop current_sector : Nat) (calls : Calls) : Except Nat Nat × Calls :=
  eraseLoop fails (fun c => .SPIEraseBlock (c / sectorsPerBlock)) sectorsPerBlock 3
    (fun c => c + sectorsPerBlock ≤ stop) (stop - current_sector) current_sector calls

def eraseTail (stop current_sector : Nat) (calls : Calls) : Except Nat Nat × Calls :=
  eraseLoop fails .SPIEraseSector 1 4 (fun c => c < stop) (stop - current_sector)
    current_sector calls

/-- `SPIEraseAreaEx` behind its check.  `sector_count` is only counted down
in the loops. -/
def body (start size : Nat) : Nat × Calls :=
  let current_sector := start / FLASH_SECTOR_SIZE
  let sector_count := u32 (size + FLASH_SECTOR_SIZE - 1) / FLASH_SECTOR_SIZE
  let stop := current_sector + sector_count
  match eraseHead fails stop current_sector [] with
  | (.error res, calls) => (res, calls)
  | (.ok current_sector, calls) =>
    match eraseBlocks fails stop current_sector calls with
    | (.error res, calls) => (res, calls)
    | (.ok current_sector, calls) =>
      match eraseTail fails stop current_sector calls with
      | (.error res, calls) => (res, calls)
      | (.ok _, calls) => (0, calls)

end EraseArea

open EraseArea

/-- `SPIEraseAreaEx` of the boot loader, whose condition is read as
`start & ((FLASH_SECTOR_SIZE - 1) != 0)`. -/
def Eboot.SPIEraseAreaEx (fails : Calls → Bool) (start size : Nat) : Nat × Calls :=
  if start &&& (FLASH_SECTOR_SIZE - 1 != 0).toNat ≠ 0 then (1, []) else body fails start size

/-- `SPIEraseAreaEx` of the core. -/
def Esp.SPIEraseAreaEx (fails : Calls → Bool) (start size : Nat) : Nat × Calls :=
  if start &&& (FLASH_SECTOR_SIZE - 1) ≠ 0 then (1, []) else body fails start size

namespace EraseArea

/-! ## What a loop erases -/

/-- The calls erase the sectors from `first` to `c`, each once and in
order. -/
structure Reached (first c : Nat) (calls : Calls) : Prop where
  le : first ≤ c
  sectors : calls.sectors = List.range' first (c - first)

/-- What the function has done with an area that ends before sector `stop`:
everything, or everything up to a call that failed. -/
def Erased (fails : Calls → Bool) (first stop : Nat) (res : Nat) (calls : Calls) : Prop :=
  (res = 0 → Reached first stop calls) ∧
    (res ≠ 0 → fails calls = true ∧ calls ≠ [] ∧ ∃ c ≤ stop, Reached first c calls)

variable {fails : Calls → Bool}

theorem Reached.start (first : Nat) : Reached first first [] :=
  ⟨Nat.le_refl _, by simp [Calls.sectors]⟩

theorem Reached.call {first c step : Nat} {calls : Calls} {call : EraseCall}
    (h : Reached first c calls) (hcall : call.sectors = List.range' c step) :
    Reached first (c + step) (calls ++ [call]) := by
  obtain ⟨hle, hsec⟩ := h
  refine ⟨by omega, ?_⟩
  have hone : Calls.sectors [call] = List.range' c step := by simp [Calls.sectors, hcall]
  have happ : Calls.sectors (calls ++ [call]) = calls.sectors ++ Calls.sectors [call] := by
    simp [Calls.sectors]
  rw [happ, hsec, hone, show c + step - first = (c - first) + step by omega,
    ← List.range'_append_1, show first + (c - first) = c by omega]

/-- What a loop has done: it stopped at a sector that `P` says something
about, with everything before it erased, or a call failed. -/
def Looped (fails : Calls → Bool) (first stop err : Nat) (going : Nat → Bool) (P : Nat → Prop) :
    Except Nat Nat → Calls → Prop
  | .ok c, calls => P c ∧ c ≤ stop ∧ Reached first c calls ∧ (going c = false ∨ c = stop)
  | .error res, calls => res = err ∧ fails calls = true ∧ calls ≠ [] ∧
      ∃ c ≤ stop, Reached first c calls

theorem eraseLoop_spec {call : Nat → EraseCall} {step err : Nat} {going : Nat → Bool}
    {first stop : Nat} {P : Nat → Prop}
    (hcall : ∀ c, P c → going c = true → (call c).sectors = List.range' c step)
    (hstep : ∀ c, P c → going c = true → P (c + step) ∧ c + step ≤ stop) (hpos : 0 < step)
    {rounds c : Nat} {calls : Calls} (hr : stop ≤ c + rounds) (hP : P c) (hc : c ≤ stop)
    (h : Reached first c calls) :
    Looped fails first stop err going P (eraseLoop fails call step err going rounds c calls).1
      (eraseLoop fails call step err going rounds c calls).2 := by
  induction rounds generalizing c calls with
  | zero => exact ⟨hP, hc, h, .inr (by omega)⟩
  | succ rounds ih =>
    unfold eraseLoop
    cases hgo : going c with
    | false => exact ⟨hP, hc, h, .inl hgo⟩
    | true =>
      obtain ⟨hP', hc'⟩ := hstep c hP hgo
      have h' := h.call (hcall c hP hgo)
      rw [if_pos rfl]
      dsimp only
      cases hf : fails (calls ++ [call c]) with
      | true => exact ⟨rfl, hf, by simp, c + step, hc', h'⟩
      | false => exact ih (by omega) hP' hc' h'

theorem land_15 (n : Nat) : n &&& 15 = n % 16 := Nat.and_two_pow_sub_one_eq_mod n 4

theorem eraseHead_spec {first stop : Nat} (h : first ≤ stop) :
    Looped fails first stop 2 (fun c => c < stop && c &&& 15 != 0) (fun _ => True)
      (eraseHead fails stop first []).1 (eraseHead fails stop first []).2 := by
  refine eraseLoop_spec (fun _ _ _ => rfl) (fun c _ hgo => ⟨trivial, ?_⟩) Nat.one_pos (by omega)
    trivial h (Reached.start first)
  simp only [Bool.and_eq_true, decide_eq_true_eq] at hgo
  exact hgo.1

theorem eraseBlocks_spec {first stop c : Nat} {calls : Calls} (hc : c ≤ stop)
    (hboundary : c % 16 = 0 ∨ c = stop) (h : Reached first c calls) :
    Looped fails first stop 3 (fun c => c + 16 ≤ stop) (fun c => c % 16 = 0 ∨ c = stop)
      (eraseBlocks fails stop c calls).1 (eraseBlocks fails stop c calls).2 := by
  refine eraseLoop_spec (fun c hP hgo => ?_) (fun c hP hgo => ?_) (by decide) (by omega) hboundary
    hc h
  · have hgo : c + 16 ≤ stop := of_decide_eq_true hgo
    show List.range' (c / 16 * 16) 16 = List.range' c 16
    rw [show c / 16 * 16 = c by omega]
  · have hgo : c + 16 ≤ stop := of_decide_eq_true hgo
    show ((c + 16) % 16 = 0 ∨ c + 16 = stop) ∧ c + 16 ≤ stop
    omega

theorem eraseTail_spec {first stop c : Nat} {calls : Calls} (hc : c ≤ stop)
    (h : Reached first c calls) :
    Looped fails first stop 4 (fun c => c < stop) (fun _ => True)
      (eraseTail fails stop c calls).1 (eraseTail fails stop c calls).2 :=
  eraseLoop_spec (fun _ _ _ => rfl) (fun _ _ hgo => ⟨trivial, of_decide_eq_true hgo⟩) Nat.one_pos
    (by omega) trivial hc h

/-- **The body erases the area**, whatever its size and wherever the block
boundaries lie in it. -/
theorem body_spec (fails : Calls → Bool) (start size : Nat) :
    Erased fails (start / 4096) (start / 4096 + u32 (size + 4095) / 4096)
      (body fails start size).1 (body fails start size).2 := by
  unfold body FLASH_SECTOR_SIZE
  dsimp only
  rw [show size + 4096 - 1 = size + 4095 from rfl]
  generalize start / 4096 = first
  generalize hstop : first + u32 (size + 4095) / 4096 = stop
  have h₁ := @eraseHead_spec fails first stop (by omega)
  generalize eraseHead fails stop first [] = head at h₁ ⊢
  rcases head with ⟨res | c₁, calls₁⟩
  · obtain ⟨rfl, hf, hne, hreach⟩ := h₁
    exact ⟨by simp, fun _ => ⟨hf, hne, hreach⟩⟩
  · obtain ⟨-, hc₁, hreach₁, hgo₁⟩ := h₁
    -- at a block boundary, or through with the area
    have hboundary : c₁ % 16 = 0 ∨ c₁ = stop := by
      simp only [land_15, Bool.and_eq_false_iff, decide_eq_false_iff_not,
        bne_eq_false_iff_eq] at hgo₁
      omega
    have h₂ := @eraseBlocks_spec fails first stop c₁ calls₁ hc₁ hboundary hreach₁
    dsimp only
    generalize eraseBlocks fails stop c₁ calls₁ = blocks at h₂ ⊢
    rcases blocks with ⟨res | c₂, calls₂⟩
    · obtain ⟨rfl, hf, hne, hreach⟩ := h₂
      exact ⟨by simp, fun _ => ⟨hf, hne, hreach⟩⟩
    · obtain ⟨-, hc₂, hreach₂, -⟩ := h₂
      have h₃ := @eraseTail_spec fails first stop c₂ calls₂ hc₂ hreach₂
      dsimp only
      generalize eraseTail fails stop c₂ calls₂ = tail at h₃ ⊢
      rcases tail with ⟨res | c₃, calls₃⟩
      · obtain ⟨rfl, hf, hne, hreach⟩ := h₃
        exact ⟨by simp, fun _ => ⟨hf, hne, hreach⟩⟩
      · obtain ⟨-, hc₃, hreach₃, hgo₃⟩ := h₃
        obtain rfl : c₃ = stop := by
          simp only [decide_eq_false_iff_not] at hgo₃
          omega
        exact ⟨fun _ => hreach₃, fun h => absurd rfl h⟩

/-! ## The two copies -/

def Intersects (sector start size : Nat) : Prop :=
  ∃ x, start ≤ x ∧ x < start + size ∧ x / 4096 = sector

/-- What `SPIEraseAreaEx` is for, whichever calls fail: an unaligned start is
rejected with nothing erased; for an aligned one a result of 0 says that the
sectors of the area were erased, each once, any other result comes from a
call that failed, and no other sector is ever erased. -/
def ErasesArea (impl : (Calls → Bool) → Nat → Nat → Nat × Calls) (start size : Nat) : Prop :=
  ∀ fails,
    (start % 4096 ≠ 0 → (impl fails start size).1 ≠ 0 ∧ (impl fails start size).2 = []) ∧
    (start % 4096 = 0 →
      ((impl fails start size).1 = 0 → ∀ sector, Intersects sector start size →
        sector ∈ (impl fails start size).2.sectors) ∧
      ((impl fails start size).1 ≠ 0 → fails (impl fails start size).2 = true) ∧
      (impl fails start size).2.sectors.Nodup ∧
      ∀ sector ∈ (impl fails start size).2.sectors, Intersects sector start size)

theorem intersects_iff {sector start size : Nat} (hstart : start % 4096 = 0)
    (hsize : size + 4095 < 4294967296) : Intersects sector start size ↔
      start / 4096 ≤ sector ∧ sector < start / 4096 + u32 (size + 4095) / 4096 := by
  rw [u32_of_lt hsize]
  constructor
  · rintro ⟨x, h₁, h₂, rfl⟩
    omega
  · rintro ⟨h₁, h₂⟩
    exact ⟨sector * 4096, by omega, by omega, by omega⟩

theorem core_check (start : Nat) : start &&& (FLASH_SECTOR_SIZE - 1) = start % 4096 :=
  Nat.and_two_pow_sub_one_eq_mod start 12

theorem boot_check (start : Nat) : start &&& (FLASH_SECTOR_SIZE - 1 != 0).toNat = start % 2 :=
  Nat.and_two_pow_sub_one_eq_mod start 1

theorem erasesArea_of_body {impl : (Calls → Bool) → Nat → Nat → Nat × Calls} {start size : Nat}
    (hstart : start % 4096 = 0) (hsize : size + 4095 < 4294967296)
    (h : ∀ fails, impl fails start size = body fails start size) : ErasesArea impl start size := by
  intro fails
  rw [h fails]
  obtain ⟨hdone, hfailed⟩ := body_spec fails start size
  refine ⟨fun hne => absurd hstart hne, fun _ => ⟨fun hres sector hsec => ?_,
    fun hres => (hfailed hres).1, ?_⟩⟩
  · rw [(hdone hres).sectors, List.mem_range'_1]
    obtain ⟨h₁, h₂⟩ := (intersects_iff hstart hsize).1 hsec
    omega
  · obtain ⟨c, hc, hreach⟩ : ∃ c ≤ start / 4096 + u32 (size + 4095) / 4096,
        Reached (start / 4096) c (body fails start size).2 := by
      by_cases hres : (body fails start size).1 = 0
      · exact ⟨_, Nat.le_refl _, hdone hres⟩
      · exact (hfailed hres).2.2
    rw [hreach.sectors]
    refine ⟨List.nodup_range', fun sector hsec => (intersects_iff hstart hsize).2 ?_⟩
    rw [List.mem_range'_1] at hsec
    have := hreach.le
    omega

theorem core_erasesArea {start size : Nat} (hsize : size + 4095 < 4294967296) :
    ErasesArea Esp.SPIEraseAreaEx start size := by
  by_cases hstart : start % 4096 = 0
  · refine erasesArea_of_body hstart hsize fun fails => if_neg ?_
    rw [core_check]
    exact fun h => h hstart
  · intro fails
    have hrej : Esp.SPIEraseAreaEx fails start size = (1, []) := if_pos (by rwa [core_check])
    rw [hrej]
    exact ⟨fun _ => ⟨Nat.one_ne_zero, rfl⟩, fun h => absurd h hstart⟩

/-- **The two copies of `SPIEraseAreaEx`.**  Both erase the area and have the
same effect exactly for the aligned starts and the odd ones: the boot loader
takes an even start inside a sector for an aligned one. -/
theorem eraseArea_sound (start size : Nat) (h : start + size ≤ 4294967296 - 4096) :
    (ErasesArea Eboot.SPIEraseAreaEx start size ∧ ErasesArea Esp.SPIEraseAreaEx start size ∧
      ∀ fails, Eboot.SPIEraseAreaEx fails start size = Esp.SPIEraseAreaEx fails start size) ↔
    (start % 4096 = 0 ∨ start % 2 = 1) := by
  have hcore : ErasesArea Esp.SPIEraseAreaEx start size := core_erasesArea (by omega)
  constructor
  · rintro ⟨hboot, -, -⟩
    by_contra hcond
    have hbody : Eboot.SPIEraseAreaEx (fun _ => false) start size =
        body (fun _ => false) start size := if_neg (by rw [boot_check]; omega)
    have hrej := ((hboot fun _ => false).1 (by omega)).1
    rw [hbody] at hrej
    exact Bool.false_ne_true ((body_spec _ start size).2 hrej).1
  · intro hcond
    have heq : ∀ fails, Eboot.SPIEraseAreaEx fails start size =
        Esp.SPIEraseAreaEx fails start size := by
      intro fails
      unfold Eboot.SPIEraseAreaEx Esp.SPIEraseAreaEx
      rw [boot_check, core_check]
      by_cases hodd : start % 2 = 1
      · rw [if_pos (by omega), if_pos (by omega)]
      · rw [if_neg (by omega), if_neg (by omega)]
    refine ⟨fun fails => ?_, hcore, heq⟩
    rw [heq fails]
    exact hcore fails

/-- An area over a block: five sectors, a block, two sectors. -/
theorem eraseArea_sound_block :
    ErasesArea Eboot.SPIEraseAreaEx 0x1B000 0x16800 ∧
      ErasesArea Esp.SPIEraseAreaEx 0x1B000 0x16800 ∧
      ∀ fails, Eboot.SPIEraseAreaEx fails 0x1B000 0x16800 =
        Esp.SPIEraseAreaEx fails 0x1B000 0x16800 :=
  (eraseArea_sound 0x1B000 0x16800 (by decide)).2 (.inl (by decide))

/-- Asked for the area from address 2, the boot loader erases sector 0. -/
theorem not_eraseArea_sound :
    ¬ ∀ start size, start + size ≤ 4294967296 - 4096 →
      (ErasesArea Eboot.SPIEraseAreaEx start size ∧ ErasesArea Esp.SPIEraseAreaEx start size ∧
        ∀ fails, Eboot.SPIEraseAreaEx fails start size = Esp.SPIEraseAreaEx fails start size) := by
  intro h
  have hrej := (((h 2 4096 (by decide)).1 fun _ => false).1 (by decide)).2
  exact absurd hrej (by decide)

end EraseArea
