import RalioFirmware.Esp.Flash

/-!
# Flash access and RAM

`flashRead` with its destination in RAM, and what the two byte overloads of
`EspClass` come to for every alignment of the flash address, of the RAM
pointer and of the size: a write leaves in every byte of its range the bits
that were set both before and in the data, a read stores the range at its
destination, and neither touches anything else.
-/

open Word Bytes Nor Nor.Chip

abbrev Ram := Nat → UInt8

/-- `memcpy` into RAM. -/
def Ram.store (ram : Ram) (dst : Nat) (bs : List UInt8) : Ram :=
  fun x => if dst ≤ x ∧ x < dst + bs.length then bs.getD (x - dst) 0 else ram x

namespace Ram

@[simp] theorem store_nil (ram : Ram) (dst : Nat) : ram.store dst [] = ram := by
  funext x
  simp only [store, List.length_nil]
  rw [if_neg (by omega)]

theorem store_append (ram : Ram) (dst : Nat) (bs cs : List UInt8) :
    (ram.store dst bs).store (dst + bs.length) cs = ram.store dst (bs ++ cs) := by
  funext x
  simp only [store, List.length_append, List.getD_eq_getElem?_getD]
  by_cases hx : dst + bs.length ≤ x ∧ x < dst + bs.length + cs.length
  · rw [if_pos hx, if_pos (by omega), List.getElem?_append_right (by omega),
      show x - (dst + bs.length) = x - dst - bs.length by omega]
  · grind

end Ram

namespace Esp

variable {F : SpiFlash}

/-- `EspClass::flashRead` for words, into RAM. -/
def flashReadWordsInto (address data size : Nat) (ram : Ram) (c : Chip F) : Bool × Ram × Chip F :=
  match flashReadWords address data size c with
  | (none, c) => (false, ram, c)
  | (some bytes, c) => (true, ram.store data bytes, c)

/-- The loop of `flashRead` for an unaligned destination: it reads into the
aligned buffer `buf` on the stack and copies from there.  Returns
`currentOffset` too. -/
def readBounceInto (address data : Nat) :
    Nat → Nat → Nat → Ram → Chip F → Bool × Nat × Ram × Chip F
  | 0, _, currentOffset, ram, c => (true, currentOffset, ram, c)
  | rounds+1, sizeLeft, currentOffset, ram, c =>
    if sizeLeft = 0 then (true, currentOffset, ram, c)
    else
      let willCopy := min sizeLeft 64
      match flashReadWords (address + currentOffset) 0 willCopy c with
      | (none, c) => (false, currentOffset, ram, c)
      | (some buf, c) =>
        readBounceInto address data rounds (sizeLeft - willCopy) (currentOffset + willCopy)
          (ram.store (data + currentOffset) buf) c

/-- The whole words of `flashRead`. -/
def readAlignedInto (address data sizeAligned : Nat) (ram : Ram) (c : Chip F) :
    Bool × Nat × Ram × Chip F :=
  if data % 4 ≠ 0 then readBounceInto address data sizeAligned sizeAligned 0 ram c
  else
    match flashReadWordsInto address data sizeAligned ram c with
    | (false, ram, c) => (false, 0, ram, c)
    | (true, ram, c) => (true, sizeAligned, ram, c)

/-- `EspClass::flashRead` for bytes, into RAM at `data`. -/
def flashReadInto (address data size : Nat) (ram : Ram) (c : Chip F) : Bool × Ram × Chip F :=
  let sizeAligned := clearLow 2 size
  match readAlignedInto address data sizeAligned ram c with
  | (false, _, ram, c) => (false, ram, c)
  | (true, currentOffset, ram, c) =>
    if currentOffset < size then
      match c.read (address + currentOffset) 4 with
      | (none, c) => (false, ram, c)
      | (some tempData, c) =>
        (true, ram.store (data + currentOffset) (tempData.take (size - currentOffset)), c)
    else (true, ram, c)

/-! ## The destination -/

theorem flashReadWords_length {address data size : Nat} {c c' : Chip F} {bs : List UInt8}
    (h : flashReadWords address data size c = (some bs, c')) : bs.length = size := by
  unfold flashReadWords at h
  split at h
  · simp at h
  · rw [(read_some h).1, slice_length]

theorem readBounceInto_eq (address data : Nat) (ram : Ram) {rounds sizeLeft : Nat}
    {got : List UInt8} {c : Chip F} :
    readBounceInto address data rounds sizeLeft got.length (ram.store data got) c =
      ((readBounceLoop rounds address sizeLeft got c).1,
        (readBounceLoop rounds address sizeLeft got c).2.1.length,
        ram.store data (readBounceLoop rounds address sizeLeft got c).2.1,
        (readBounceLoop rounds address sizeLeft got c).2.2) := by
  induction rounds generalizing sizeLeft got c with
  | zero => rfl
  | succ rounds ih =>
    unfold readBounceInto readBounceLoop
    by_cases h0 : sizeLeft = 0
    · rw [if_pos h0, if_pos h0]
    · rw [if_neg h0, if_neg h0]
      dsimp only
      generalize hread : flashReadWords (address + got.length) 0 (min sizeLeft 64) c = r
      obtain ⟨bytes, c₁⟩ := r
      cases bytes with
      | none => rfl
      | some buf =>
        have hlen : got.length + min sizeLeft 64 = (got ++ buf).length := by
          rw [List.length_append, flashReadWords_length hread]
        dsimp only
        rw [hlen, Ram.store_append]
        exact ih

theorem readAlignedInto_eq (address data sizeAligned : Nat) (ram : Ram) (c : Chip F) :
    readAlignedInto address data sizeAligned ram c =
      ((readAligned address data sizeAligned c).1,
        (readAligned address data sizeAligned c).2.1.length,
        ram.store data (readAligned address data sizeAligned c).2.1,
        (readAligned address data sizeAligned c).2.2) := by
  unfold readAlignedInto readAligned
  by_cases hal : data % 4 ≠ 0
  · rw [if_pos hal, if_pos hal]
    have h := @readBounceInto_eq F address data ram sizeAligned sizeAligned [] c
    rwa [Ram.store_nil] at h
  · rw [if_neg hal, if_neg hal]
    unfold flashReadWordsInto
    generalize hread : flashReadWords address data sizeAligned c = r
    obtain ⟨bytes, c₁⟩ := r
    cases bytes with
    | none => simp
    | some got => simp [flashReadWords_length hread]

/-- **`flashRead` stores what it got at its destination** and nothing
anywhere else, also where it fails. -/
theorem flashReadInto_eq (address data : Nat) {size : Nat} (hsize : size < 4294967296) (ram : Ram)
    (c : Chip F) :
    flashReadInto address data size ram c =
      ((flashReadBytes address data size c).1,
        ram.store data (flashReadBytes address data size c).2.1,
        (flashReadBytes address data size c).2.2) := by
  unfold flashReadInto flashReadBytes
  have hal : clearLow 2 size = size / 4 * 4 := clearLow_eq (by omega) rfl hsize
  rw [hal]
  show (match readAlignedInto address data (size / 4 * 4) ram c with
    | (false, _, ram, c) => (false, ram, c)
    | (true, currentOffset, ram, c) => _) = _
  rw [readAlignedInto_eq]
  dsimp only
  generalize hfirst : readAligned address data (size / 4 * 4) c = first
  obtain ⟨ok, got, c₁⟩ := first
  cases ok with
  | false => rfl
  | true =>
    have hgot : got.length = size / 4 * 4 := by
      have h : Reads (some got) c c₁ address (size / 4 * 4) :=
        readAligned_spec (by omega) hfirst
      rw [h.2.1, slice_length]
    dsimp only
    rw [hgot]
    by_cases hlt : size / 4 * 4 < size
    · rw [if_pos hlt, if_pos hlt]
      generalize c₁.read (address + size / 4 * 4) 4 = r
      obtain ⟨bytes, c₂⟩ := r
      cases bytes with
      | none => rfl
      | some tempData =>
        dsimp only
        rw [← Ram.store_append, hgot]
    · rw [if_neg hlt, if_neg hlt]

/-! ## Both ways -/

/-- **Unaligned flash access.**  Whatever the alignment of the flash address,
the RAM pointer and the size, and whichever of the two write paths the chip
takes: a successful `flashWrite` leaves in each byte of its range the old
byte and-ed with the byte of the data and every other byte alone; a
successful `flashRead` leaves the chip alone, stores the range at its
destination and touches no other byte of RAM. -/
theorem flashAccess_exact (address ptr : Nat) (ram : Ram) (c : Chip F) :
    (∀ (data : List UInt8) (c' : Chip F), flashWrite address ptr data c = (true, c') →
      (∀ i (hi : i < data.length), c'.cells (address + i) = c.cells (address + i) &&& data[i]) ∧
      ∀ x, x < address ∨ address + data.length ≤ x → c'.cells x = c.cells x) ∧
    (∀ (size : Nat) (ram' : Ram) (c' : Chip F), size < 4294967296 →
      flashReadInto address ptr size ram c = (true, ram', c') →
      c'.cells = c.cells ∧ (∀ i < size, ram' (ptr + i) = c.cells (address + i)) ∧
      ∀ x, x < ptr ∨ ptr + size ≤ x → ram' x = ram x) := by
  constructor
  · intro data c' h
    have hprog := (flashWrite_true h).2
    refine ⟨fun i hi => ?_, fun x hx => hprog.other hx⟩
    rw [hprog.cells, maskAt_add hi]
  · intro size ram' c' hsize h
    rw [flashReadInto_eq address ptr hsize] at h
    generalize hread : flashReadBytes address ptr size c = r at h
    obtain ⟨ok, got, c₁⟩ := r
    obtain ⟨rfl, rfl, rfl⟩ : ok = true ∧ ram.store ptr got = ram' ∧ c₁ = c' := by simpa using h
    have hreads : Reads (some got) c c₁ address size := flashReadBytes_spec hsize hread
    obtain ⟨hcells, rfl, -⟩ := hreads
    refine ⟨hcells, fun i hi => ?_, fun x hx => ?_⟩
    · simp only [Ram.store, slice_length]
      rw [if_pos (by omega), Nat.add_sub_cancel_left, List.getD_eq_getElem?_getD,
        List.getElem?_eq_getElem (by rw [slice_length]; exact hi), Option.getD_some, slice_getElem]
    · simp only [Ram.store, slice_length]
      rw [if_neg (by omega)]

def blankPuya : SpiFlash where
  toDriver := scripted 4096 4 8192 fun _ => false
  flashId := 0x146085
  puyaBuffer := true
  capacity_le := by decide

/-- Two bytes written across a word boundary leave their neighbours alone. -/
theorem flashAccess_exact_puya :
    ∃ c' : Chip blankPuya,
      flashWrite 7 0x3FFE8001 [0xF0, 0x0F] ⟨(fun _ => 0xFF, 0), 0⟩ = (true, c') ∧
      ∀ x, x < 7 ∨ 9 ≤ x → c'.cells x = 0xFF :=
  have hrun : flashWrite (F := blankPuya) 7 0x3FFE8001 [0xF0, 0x0F] ⟨(fun _ => 0xFF, 0), 0⟩ =
      (true, _) := Prod.ext (by decide +kernel) rfl
  ⟨_, hrun, ((flashAccess_exact 7 0x3FFE8001 (fun _ => 0) _).1 _ _ hrun).2⟩

end Esp
