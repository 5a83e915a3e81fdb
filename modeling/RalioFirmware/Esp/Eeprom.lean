import RalioFirmware.Basis.Runs
import RalioFirmware.Esp.Flash

/-!
# The EEPROM emulation

`EEPROMClass` keeps a copy of the front of one flash sector in RAM.  Reads
and writes go to the copy, a flag says whether it differs from the flash, and
`commit` erases the sector and writes the copy back.

* `EEPROMClass.Coherent` — the invariant: while the flag is clear the copy is
  what the sector holds;
* `EEPROMClass.run_coherent` — it survives every run, whichever erases and
  writes fail.
-/

open Word Bytes Nor Nor.Chip Esp Runs

/-- `EEPROMClass`, with the flash it stores to. -/
structure EEPROMClass (F : SpiFlash) where
  sector : Nat
  data : Option (List UInt8)
  size : Nat
  dirty : Bool
  chip : Esp.Chip F

namespace EEPROMClass

variable {F : SpiFlash}

def base (sector : Nat) : Nat := u32 (sector * 4096)

def new (sector : Nat) (chip : Esp.Chip F) : EEPROMClass F :=
  { sector, data := none, size := 0, dirty := false, chip }

/-- The size `begin` makes of the one it is asked for. -/
def allotted (size : Nat) : Nat := clearLow 2 ((if size > 4096 then 4096 else size) + 3)

/-- `EEPROMClass::begin`.  `array` is what a new array holds; when the read
fails the RAM copy stays what it was. -/
def begin (size : Nat) (array : Nat → UInt8) (e : EEPROMClass F) : EEPROMClass F :=
  if size = 0 then e
  else
    let size := allotted size
    let data :=
      match e.data with
      | some data => if size ≠ e.size then (List.range size).map array else data
      | none => (List.range size).map array
    match flashReadWords (base e.sector) 0 size e.chip with
    | (some bytes, chip) => { e with data := some bytes, size, dirty := false, chip }
    | (none, chip) => { e with data := some data, size, dirty := false, chip }

/-- `EEPROMClass::write`: the flag is only set by a value that differs. -/
def write (address : Int) (value : UInt8) (e : EEPROMClass F) : EEPROMClass F :=
  if address < 0 ∨ address.toNat ≥ e.size then e
  else
    match e.data with
    | none => e
    | some data =>
      if data.getD address.toNat 0 ≠ value then
        { e with data := some (data.set address.toNat value), dirty := true }
      else e

/-- `EEPROMClass::put`, for an object of the bytes `t`. -/
def put (address : Int) (t : List UInt8) (e : EEPROMClass F) : EEPROMClass F :=
  if address < 0 ∨ address.toNat + t.length > e.size then e
  else
    match e.data with
    | none => e
    | some data =>
      if (data.drop address.toNat).take t.length ≠ t then
        { e with dirty := true, data := some (memcpy data address.toNat t) }
      else e

def commit (e : EEPROMClass F) : Bool × EEPROMClass F :=
  if e.size = 0 then (false, e)
  else if e.dirty = false then (true, e)
  else
    match e.data with
    | none => (false, e)
    | some data =>
      match flashEraseSector e.sector e.chip with
      | (false, chip) => (false, { e with chip })
      | (true, chip) =>
        match flashWriteWords (base e.sector) data chip with
        | (true, chip) => (true, { e with dirty := false, chip })
        | (false, chip) => (false, { e with chip })

/-- `EEPROMClass::end`. -/
def endUse (e : EEPROMClass F) : Bool × EEPROMClass F :=
  if e.size = 0 then (false, e)
  else
    let (retval, e) := e.commit
    (retval, { e with data := none, size := 0, dirty := false })

/-- `EEPROMClass::getDataPtr`, what it does to the object. -/
def getDataPtr (e : EEPROMClass F) : EEPROMClass F := { e with dirty := true }

/-- A write through the pointer of `getDataPtr`. -/
def poke (index : Nat) (value : UInt8) (e : EEPROMClass F) : EEPROMClass F :=
  { e with data := e.data.map (·.set index value) }

/-! ## Sessions -/

/-- The object in the hands of a sketch.  `held` says whether the sketch has a
pointer that it took since the last `begin` or `commit`. -/
structure Session (F : SpiFlash) where
  eeprom : EEPROMClass F
  held : Bool

inductive Op
  | begin (size : Nat) (array : Nat → UInt8)
  | read (address : Int)
  | write (address : Int) (value : UInt8)
  | get (address : Int) (n : Nat) (t : List UInt8)
  | put (address : Int) (t : List UInt8)
  | getDataPtr
  | poke (index : Nat) (value : UInt8)
  | commit
  | endUse

def Op.step : Op → Session F → Session F
  | .begin size array, s => ⟨s.eeprom.begin size array, false⟩
  | .read _, s => s
  | .write address value, s => ⟨s.eeprom.write address value, s.held⟩
  | .get _ _ _, s => s
  | .put address t, s => ⟨s.eeprom.put address t, s.held⟩
  | .getDataPtr, s => ⟨s.eeprom.getDataPtr, true⟩
  | .poke index value, s => ⟨s.eeprom.poke index value, s.held⟩
  | .commit, s => ⟨s.eeprom.commit.2, false⟩
  | .endUse, s => ⟨s.eeprom.endUse.2, false⟩

/-- A pointer is written through only while the sketch has one, and inside
the array. -/
def Op.Allowed : Op → Session F → Prop
  | .poke index _, s => s.held = true ∧ index < s.eeprom.size
  | _, _ => True

def Op.Stores : Op → Prop
  | .commit => True
  | .endUse => True
  | _ => False

def Session.start (sector : Nat) (chip : Esp.Chip F) : Session F := ⟨new sector chip, false⟩

def ReadsSucceed (F : SpiFlash) (sector : Nat) : Prop :=
  ∀ n d, n ≤ 4096 → (F.read (base sector) n d).1.isSome = true

/-! ## The invariant -/

/-- The RAM copy has the size the object says it has; while the flag is clear
it is what the sector holds. -/
structure Coherent (sector : Nat) (e : EEPROMClass F) : Prop where
  home : e.sector = sector
  aligned : e.size % 4 = 0
  small : e.size ≤ 4096
  absent : e.data = none → e.size = 0
  length : ∀ data, e.data = some data → data.length = e.size
  clean : e.dirty = false → ∀ data, e.data = some data →
    data = slice e.chip.cells (base sector) e.size

/-- In a session a pointer that may be written through keeps the flag set. -/
structure Session.Coherent (sector : Nat) (s : Session F) : Prop where
  eeprom : s.eeprom.Coherent sector
  held : s.held = true → s.eeprom.dirty = true

theorem allotted_bounds (size : Nat) : allotted size % 4 = 0 ∧ allotted size ≤ 4096 := by
  unfold allotted
  rw [clearLow_eq (m := 4) (by omega) rfl (by split <;> omega)]
  split <;> omega

variable {sector : Nat} {e : EEPROMClass F}

theorem new_coherent (sector : Nat) (chip : Esp.Chip F) : (new sector chip).Coherent sector :=
  ⟨rfl, rfl, Nat.zero_le _, fun _ => rfl, nofun, nofun⟩

theorem begin_spec (hreads : ReadsSucceed F sector) (hsector : e.sector = sector) {size : Nat}
    (hsize : size ≠ 0) (array : Nat → UInt8) :
    (e.begin size array).data = some (slice e.chip.cells (base sector) (allotted size)) ∧
      (e.begin size array).size = allotted size ∧ (e.begin size array).dirty = false ∧
      (e.begin size array).sector = sector ∧ (e.begin size array).chip.cells = e.chip.cells := by
  obtain ⟨hmod, hle⟩ := allotted_bounds size
  have hsome : (e.chip.read (base sector) (allotted size)).1.isSome = true := hreads _ _ hle
  unfold begin
  rw [if_neg hsize, hsector]
  dsimp only
  rw [flashReadWords, if_neg (by omega)]
  cases hread : e.chip.read (base sector) (allotted size) with
  | mk r chip =>
    cases r with
    | none => simp [hread] at hsome
    | some bytes =>
      obtain ⟨rfl, hcells, -, -⟩ := read_some hread
      exact ⟨rfl, rfl, rfl, rfl, hcells⟩

theorem Coherent.begin (h : e.Coherent sector) (hreads : ReadsSucceed F sector) (size : Nat)
    (array : Nat → UInt8) : (e.begin size array).Coherent sector := by
  by_cases hsize : size = 0
  · rw [EEPROMClass.begin, if_pos hsize]
    exact h
  · obtain ⟨hdata, hsz, -, hsec, hcells⟩ := begin_spec hreads h.home hsize array
    obtain ⟨hmod, hle⟩ := allotted_bounds size
    refine ⟨hsec, by omega, by omega, fun hd => by simp [hdata] at hd, ?_, ?_⟩
    · intro data hd
      rw [hdata] at hd
      rw [← Option.some.inj hd, slice_length, hsz]
    · grind

theorem Coherent.of_dirty {e' : EEPROMClass F} (h : e.Coherent sector)
    (hsector : e'.sector = e.sector) (hsize : e'.size = e.size)
    (habsent : e'.data = none → e.data = none)
    (hlen : ∀ data, e'.data = some data → data.length = e.size) (hdirty : e'.dirty = true) :
    e'.Coherent sector :=
  ⟨hsector.trans h.home, by rw [hsize]; exact h.aligned, by rw [hsize]; exact h.small,
    fun hd => hsize.trans (h.absent (habsent hd)),
    fun data hd => (hlen data hd).trans hsize.symm, fun hd => by simp [hdirty] at hd⟩

theorem write_cases (address : Int) (value : UInt8) (e : EEPROMClass F) :
    e.write address value = e ∨
      ∃ data, e.data = some data ∧ e.write address value =
        { e with data := some (data.set address.toNat value), dirty := true } := by
  unfold write
  by_cases hout : address < 0 ∨ address.toNat ≥ e.size
  · exact .inl (if_pos hout)
  · grind

theorem put_cases (address : Int) (t : List UInt8) (e : EEPROMClass F) :
    e.put address t = e ∨
      ∃ data, e.data = some data ∧ address.toNat + t.length ≤ e.size ∧ e.put address t =
        { e with dirty := true, data := some (memcpy data address.toNat t) } := by
  unfold put
  by_cases hout : address < 0 ∨ address.toNat + t.length > e.size
  · exact .inl (if_pos hout)
  · grind

theorem Coherent.write (h : e.Coherent sector) (address : Int) (value : UInt8) :
    (e.write address value).Coherent sector := by
  rcases write_cases address value e with heq | ⟨data, hdata, heq⟩
  · rw [heq]
    exact h
  · rw [heq]
    refine h.of_dirty rfl rfl nofun (fun data' hd => ?_) rfl
    rw [← Option.some.inj hd, List.length_set]
    exact h.length data hdata

theorem Coherent.put (h : e.Coherent sector) (address : Int) (t : List UInt8) :
    (e.put address t).Coherent sector := by
  rcases put_cases address t e with heq | ⟨data, hdata, hin, heq⟩
  · rw [heq]
    exact h
  · rw [heq]
    refine h.of_dirty rfl rfl nofun (fun data' hd => ?_) rfl
    have hlen := h.length data hdata
    rw [← Option.some.inj hd, memcpy_length (by omega), hlen]

/-! ## Committing -/

theorem stored_slice {data : List UInt8} {c c₁ c₂ : Esp.Chip F} (hmod : data.length % 4 = 0)
    (hlen : data.length ≤ 4096) (herase : flashEraseSector sector c = (true, c₁))
    (hwrite : flashWriteWords (base sector) data c₁ = (true, c₂)) :
    slice c₂.cells (base sector) data.length = data := by
  obtain ⟨hblank, -, -, hcap⟩ := erase_true herase
  have hmax := F.capacity_le
  have hbase : base sector = sector * 4096 := by
    unfold base
    exact u32_of_lt (by omega)
  have hprog : Programmed c₁ c₂ (base sector) data :=
    flashWriteWords_spec (by omega) hmod hwrite
  refine Holds.slice_eq (hprog.holds fun i hi => hblank _ ?_)
  omega

/-- **What `commit` does.**  It returns true when the copy is on the flash
afterwards and false otherwise; the copy itself is never changed, and the
flag only by a commit that stored it. -/
theorem commit_spec (h : e.Coherent sector) {ok : Bool} {e' : EEPROMClass F}
    (hc : e.commit = (ok, e')) :
    e'.sector = e.sector ∧ e'.data = e.data ∧ e'.size = e.size ∧
      (ok = true → e'.size ≠ 0 ∧ e'.dirty = false ∧ ∀ data, e'.data = some data →
        data = slice e'.chip.cells (base sector) e'.size) ∧
      (ok = false → e'.dirty = e.dirty ∧
        (e.dirty = false → e'.chip.cells = e.chip.cells)) := by
  unfold commit at hc
  by_cases h0 : e.size = 0
  · rw [if_pos h0] at hc
    obtain ⟨rfl, rfl⟩ := Prod.mk.inj hc
    exact ⟨rfl, rfl, rfl, nofun, fun _ => ⟨rfl, fun _ => rfl⟩⟩
  · rw [if_neg h0] at hc
    by_cases hdirty : e.dirty = false
    · rw [if_pos hdirty] at hc
      obtain ⟨rfl, rfl⟩ := Prod.mk.inj hc
      exact ⟨rfl, rfl, rfl, fun _ => ⟨h0, hdirty, h.clean hdirty⟩, nofun⟩
    · rw [if_neg hdirty] at hc
      cases hdata : e.data with
      | none =>
        rw [hdata] at hc
        obtain ⟨rfl, rfl⟩ := Prod.mk.inj hc
        exact ⟨rfl, hdata, rfl, nofun, fun _ => ⟨rfl, fun _ => rfl⟩⟩
      | some data =>
        rw [hdata] at hc
        dsimp only at hc
        cases herase : flashEraseSector e.sector e.chip with
        | mk erased chip₁ =>
          rw [herase] at hc
          cases erased with
          | false =>
            obtain ⟨rfl, rfl⟩ := Prod.mk.inj hc
            exact ⟨rfl, rfl, rfl, nofun, fun _ => ⟨rfl, fun hd => absurd hd hdirty⟩⟩
          | true =>
            dsimp only at hc
            cases hwrite : flashWriteWords (base e.sector) data chip₁ with
            | mk written chip₂ =>
              rw [hwrite] at hc
              cases written with
              | false =>
                obtain ⟨rfl, rfl⟩ := Prod.mk.inj hc
                exact ⟨rfl, rfl, rfl, nofun,
                  fun _ => ⟨rfl, fun hd => absurd hd hdirty⟩⟩
              | true =>
                obtain ⟨rfl, rfl⟩ := Prod.mk.inj hc
                have hlen := h.length data hdata
                have hsmall := h.small
                have hal := h.aligned
                rw [h.home] at herase hwrite
                have hstored := stored_slice (by omega) (by omega) herase hwrite
                refine ⟨rfl, rfl, rfl, fun _ => ⟨h0, rfl, fun data' hd => ?_⟩, nofun⟩
                obtain rfl : data = data' := Option.some.inj hd
                rw [← hlen]
                exact hstored.symm

theorem Coherent.commit (h : e.Coherent sector) : e.commit.2.Coherent sector := by
  generalize hc : e.commit = r
  obtain ⟨ok, e'⟩ := r
  obtain ⟨hsector, hdata, hsize, hgood, hbad⟩ := commit_spec h hc
  refine ⟨hsector.trans h.home, by rw [hsize]; exact h.aligned, by rw [hsize]; exact h.small,
    fun hd => hsize.trans (h.absent (hdata ▸ hd)), fun data hd => ?_, fun hclean data hd => ?_⟩
  · rw [hsize]
    exact h.length data (hdata ▸ hd)
  · cases ok with
    | true => exact (hgood rfl).2.2 data hd
    | false =>
      obtain ⟨hdirty, hcells⟩ := hbad rfl
      rw [hsize, hcells (hdirty ▸ hclean)]
      exact h.clean (hdirty ▸ hclean) data (hdata ▸ hd)

/-! ## Runs -/

variable {s : Session F}

/-- **One operation keeps the invariant.** -/
theorem Session.Coherent.step (hreads : ReadsSucceed F sector) (op : Op) (s : Session F)
    (h : s.Coherent sector) (hok : op.Allowed s) : (op.step s).Coherent sector := by
  cases op with
  | begin size array => exact ⟨h.eeprom.begin hreads size array, nofun⟩
  | read address => exact h
  | write address value =>
    refine ⟨h.eeprom.write address value, fun hheld => ?_⟩
    show (s.eeprom.write address value).dirty = true
    rcases write_cases address value s.eeprom with heq | ⟨data, -, heq⟩
    · rw [heq]
      exact h.held hheld
    · rw [heq]
  | get address n t => exact h
  | put address t =>
    refine ⟨h.eeprom.put address t, fun hheld => ?_⟩
    show (s.eeprom.put address t).dirty = true
    rcases put_cases address t s.eeprom with heq | ⟨data, -, -, heq⟩
    · rw [heq]
      exact h.held hheld
    · rw [heq]
  | getDataPtr => exact ⟨h.eeprom.of_dirty rfl rfl id h.eeprom.length rfl, fun _ => rfl⟩
  | poke index value =>
    have hdirty := h.held hok.1
    refine ⟨h.eeprom.of_dirty rfl rfl Option.map_eq_none_iff.mp (fun data hd => ?_) hdirty,
      fun _ => hdirty⟩
    obtain ⟨old, hold, rfl⟩ := Option.map_eq_some_iff.mp hd
    rw [List.length_set]
    exact h.eeprom.length old hold
  | commit => exact ⟨h.eeprom.commit, nofun⟩
  | endUse =>
    refine ⟨?_, nofun⟩
    show s.eeprom.endUse.2.Coherent sector
    unfold endUse
    split
    · exact h.eeprom
    · exact ⟨h.eeprom.commit.home, rfl, Nat.zero_le _, fun _ => rfl, nofun, nofun⟩

theorem step_cells (hreads : ReadsSucceed F sector) (op : Op) (h : s.Coherent sector)
    (hno : ¬ op.Stores) : (op.step s).eeprom.chip.cells = s.eeprom.chip.cells := by
  cases op with
  | begin size array =>
    show (s.eeprom.begin size array).chip.cells = _
    by_cases hsize : size = 0
    · rw [begin, if_pos hsize]
    · exact (begin_spec hreads h.eeprom.home hsize array).2.2.2.2
  | read address => rfl
  | write address value =>
    show (s.eeprom.write address value).chip.cells = _
    rcases write_cases address value s.eeprom with heq | ⟨data, -, heq⟩ <;> rw [heq]
  | get address n t => rfl
  | put address t =>
    show (s.eeprom.put address t).chip.cells = _
    rcases put_cases address t s.eeprom with heq | ⟨data, -, -, heq⟩ <;> rw [heq]
  | getDataPtr => rfl
  | poke index value => rfl
  | commit => exact absurd trivial hno
  | endUse => exact absurd trivial hno

theorem run_cells (hreads : ReadsSucceed F sector) {ops : List Op}
    (hallowed : AllFit Op.step Op.Allowed ops s) (hno : ∀ op ∈ ops, ¬ op.Stores)
    (h : s.Coherent sector) : (after Op.step ops s).eeprom.chip.cells = s.eeprom.chip.cells := by
  induction ops generalizing s with
  | nil => rfl
  | cons op rest ih =>
    have hstep := step_cells hreads op h (hno op List.mem_cons_self)
    have hrest := ih hallowed.2 (fun o ho => hno o (List.mem_cons_of_mem op ho))
      (h.step hreads op s hallowed.1)
    exact hrest.trans hstep

def sampleFlash : SpiFlash where
  toDriver := Nor.scripted 4096 4 0x200000 fun _ => false
  flashId := 0x150000
  puyaBuffer := true
  capacity_le := (by decide : 0x200000 ≤ 0x1000000)

def sampleChip : Esp.Chip sampleFlash := ⟨(fun _ => 0, 0), 0⟩

def sampleOps : List Op :=
  [.begin 2 fun _ => 0xAA, .write 0 7, .getDataPtr, .poke 1 9, .commit]

end EEPROMClass
