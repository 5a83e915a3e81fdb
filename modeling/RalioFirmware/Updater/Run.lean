import RalioFirmware.Updater.Staging

/-!
# From `begin` through the writes

A run of an update is a `begin`, any sequence of `write` calls and an `end`.
`beginUpdate_begun` starts `Accepted`, `Accepted.writeAll` carries it through
the writes.
-/

open Word Bytes Nor Nor.Chip Esp

namespace Updater

variable {F : SpiFlash}

/-- Between two calls of `write`: `acc` has been accepted. -/
structure Accepted (u₀ : Updater F) (acc : List UInt8) (u : Updater F) : Prop
    extends Staging u₀ acc (flushedLen u₀ acc.length) u where
  fits : acc.length ≤ u₀.size

/-- The calls of `write` for `chunks`: the bytes accepted and the state. -/
def writeAll : List (List UInt8) → Updater F → List UInt8 × Updater F
  | [], u => ([], u)
  | data :: rest, u =>
    let (n, u) := u.write data
    let (accepted, u) := writeAll rest u
    (data.take n ++ accepted, u)

/-- An empty write behind the last byte of an image of `size` bytes. -/
def Overrun (size : Nat) (chunks : List (List UInt8)) : Prop :=
  ∃ before after, chunks = before ++ [] :: after ∧ before.flatten.length = size

variable {u₀ u u' : Updater F} {acc : List UInt8}

theorem write_dropped (h : Dropped u) (data : List UInt8) : u.write data = (0, u) := by
  rw [Updater.write, if_pos (.inl h.error)]

theorem writeAll_dropped (h : Dropped u) (chunks : List (List UInt8)) :
    writeAll chunks u = ([], u) := by
  induction chunks with
  | nil => rfl
  | cons data rest ih => simp [writeAll, write_dropped h, ih]

theorem write_space {data : List UInt8} {n : Nat} (hw : u.write data = (n, u'))
    (h : ¬ (u.hasError ∨ ¬ u.isRunning)) (hd : ¬ Dropped u') :
    u32 (u.progress + u.bufferLen + data.length) ≤ u.size := by
  rw [Updater.write, if_neg h] at hw
  split at hw
  · obtain ⟨-, rfl⟩ := Prod.mk.inj hw
    exact absurd (setError_dropped (by simp) u) hd
  · omega

theorem Begun.accepted (hb : Begun u₀) : Accepted u₀ [] u₀ := by
  have h0 : flushedLen u₀ ([] : List UInt8).length = 0 := by
    rw [flushedLen, List.length_nil]
    split
    · rfl
    · rw [Nat.zero_sub, Nat.zero_div, Nat.zero_mul]
  refine ⟨?_, Nat.zero_le _⟩
  rw [h0]
  exact hb.staging

theorem Staging.error_ok {f : Nat} (hb : Begun u₀) (h : Staging u₀ acc f u) : ¬ Dropped u :=
  fun hd => hd.error (h.error.trans hb.error)

/-- **What one `write` does.**  It accepts its bytes or drops the update. -/
theorem Accepted.write (hb : Begun u₀) {data : List UInt8} {n : Nat} (h : Accepted u₀ acc u)
    (hw : u.write data = (n, u')) :
    (n = data.length ∧ Accepted u₀ (acc ++ data) u') ∨
      Dropped u' ∧ (acc.length + data.length ≤ u₀.size →
        u.chip.faults < u'.chip.faults ∨ acc.length = u₀.size ∧ data = []) := by
  rcases h.toStaging.write hb hw with ⟨hn, hst⟩ | hdrop
  · refine .inl ⟨hn, hst, ?_⟩
    have hspace := write_space hw (h.running hb) (hst.error_ok hb)
    rw [h.progress hb, h.bufferLen, h.size] at hspace
    have hlen := hst.bufferLen
    have hle := hst.bufferLen_le
    have hcur := hst.current_lt hb
    have hB : u₀.bufferSize ≤ 4096 := by rcases hb.bufferSize with h' | h' <;> omega
    rw [List.length_append] at hlen hcur ⊢
    rw [u32_of_lt (by omega)] at hspace
    exact hspace
  · exact .inr hdrop

/-- **What a sequence of writes does.**  Unless the update was dropped on the
way, everything written has been accepted. -/
theorem Accepted.writeAll (hb : Begun u₀) {chunks : List (List UInt8)} {bytes : List UInt8}
    (h : Accepted u₀ acc u) (hw : Updater.writeAll chunks u = (bytes, u')) :
    (bytes = chunks.flatten ∧ Accepted u₀ (acc ++ bytes) u') ∨ Dropped u' := by
  induction chunks generalizing acc u bytes with
  | nil =>
    obtain ⟨rfl, rfl⟩ := Prod.mk.inj hw
    exact .inl ⟨rfl, by simpa using h⟩
  | cons data rest ih =>
    rw [Updater.writeAll] at hw
    generalize hwr : u.write data = r at hw
    obtain ⟨n, u₁⟩ := r
    generalize hrest : Updater.writeAll rest u₁ = r at hw
    obtain ⟨more, u₂⟩ := r
    dsimp only at hw
    rw [hrest] at hw
    obtain ⟨rfl, rfl⟩ := Prod.mk.inj hw
    rcases h.write hb hwr with ⟨rfl, hacc⟩ | ⟨hdrop, -⟩
    · rcases ih hacc hrest with ⟨rfl, hacc'⟩ | hdrop
      · grind
      · exact .inr hdrop
    · rw [writeAll_dropped hdrop] at hrest
      obtain ⟨-, rfl⟩ := Prod.mk.inj hrest
      exact .inr hdrop

/-! ## `begin` -/

theorem roundToSector_mod (size : Nat) : roundToSector size % 4096 = 0 := by
  rw [roundToSector, clearLow_eq (m := 4096) (by omega) rfl (u32_lt _)]
  omega

theorem updateStartAddress_ok {L : Layout} {command : Int} {sketch size start : Nat}
    (h : updateStartAddress L command sketch (roundToSector size) = .ok start) :
    (command = U_FLASH ∨ command = U_FS) ∧ start % 4096 = 0 ∧ start ≤ L.FS_start - 0x40200000 := by
  have hround := roundToSector_mod size
  have hal := L.start_aligned
  have hbase := L.base_le
  unfold updateStartAddress at h
  by_cases hc : command = U_FLASH
  · rw [if_pos hc] at h
    dsimp only at h
    generalize hs : (if L.FS_start - 0x40200000 > roundToSector size then
      L.FS_start - 0x40200000 - roundToSector size else 0) = s at h
    split at h
    · cases h
    · obtain rfl := Except.ok.inj h
      refine ⟨.inl hc, ?_⟩
      split at hs <;> omega
  · rw [if_neg hc] at h
    split at h
    · rename_i hc
      split at h
      · cases h
      · obtain rfl := Except.ok.inj h
        exact ⟨.inr hc, by omega, Nat.le_refl _⟩
    · cases h

theorem beginUpdate_true {L : Layout} {env : BeginEnv} {size : Nat} {command : Int}
    (h : beginUpdate L env size command u = (true, u')) :
    0 < size ∧ ∃ c start block,
      ReadOnly u.chip c ∧
      updateStartAddress L command (roundToSector (getSketchSize u.sketchSize
        (checkFlashConfig false u.chip).2).1) (roundToSector size) = .ok start ∧
      env.alloc (if env.freeHeap > 2 * 4096 then 4096 else 256) = some block ∧
      u' = { u with
        error := .ok
        bufferPtr := block.ptr
        buffer := block.bytes
        bufferLen := 0
        bufferSize := if env.freeHeap > 2 * 4096 then 4096 else 256
        size := size
        startAddress := start
        currentAddress := start
        command := command
        target_md5 := []
        md5 := []
        chip := c
        sketchSize := (getSketchSize u.sketchSize (checkFlashConfig false u.chip).2).2.1 } := by
  unfold beginUpdate at h
  by_cases h₁ : u.size > 0
  · rw [if_pos h₁] at h
    cases h
  rw [if_neg h₁] at h
  by_cases h₂ : (env.gpi >>> 16) &&& 0xf = 1
  · rw [if_pos h₂] at h
    cases h
  rw [if_neg h₂] at h
  by_cases h₃ : size = 0
  · rw [if_pos h₃] at h
    cases h
  rw [if_neg h₃] at h
  have hro := checkFlashConfig_readOnly false u.chip
  generalize checkFlashConfig false u.chip = r at h hro ⊢
  obtain ⟨ok, c₁⟩ := r
  cases ok with
  | false => cases h
  | true =>
    have hro' := getSketchSize_readOnly u.sketchSize c₁
    dsimp only [reset] at h hro ⊢
    generalize getSketchSize u.sketchSize c₁ = r at h hro' ⊢
    obtain ⟨sketch, cache, c₂⟩ := r
    dsimp only at h hro' ⊢
    generalize updateStartAddress L command (roundToSector sketch) (roundToSector size) = r at h ⊢
    cases r with
    | error e => cases e <;> cases h
    | ok start =>
      dsimp only at h
      generalize (if env.freeHeap > 2 * 4096 then 4096 else 256) = B at h ⊢
      cases hal : env.alloc B with
      | none =>
        rw [hal] at h
        cases h
      | some block =>
        rw [hal] at h
        obtain ⟨-, rfl⟩ := Prod.mk.inj h
        exact ⟨by omega, c₂, start, block, hro.trans hro', rfl, rfl, rfl⟩

/-- **`begin` starts an update.** -/
theorem beginUpdate_begun {L : Layout} {env : BeginEnv} {size : Nat} {command : Int}
    (hsize : size < 4294967296) (h : beginUpdate L env size command u = (true, u')) :
    Begun u' := by
  obtain ⟨hpos, c, start, block, -, hstart, -, rfl⟩ := beginUpdate_true h
  obtain ⟨hc, hal, hle⟩ := updateStartAddress_ok hstart
  have := L.end_lt
  have := L.start_le_end
  exact {
    error := rfl
    bufferPtr := block.ptr_ne
    buffer := block.length_eq
    bufferSize := by
      show (if _ then 4096 else 256) = 4096 ∨ (if _ then 4096 else 256) = 256
      split
      · exact .inl rfl
      · exact .inr rfl
    bufferLen := rfl
    size_pos := hpos
    size_lt := hsize
    start_aligned := hal
    start_lt := by
      show start < 3221225472
      omega
    current := rfl
    command := hc
    md5 := rfl }

/-- The digest to expect may be announced before the first write. -/
def announce (expected_md5 : Option (List Char)) (u : Updater F) : Updater F :=
  match expected_md5 with
  | some text => (u.setMD5 text).2
  | none => u

theorem announce_eq (expected_md5 : Option (List Char)) (u : Updater F) :
    ∃ text, u.announce expected_md5 = { u with target_md5 := text } := by
  cases expected_md5 with
  | none => exact ⟨u.target_md5, rfl⟩
  | some text =>
    by_cases hlen : text.length ≠ 32
    · exact ⟨u.target_md5, by simp only [announce, Updater.setMD5, if_pos hlen]⟩
    · exact ⟨text, by simp only [announce, Updater.setMD5, if_neg hlen]⟩

theorem Begun.announce (hb : Begun u) (expected_md5 : Option (List Char)) :
    Begun (u.announce expected_md5) := by
  obtain ⟨text, heq⟩ := announce_eq expected_md5 u
  rw [heq]
  exact ⟨hb.error, hb.bufferPtr, hb.buffer, hb.bufferSize, hb.bufferLen, hb.size_pos,
    hb.size_lt, hb.start_aligned, hb.start_lt, hb.current, hb.command, hb.md5⟩

/-! ## A board to run on -/

def init (verifier : Option Verifier) (chip : Chip F) : Updater F where
  error := .ok
  bufferPtr := 0
  buffer := []
  bufferLen := 0
  bufferSize := 0
  size := 0
  startAddress := 0
  currentAddress := 0
  command := U_FLASH
  target_md5 := []
  md5 := []
  verifier := verifier
  chip := chip
  rtc := fun _ => 0
  sketchSize := 0
  log := []

def sampleFlash (bad : Nat → Bool) : SpiFlash where
  toDriver := Nor.scripted 4096 4 0x100000 bad
  flashId := 0x140000
  puyaBuffer := true
  capacity_le := (by decide : 0x100000 ≤ 0x1000000)

def sampleChip (bad : Nat → Bool) (mode : UInt8) : Chip (sampleFlash bad) :=
  ⟨(fun a => if a = 0 ∨ a = 0x1000 then 0xE9 else if a = 2 then mode else 0, 0), 0⟩

def sampleLayout : Layout where
  FS_start := 0x40280000
  FS_end := 0x402C0000
  base_le := by decide
  start_le_end := by decide
  end_lt := by decide
  start_aligned := by decide
  end_aligned := by decide

def sampleAlloc (n : Nat) : Option (HeapBlock n) :=
  some ⟨0x3ffe8000, List.replicate n 0, by decide, List.length_replicate⟩

def sampleBegin : BeginEnv where
  gpi := 0
  freeHeap := 0
  alloc := sampleAlloc

def sampleEnd : EndEnv where
  md5Text _ := []
  buff := List.replicate 128 0
  buff_length := List.length_replicate
  alloc := sampleAlloc
  args := Vector.replicate 29 0

def sampleBegun (bad : Nat → Bool) (size : Nat) : Updater (sampleFlash bad) :=
  (beginUpdate sampleLayout sampleBegin size U_FLASH (init none (sampleChip bad 0))).2

def sampleWritten (bad : Nat → Bool) (size : Nat) (chunks : List (List UInt8)) :
    List UInt8 × Updater (sampleFlash bad) :=
  writeAll chunks (sampleBegun bad size)

theorem eq_mk_snd {α β : Type} {p : α × β} {a : α} (h : p.1 = a) : p = (a, p.2) := by
  subst h
  rfl

theorem sampleBegun_eq : beginUpdate sampleLayout sampleBegin 5 U_FLASH
    (init none (sampleChip (fun _ => false) 0)) = (true, sampleBegun (fun _ => false) 5) :=
  eq_mk_snd (by decide +kernel)

end Updater
