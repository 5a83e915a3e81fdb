import RalioFirmware.Updater.Install

/-!
# When `end` can be believed

`end(true)` flushes the last partial buffer and does not look at the result:
after a failed flush it goes on checking an object that has been reset.
`finish_reset_iff` says when those checks pass; `end_truthful_iff` says when
the answer of `end` can be believed.
-/

open Word Bytes Nor Nor.Chip Esp

namespace Updater

variable {F : SpiFlash} {env : EndEnv}

/-- The image check as it turns out on an object that has been reset: nothing
is left of the image but its digest. -/
def EmptyPasses (env : EndEnv) (u : Updater F) : Prop :=
  match u.verifier with
  | some v => v.length = 0 ∧ v.verify [] [] = true
  | none => u.target_md5 = [] ∨ sameText u.target_md5 (env.md5Text u.md5) = true

/-- Both checks of `end` on such an object: the header is looked for at
address 0. -/
def LeftoverPasses (env : EndEnv) (u : Updater F) : Prop :=
  EmptyPasses env u ∧
    ∃ buf, (flashReadWords 0 0 4 u.chip).1 = some buf ∧ headerVerdict F buf = none

variable {u : Updater F}

theorem readSigLen_reset (hs : u.size = 0) (ha : u.startAddress = 0) :
    u.readSigLen.1 = 0 := by
  unfold readSigLen
  rw [hs, ha]
  dsimp only
  split
  · rename_i bytes c h
    rw [flashReadWords, if_neg (by simp)] at h
    have hcap := (read_some h).2.2.2
    have hmax := F.capacity_le
    have : sub32 (u32 (0 + 0)) 4 = 4294967292 := by decide
    omega
  · rfl

theorem checkSignature_empty (env : EndEnv) {v : Verifier} (hv : v.length = 0)
    (hs : u.size = 0) :
    ∃ log, u.checkSignature env v =
      if v.verify [] [] then (true, { u with log := log })
      else (false, ({ u with log := log }).setError .sign) := by
  have hloop : hashLoop u.startAddress 0 (0 / 128 + 1) 0 env.buff u.chip = ([], u.chip) := by
    simp [hashLoop]
  refine ⟨u.log ++ [] ++ [Event.verify [] []], ?_⟩
  simp only [checkSignature, hv, hs, hashPayload, hloop, verifyHash, gt_iff_lt, Nat.lt_irrefl,
    if_false, ne_eq, not_true_eq_false, false_and, List.flatMap_nil, List.map_nil]
  cases v.verify [] [] with
  | true => simp
  | false => rfl

theorem checkImage_reset (env : EndEnv) (hs : u.size = 0)
    (ha : u.startAddress = 0) :
    ∃ ok log, u.checkImage env = (ok, if ok then { u with log := log } else
        (u.checkImage env).2) ∧
      (ok = true ↔ EmptyPasses env u) := by
  rcases Option.eq_none_or_eq_some u.verifier with hver | ⟨v, hver⟩
  · have hcheck : u.checkImage env = u.checkMd5 env := by simp only [checkImage, hver]
    have hpass : EmptyPasses env u ↔
        u.target_md5 = [] ∨ sameText u.target_md5 (env.md5Text u.md5) = true := by
      simp only [EmptyPasses, hver]
    rw [hcheck, checkMd5, hpass]
    by_cases ht : u.target_md5.length ≠ 0
    · rw [if_pos ht]
      dsimp only
      have hne : u.target_md5 ≠ [] := fun h => ht (by rw [h]; rfl)
      by_cases hm : sameText u.target_md5 (env.md5Text u.md5) = true
      · exact ⟨true, u.log ++ [.compareMd5 u.md5], by simp [hm], by simp [hm]⟩
      · exact ⟨false, u.log, by simp [hm], by simp [hm, hne]⟩
    · rw [if_neg ht]
      have hnil : u.target_md5 = [] := List.length_eq_zero_iff.mp (by omega)
      exact ⟨true, u.log, rfl, by simp [hnil]⟩
  · have hcheck : u.checkImage env = u.checkSignature env v := by simp only [checkImage, hver]
    have hpass : EmptyPasses env u ↔ v.length = 0 ∧ v.verify [] [] = true := by
      simp only [EmptyPasses, hver]
    rw [hcheck, hpass]
    by_cases hlen : v.length = 0
    · obtain ⟨log, heq⟩ := checkSignature_empty env hlen hs
      rw [heq]
      cases hv : v.verify [] [] with
      | true => exact ⟨true, log, by simp, by simp [hlen]⟩
      | false => exact ⟨false, log, by simp, by simp⟩
    · have hread := readSigLen_reset hs ha
      refine ⟨false, u.log, ?_, by simp [hlen]⟩
      have hne : u.readSigLen.1 ≠ v.length := by omega
      have hpos : v.length > 0 := by omega
      simp [checkSignature, hpos, hne]

/-- **After a failed flush** `end(true)` returns true exactly when the checks
pass on what the reset has left. -/
theorem finish_reset_iff (hs : u.size = 0) (ha : u.startAddress = 0)
    (hc : u.command = U_FLASH) : (u.finish env).1 = true ↔ LeftoverPasses env u := by
  obtain ⟨ok, log, hcheck, hok⟩ := checkImage_reset env hs ha
  rw [LeftoverPasses, ← hok, finish, hcheck]
  cases ok with
  | false => simp
  | true =>
    rw [if_pos rfl]
    dsimp only
    rw [verifyEnd, if_pos hc, ha]
    dsimp only
    generalize flashReadWords 0 0 4 u.chip = r
    obtain ⟨buf, c⟩ := r
    cases buf with
    | none => simp
    | some buf => cases hverdict : headerVerdict F buf <;> simp [hverdict]

/-- The mailbox holds the command for an image of `n` bytes at
`startAddress`. -/
def Stored (rtc : Rtc) (startAddress n : Nat) : Prop :=
  ∃ cmd, Eboot.ebootCommandRead rtc = (0, cmd) ∧
    cmd.action = EbootCommand.ACTION_COPY_RAW ∧ cmd.arg 0 = startAddress ∧
    cmd.arg 1 = 0 ∧ cmd.arg 2 = n

theorem stored_copyCommand (env : EndEnv) (startAddress n : Nat) (rtc : Rtc) :
    Stored (ebootCommandWrite (copyCommand env startAddress n) rtc) startAddress n :=
  ⟨_, Eboot.ebootCommandRead_write _ _, rfl, (copyCommand_args env _ _).1,
    (copyCommand_args env _ _).2.1, (copyCommand_args env _ _).2.2⟩

/-- What the answer `r` of `end` should mean, for the update begun in `u₀`
that had accepted `acc` in state `u₁`: true only with all of `acc` in flash,
the command for it stored and no error recorded; and, where something was
accepted and nothing failed, no complaint that there was no data. -/
structure Truthful (u₀ : Updater F) (acc : List UInt8) (u₁ : Updater F) (even r : Bool)
    (u₂ : Updater F) : Prop where
  success : r = true → u₂.error = .ok ∧
    Holds u₂.chip.cells u₀.startAddress (u₀.toProgram acc) ∧
    (u₀.command = U_FLASH →
      Stored u₂.rtc u₀.startAddress (payloadSize u₀.verifier acc.length))
  noData : even = true → acc ≠ [] → u₁.error = .ok → u₂.chip.faults = u₀.chip.faults →
    u₂.error ≠ .noData

/-- The flush that `end(true)` makes fails, and the checks that follow it
pass on what the reset has left. -/
structure FlushLost (env : EndEnv) (u : Updater F) : Prop where
  flushed : u.progress ≠ 0
  flushes : 0 < u.bufferLen
  fails : u.writeBuffer.1 = false
  passes : LeftoverPasses env u.writeBuffer.2

/-- Bytes have been accepted, but all of them are still in the buffer. -/
structure Unflushed (u₀ : Updater F) (acc : List UInt8) (u : Updater F) : Prop where
  running : u.error = .ok
  accepted : acc ≠ []
  fits : acc.length ≤ u₀.bufferSize
  incomplete : acc.length ≠ u₀.size

section

variable {u₀ u₁ u₂ v : Updater F} {acc : List UInt8} {r : Bool}

theorem Flushed.truthful (h : Flushed u₀ acc v)
    (hend : v.finish env = (r, u₂)) (even : Bool) : Truthful u₀ acc u₁ even r u₂ where
  success hr := by
    subst hr
    obtain ⟨hro, herr, hrtc, -⟩ := finish_true hend
    refine ⟨herr.trans h.error, ?_, fun hc => ?_⟩
    · rw [hro.cells, h.cells]
      exact rewritten_holds (by decide)
    · rw [hrtc, stagedRtc, h.command, if_pos hc, h.startAddress, h.verifier, h.size]
      exact stored_copyCommand env _ _ _
  noData _ _ _ _ hno := by
    have hchecked := (finish_checked env v).error
    rw [hend, h.error] at hchecked
    exact absurd (hno.symm.trans (hchecked (.inl hno))) (by simp)

theorem truthful_lost (hprogress : u₁.progress ≠ 0) (hpos : 0 < u₁.bufferLen)
    (hfail : u₁.writeBuffer.1 = false)
    (hend : u₁.flushRemaining.finish env = (r, u₂)) :
    Truthful u₀ acc u₁ true r u₂ ↔ ¬ FlushLost env u₁ := by
  obtain ⟨c, evs, e, he, -, heq, -⟩ :=
    writeBuffer_false (Prod.ext hfail rfl : u₁.writeBuffer = (false, u₁.writeBuffer.2))
  have hrem : u₁.flushRemaining = u₁.writeBuffer.2 := by
    have h0 : sub32 0 0 = 0 := by decide
    rw [Updater.flushRemaining, if_pos hpos, heq]
    simp only [progress, setError, reset, h0]
  have hpass : r = true ↔ LeftoverPasses env u₁.writeBuffer.2 := by
    rw [← finish_reset_iff (u := u₁.writeBuffer.2) (by rw [heq]; rfl) (by rw [heq]; rfl)
      (by rw [heq]; rfl), ← hrem, hend]
  have hchecked := finish_checked env u₁.flushRemaining
  rw [hend, hrem, heq] at hchecked
  constructor
  · intro htruth hlost
    have hr := hpass.mpr hlost.passes
    subst hr
    have herr := (finish_true hend).2.1
    rw [hrem, heq] at herr
    exact flushError_ne he (herr.symm.trans (htruth.success rfl).1)
  · intro hlost
    refine ⟨fun hr => absurd ⟨hprogress, hpos, hfail, hpass.mp hr⟩ hlost, ?_⟩
    intro _ _ _ _ hno
    have hno' : UpdateError.noData = e := hno.symm.trans (hchecked.error (.inl hno))
    rcases he with rfl | rfl <;> cases hno'

/-- **When `end` can be believed.**  Its answer means what it should exactly
when it is not `end(true)` on an update of which everything accepted is still
in the buffer, and not `end(true)` with a last flush that fails while the
checks pass on what the reset has left. -/
theorem end_truthful_iff {L : Layout} {benv : BeginEnv} {size : Nat} (hsize : size < 4294967296)
    {command : Int} {u : Updater F} (hbegin : beginUpdate L benv size command u = (true, u₀))
    {expected_md5 : Option (List Char)} {chunks : List (List UInt8)}
    (hwrite : writeAll chunks (u₀.announce expected_md5) = (acc, u₁)) {even : Bool}
    (hend : u₁.endUpdate env even = (r, u₂)) :
    Truthful (u₀.announce expected_md5) acc u₁ even r u₂ ↔
      ¬ (even = true ∧
        (FlushLost env u₁ ∨ Unflushed (u₀.announce expected_md5) acc u₁)) := by
  have hb := (beginUpdate_begun hsize hbegin).announce expected_md5
  generalize u₀.announce expected_md5 = v at *
  rcases hb.accepted.writeAll hb hwrite with ⟨-, hacc⟩ | hdrop
  · rw [List.nil_append] at hacc
    have hrunning : u₁.error = .ok := hacc.error.trans hb.error
    by_cases h0 : acc.length ≤ v.bufferSize ∧ acc.length ≠ v.size
    · have hf := (flushedLen_eq_zero_iff hb).mpr h0
      have hlost : ¬ FlushLost env u₁ := fun h => h.flushed ((hacc.progress hb).trans hf)
      have hchip : u₁.chip = v.chip := hacc.untouched hf
      rw [hacc.end_noData hb h0] at hend
      obtain ⟨rfl, rfl⟩ := Prod.mk.inj hend
      constructor
      · rintro htruth ⟨heven, hbad⟩
        have hun := hbad.resolve_left hlost
        exact htruth.noData heven hun.accepted hrunning (congrArg Chip.faults hchip) rfl
      · intro hgood
        refine ⟨by simp, fun heven hne _ _ _ => hgood ⟨heven, .inr ?_⟩⟩
        exact ⟨hrunning, hne, h0.1, h0.2⟩
    · rw [hacc.end_eq hb h0] at hend
      have hunflushed : ¬ Unflushed v acc u₁ := fun h => h0 ⟨h.fits, h.incomplete⟩
      have hprogress : u₁.progress ≠ 0 := by
        rwa [hacc.progress hb, ne_eq, flushedLen_eq_zero_iff hb]
      cases even with
      | true =>
        rw [if_pos rfl] at hend
        by_cases hfail : 0 < u₁.bufferLen ∧ u₁.writeBuffer.1 = false
        · rw [truthful_lost hprogress hfail.1 hfail.2 hend]
          simp [hunflushed]
        · have hflushed := hacc.flushRemaining hb (by simpa using hfail)
          have hlost : ¬ FlushLost env u₁ := fun h => hfail ⟨h.flushes, h.fails⟩
          exact iff_of_true (hflushed.truthful hend true) (by simp [hlost, hunflushed])
      | false =>
        rw [if_neg (by simp)] at hend
        refine iff_of_true ?_ (by simp)
        split at hend
        · rename_i hlen
          exact (hacc.flushed hb hlen).truthful hend false
        · obtain ⟨rfl, -⟩ := Prod.mk.inj hend
          exact ⟨by simp, by simp⟩
  · rw [endUpdate_dropped hdrop] at hend
    obtain ⟨rfl, -⟩ := Prod.mk.inj hend
    have hlost : ¬ FlushLost env u₁ := fun h => by
      have := h.flushes
      have := hdrop.bufferLen
      omega
    exact iff_of_true ⟨by simp, fun _ _ h => absurd h hdrop.error⟩
      fun h => h.2.elim hlost fun h => hdrop.error h.running

end

/-- A complete image on a chip that does not fail. -/
theorem end_truthful_sample :
    let written := sampleWritten (fun _ => false) 5 [[0xE9, 1, 2], [0, 7]]
    let ended := written.2.endUpdate sampleEnd false
    Truthful (sampleBegun (fun _ => false) 5) written.1 written.2 false ended.1 ended.2 := by
  intro written ended
  have hwrite : writeAll [[0xE9, 1, 2], [0, 7]]
      ((sampleBegun (fun _ => false) 5).announce none) = (written.1, written.2) :=
    Prod.eta _ |>.symm
  exact (end_truthful_iff (by decide) sampleBegun_eq hwrite (Prod.eta _).symm).mpr (by simp)

/-- The seventh call of a chip is the write of the last 44 bytes: it fails,
`end(true)` returns true.  And with 200 of 1000 bytes accepted on a chip that
does not fail, `end(true)` says that there was no data. -/
theorem end_not_truthful :
    (let written := sampleWritten (fun n => n = 6) 1000 [List.replicate 300 0xE9]
      let ended := written.2.endUpdate sampleEnd true
      ¬ Truthful (sampleBegun (fun n => n = 6) 1000) written.1 written.2 true ended.1 ended.2) ∧
    (let written := sampleWritten (fun _ => false) 1000 [List.replicate 200 0xE9]
      let ended := written.2.endUpdate sampleEnd true
      ¬ Truthful (sampleBegun (fun _ => false) 1000) written.1 written.2 true ended.1 ended.2) := by
  constructor
  · intro written ended htruth
    have hok := (htruth.success (by decide +kernel)).1
    have herr : ended.2.error = .write := by decide +kernel
    rw [herr] at hok
    cases hok
  · intro written ended htruth
    exact htruth.noData rfl (by decide +kernel) (by decide +kernel) (by decide +kernel)
      (by decide +kernel)

end Updater
