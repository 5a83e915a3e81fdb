import RalioFirmware.Eboot.CopyOrder
import RalioFirmware.Eboot.Main

/-!
# Boots cut short

A copy the application has ordered is carried out by however many boots it
takes: each may be cut anywhere, and the next one starts over from the flash
and the command it finds.

`main` clears the command after the copy without looking at its result.  So
the copy is resumed as long as no boot whose copy failed gets that far, and a
boot that has got that far without one leaves the copy complete.
-/

open Word Bytes Nor Nor.Chip Crash Crash.Prog

namespace Eboot

variable {F : SpiFlash} {env : BootEnv F} {src dst size : Nat} {b b' c : Board F}

/-- The stored command orders a copy of an uncompressed image between regions
that are aligned and do not meet. -/
structure Staged (src dst size : Nat) (b : Board F) : Prop where
  valid : (ebootCommandRead b.rtc).1 = 0
  action : (ebootCommandRead b.rtc).2.action = EbootCommand.ACTION_COPY_RAW
  arg_src : (ebootCommandRead b.rtc).2.arg 0 = src
  arg_dst : (ebootCommandRead b.rtc).2.arg 1 = dst
  arg_size : (ebootCommandRead b.rtc).2.arg 2 = size
  word : src < 4294967296
  src_aligned : src % 4096 = 0
  dst_aligned : dst % 4096 = 0
  disjoint : src + size ≤ dst ∨ dst + size ≤ src
  uncompressed : Uncompressed b.chip.cells src

/-- A boot, cut or not, takes the board from `b` to `b'`. -/
def BootTo (env : BootEnv F) (b b' : Board F) : Prop :=
  (main env).Cut b b' ∨ ((main env).run b).2 = b'

/-- The board as `copy_raw` finds it. -/
def atCopy (b : Board F) : Board F := ((printVersion 0).run b).2

/-- The boot does not go wrong: no failed read of the probe leaves a gzip
signature in the buffer, and if a flash call of the copy fails, the boot is
cut before it clears the command. -/
def Spared (src dst size : Nat) (env : BootEnv F) (b b' : Board F) : Prop :=
  ((isGzip env src).run (atCopy b)).1 = false ∧
    ((mainCopy env).Cut b b' ∨
      ((copyRaw env src dst size false).run (atCopy b)).2.chip.faults =
        ((isGzip env src).run (atCopy b)).2.chip.faults)

/-- The boots after a command was stored on the board `b₀`, each meeting `ok`
as long as the command stands; no other command is stored meanwhile.  A
restart keeps flash and RTC memory. -/
inductive Restarts (ok : BootEnv F → Board F → Board F → Prop) (b₀ : Board F) : Board F → Prop
  | stored : Restarts ok b₀ b₀
  | boot {env : BootEnv F} {b c b' : Board F} : Restarts ok b₀ b → Same b c →
      (c.rtc = b₀.rtc ∨ (ebootCommandRead c.rtc).1 ≠ 0) → BootTo env c b' →
      (c.rtc = b₀.rtc → ok env c b') → Restarts ok b₀ b'

/-- What is expected of a boot from `c` to `b'` after the command was stored
on `b₀`: once it goes through without a failing call the destination holds
what it would after a single such boot, and if it clears the command its copy
was complete. -/
structure Recovers (src dst size : Nat) (b₀ : Board F) (env : BootEnv F) (c b' : Board F) :
    Prop where
  completes : ((main env).run c).2 = b' → b'.chip.faults = c.chip.faults →
    b'.chip.cells = copied b₀.chip.cells src dst (copyLength size) ∧
      ∀ env₁ b₁, ((main env₁).run b₀).2 = b₁ → b₁.chip.faults = b₀.chip.faults →
        b'.chip.cells = b₁.chip.cells
  clears : c.rtc = b₀.rtc → b'.rtc ≠ c.rtc →
    ((copyRaw env src dst size false).run (atCopy c)).1 = 0 ∧
      b'.chip.cells = copied b₀.chip.cells src dst (copyLength size)

/-! ## The regions -/

theorem Staged.apart (h : Staged src dst size b) :
    src + copyLength size ≤ dst ∨ dst + copyLength size ≤ src := by
  have hle := @copyLength_le size
  have hsrc := h.src_aligned
  have hdst := h.dst_aligned
  unfold roundUp at hle
  rcases h.disjoint with hd | hd
  · left
    omega
  · right
    omega

theorem Staged.separate (h : Staged src dst size b) :
    dst ≤ src ∨ src + copyLength size ≤ dst := by
  rcases h.apart with hd | hd
  · exact .inr hd
  · exact .inl (by omega)

theorem Staged.frame (h : Staged src dst size b) (hf : Frame dst (copyLength size) b c) :
    Staged src dst size c := by
  have hmod := copyLength_mod size
  have hout : ∀ x, x = src ∨ x = src + 1 → c.chip.cells x = b.chip.cells x := by
    intro x hx
    refine hf.2 x ?_
    rcases h.apart with hd | hd <;> omega
  refine { h with valid := ?_, action := ?_, arg_src := ?_, arg_dst := ?_, arg_size := ?_,
                  uncompressed := ?_ }
  · rw [hf.1, h.valid]
  · rw [hf.1, h.action]
  · rw [hf.1, h.arg_src]
  · rw [hf.1, h.arg_dst]
  · rw [hf.1, h.arg_size]
  · rw [Uncompressed, hout src (.inl rfl), hout (src + 1) (.inr rfl)]
    exact h.uncompressed

theorem Staged.copied_again (h : Staged src dst size b)
    (hf : Frame dst (copyLength size) b c) :
    copied c.chip.cells src dst (copyLength size) =
      copied b.chip.cells src dst (copyLength size) := by
  funext x
  unfold copied
  by_cases hx : dst ≤ x ∧ x < dst + copyLength size
  · rw [if_pos hx, if_pos hx]
    refine hf.2 _ ?_
    rcases h.apart with hd | hd <;> omega
  · rw [if_neg hx, if_neg hx]
    exact hf.2 x (by omega)

theorem frame_of_copied (hr : c.rtc = b.rtc)
    (hc : c.chip.cells = copied b.chip.cells src dst size) : Frame dst size b c := by
  refine ⟨hr, fun x hx => ?_⟩
  rw [hc, copied, if_neg (by omega)]

/-! ## One boot -/

theorem copyRaw_unprobed (h : Staged src dst size b)
    (hprobe : ((isGzip env src).run b).1 = false) :
    wp (Frame dst (copyLength size) b) (Copied src dst (copyLength size) b)
      (copyRaw env src dst size false) b := by
  have hword := h.word
  have hsrc := h.src_aligned
  unfold copyRaw
  rw [if_neg (by rw [and_fff, and_fff, h.src_aligned, h.dst_aligned]; simp)]
  refine wp_bind ((isGzip_spec env (by omega) b h.uncompressed).ran.mono
    (fun b' h => frame_of_cells _ _ h.1 h.2) ?_)
  rintro z b₁ - ⟨⟨hsame, hle, -⟩, hrun⟩
  rw [hrun] at hprobe
  obtain rfl : z = false := hprobe
  rw [if_neg (by simp)]
  exact copyLoop_all env.uzlib h.dst_aligned h.separate hsame hle

theorem copyRaw_succeeds (h : Staged src dst size b)
    (hprobe : ((isGzip env src).run b).1 = false)
    (hfaults : ((copyRaw env src dst size false).run b).2.chip.faults =
      ((isGzip env src).run b).2.chip.faults) :
    ((copyRaw env src dst size false).run b).1 = 0 := by
  have hword := h.word
  have hsrc := h.src_aligned
  by_contra hres
  unfold copyRaw at hfaults hres
  rw [if_neg (by rw [and_fff, and_fff, h.src_aligned, h.dst_aligned]; simp), run_bind, hprobe,
    if_neg (by simp)] at hfaults hres
  have hloop := (copyLoop_all env.uzlib h.dst_aligned h.separate
    (⟨rfl, rfl⟩ : Same ((isGzip env src).run b).2 _) (Nat.le_refl _)).run
  exact Nat.ne_of_gt (hloop.2.2 hres) hfaults

theorem Same.trans (h : Same b c) (h' : Same c b') : Same b b' :=
  ⟨h'.1.trans h.1, h'.2.trans h.2⟩

theorem printVersion_wp (b : Board F) : wp (Same b) (fun _ => Same b) (printVersion 0) b := by
  refine wp_bind (wp_SPIRead (fun b' hr hc => ⟨hr, hc⟩) fun r b₁ hr hc _ _ => ?_)
  cases r with
  | none => exact wp_ret ⟨hr, hc⟩ ⟨hr, hc⟩
  | some bytes => exact wp_ret ⟨hr, hc⟩ ⟨hr, hc⟩

theorem atCopy_same (b : Board F) : Same b (atCopy b) := (printVersion_wp b).run

theorem Staged.atCopy (h : Staged src dst size b) : Staged src dst size (atCopy b) :=
  h.frame (frame_of_cells _ _ (atCopy_same b).1 (atCopy_same b).2)

theorem wp_commandRead {C : Board F → Prop} {Q : Nat × EbootCommand → Board F → Prop}
    (hC : ∀ b', Same b b' → C b') (hQ : Q (ebootCommandRead b.rtc) b) : wp C Q commandRead b :=
  wp_bind (wp_perform (hC b ⟨rfl, rfl⟩) (fun b' ht => hC b' ⟨ht.1, ht.2⟩) (hC b ⟨rfl, rfl⟩)
    (wp_ret (hC b ⟨rfl, rfl⟩) hQ))

theorem mainAct_copy {cmd : EbootCommand} (clear_cmd : Bool)
    (h : cmd.action = EbootCommand.ACTION_COPY_RAW) :
    mainAct env clear_cmd cmd = (do
      let res ← copyRaw env (cmd.arg 0) (cmd.arg 1) (cmd.arg 2) false
      pure (afterCopy clear_cmd cmd res)) :=
  if_pos h

theorem mainCopy_run (h : Staged src dst size b) :
    (mainCopy env).run b =
      (afterCopy true (ebootCommandRead b.rtc).2
          ((copyRaw env src dst size false).run (Eboot.atCopy b)).1,
        ((copyRaw env src dst size false).run (Eboot.atCopy b)).2) := by
  have hread : (commandRead : Prog (rom F) _).run (Eboot.atCopy b) =
      (ebootCommandRead b.rtc, Eboot.atCopy b) := by
    show (ebootCommandRead (Eboot.atCopy b).rtc, Eboot.atCopy b) = _
    rw [(atCopy_same b).1]
  unfold mainCopy
  rw [run_bind]
  show ((commandRead : Prog (rom F) _) >>= _).run (Eboot.atCopy b) = _
  rw [run_bind, hread]
  dsimp only
  rw [if_pos h.valid, mainAct_copy true h.action, run_bind, h.arg_src, h.arg_dst, h.arg_size]
  rfl

theorem mainCopy_wp (h : Staged src dst size b)
    (hprobe : ((isGzip env src).run (Eboot.atCopy b)).1 = false) :
    wp (Frame dst (copyLength size) b) (fun _ _ => True) (mainCopy env) b := by
  have hframe : ∀ b', Same b b' → Frame dst (copyLength size) b b' :=
    fun b' hs => frame_of_cells _ _ hs.1 hs.2
  refine wp_bind ((printVersion_wp b).ran.mono hframe ?_)
  rintro _ b₁ - ⟨hsame, hrun⟩
  obtain rfl : Eboot.atCopy b = b₁ := congrArg (·.2) hrun
  refine wp_bind (wp_commandRead (fun b' hs => hframe b' (hsame.trans hs)) ?_)
  dsimp only
  rw [hsame.1, if_pos h.valid, mainAct_copy true h.action, h.arg_src, h.arg_dst, h.arg_size]
  refine wp_bind ((copyRaw_unprobed h.atCopy hprobe).mono
    (fun b' hf => (hframe _ hsame).trans hf) ?_)
  intro res b' hf _
  exact wp_ret ((hframe _ hsame).trans hf) trivial

theorem main_run (b : Board F) :
    (main env).run b =
      (mainLoad ((mainCopy env).run b).1 : Prog (rom F) _).run ((mainCopy env).run b).2 :=
  run_bind _ _ _

theorem mainLoad_wp (env : BootEnv F) (b : Board F) :
    wp (SameCells ((mainCopy env).run b).2) (fun _ => SameCells ((mainCopy env).run b).2)
      (mainLoad ((mainCopy env).run b).1) ((mainCopy env).run b).2 :=
  quiet_mainLoad _ _ _ rfl

theorem bootTo_cases (hboot : BootTo env b b') :
    (mainCopy env).Cut b b' ∨ SameCells ((mainCopy env).run b).2 b' := by
  rcases hboot with hcut | rfl
  · rcases hcut.of_bind with hcut | hcut
    · exact .inl hcut
    · exact .inr ((mainLoad_wp env b).cut hcut)
  · right
    rw [main_run]
    exact (mainLoad_wp env b).run

/-- **A boot with a copy ordered** leaves the order standing, or has carried
it out. -/
theorem bootTo_staged (h : Staged src dst size b) (hboot : BootTo env b b')
    (hspared : Spared src dst size env b b') :
    Frame dst (copyLength size) b b' ∨
      ((copyRaw env src dst size false).run (Eboot.atCopy b)).1 = 0 ∧
        b'.chip.cells = copied b.chip.cells src dst (copyLength size) := by
  obtain ⟨hprobe, hspared⟩ := hspared
  have hwp := mainCopy_wp h hprobe
  rcases bootTo_cases hboot with hcut | hcells
  · exact .inl (hwp.cut hcut)
  · rcases hspared with hcut | hfaults
    · exact .inl (hwp.cut hcut)
    · have hres := copyRaw_succeeds h.atCopy hprobe hfaults
      have hcopied := (copyRaw_unprobed h.atCopy hprobe).run.2.1 hres
      refine .inr ⟨hres, ?_⟩
      rw [SameCells, mainCopy_run h] at hcells
      rw [hcells, hcopied, (atCopy_same b).2]

theorem bootTo_idle (h : (ebootCommandRead b.rtc).1 ≠ 0) (hboot : BootTo env b b') :
    SameCells b b' := by
  have hmain : wp (SameCells b) (fun _ => SameCells b) (main env) b := by
    refine wp_bind (wp_bind ((printVersion_wp b).mono (fun _ hs => hs.2) ?_))
    rintro _ b₁ - hsame
    refine wp_bind (wp_commandRead (fun b' hs => Eq.trans hs.2 hsame.2) ?_)
    dsimp only
    rw [hsame.1, if_neg h]
    exact wp_ret hsame.2 (quiet_mainLoad _ b b₁ hsame.2)
  rcases hboot with hcut | rfl
  · exact hmain.cut hcut
  · exact hmain.run

/-! ## Any number of boots -/

/-- The board between two boots: the order stands, or has been carried
out. -/
def Between (src dst size : Nat) (b₀ b : Board F) : Prop :=
  (b.rtc = b₀.rtc → Frame dst (copyLength size) b₀ b) ∧
    (b.rtc ≠ b₀.rtc → b.chip.cells = copied b₀.chip.cells src dst (copyLength size))

variable {b₀ : Board F}

theorem between_of_copied
    (h : b.chip.cells = copied b₀.chip.cells src dst (copyLength size)) :
    Between src dst size b₀ b :=
  ⟨fun hr => frame_of_copied hr h, fun _ => h⟩

theorem Between.same (h : Between src dst size b₀ b) (hs : Same b c) :
    Between src dst size b₀ c := by
  refine ⟨fun hr => ?_, fun hr => ?_⟩
  · exact (h.1 (hs.1.symm.trans hr)).trans (frame_of_cells _ _ hs.1 hs.2)
  · rw [hs.2]
    exact h.2 (by rwa [← hs.1])

theorem Between.boot (h₀ : Staged src dst size b₀) (h : Between src dst size b₀ b)
    (hforce : b.rtc = b₀.rtc ∨ (ebootCommandRead b.rtc).1 ≠ 0) (hboot : BootTo env b b')
    (hspared : b.rtc = b₀.rtc → Spared src dst size env b b') : Between src dst size b₀ b' := by
  by_cases hr : b.rtc = b₀.rtc
  · have hf := h.1 hr
    rcases bootTo_staged (h₀.frame hf) hboot (hspared hr) with hf' | ⟨-, hcells⟩
    · exact ⟨fun _ => hf.trans hf', fun hne => absurd (hf'.1.trans hr) hne⟩
    · exact between_of_copied (hcells.trans (h₀.copied_again hf))
  · have hidle := bootTo_idle (hforce.resolve_left hr) hboot
    exact between_of_copied (Eq.trans hidle (h.2 hr))

theorem Restarts.between (h₀ : Staged src dst size b₀)
    (h : Restarts (Spared src dst size) b₀ b) : Between src dst size b₀ b := by
  induction h with
  | stored => exact ⟨fun _ => Frame.refl _ _ _, fun hne => absurd rfl hne⟩
  | boot _ hsame hforce hboot hspared ih => exact (ih.same hsame).boot h₀ hforce hboot hspared

theorem through_completes (h : Staged src dst size b) (hrun : ((main env).run b).2 = b')
    (hfaults : b'.chip.faults = b.chip.faults) :
    b'.chip.cells = copied b.chip.cells src dst (copyLength size) := by
  have hat := h.atCopy
  have hprint : b.chip.faults ≤ (Eboot.atCopy b).chip.faults :=
    run_faults_le (rfl : (printVersion 0).run b = (_, Eboot.atCopy b))
  have hcells := (mainLoad_wp env b).run
  have hload : ((mainCopy env).run b).2.chip.faults ≤ b'.chip.faults := by
    rw [← hrun, main_run]
    exact run_faults_le rfl
  rw [← main_run, hrun, SameCells, mainCopy_run h] at hcells
  rw [mainCopy_run h] at hload
  rw [hcells, ← (atCopy_same b).2]
  generalize hcopy : (copyRaw env src dst size false).run (Eboot.atCopy b) = r at hload ⊢
  obtain ⟨res, b₂⟩ := r
  have hgrow := run_faults_le hcopy
  dsimp only at hload
  obtain ⟨-, hgood, hbad⟩ := copyRaw_run hat.src_aligned hat.dst_aligned hat.word hat.uncompressed
    hat.separate hcopy (.inr (by omega))
  refine hgood ?_
  by_contra hres
  have := hbad hres
  omega

/-- **Power cuts.**  A copy ordered once is completed by the first boot that
goes through without a failing call, however many boots were cut before it,
and the command is cleared only by a boot whose copy was complete; as long as
every boot is spared. -/
theorem restarts_recover (h₀ : Staged src dst size b₀)
    (hreach : Restarts (Spared src dst size) b₀ b) (hsame : Same b c)
    (hforce : c.rtc = b₀.rtc ∨ (ebootCommandRead c.rtc).1 ≠ 0) (hboot : BootTo env c b')
    (hspared : c.rtc = b₀.rtc → Spared src dst size env c b') :
    Recovers src dst size b₀ env c b' := by
  have hc := (hreach.between h₀).same hsame
  constructor
  · intro hrun hfaults
    have hcells : b'.chip.cells = copied b₀.chip.cells src dst (copyLength size) := by
      by_cases hr : c.rtc = b₀.rtc
      · rw [through_completes (h₀.frame (hc.1 hr)) hrun hfaults, h₀.copied_again (hc.1 hr)]
      · exact Eq.trans (bootTo_idle (hforce.resolve_left hr) hboot) (hc.2 hr)
    exact ⟨hcells, fun env₁ b₁ hrun₁ hfaults₁ =>
      hcells.trans (through_completes h₀ hrun₁ hfaults₁).symm⟩
  · intro hr hne
    have hf := hc.1 hr
    rcases bootTo_staged (h₀.frame hf) hboot (hspared hr) with hf' | ⟨hres, hcells⟩
    · exact absurd hf'.1 hne
    · exact ⟨hres, hcells.trans (h₀.copied_again hf)⟩

theorem through_clears (h : Staged src dst size b)
    (hres : ((copyRaw env src dst size false).run (Eboot.atCopy b)).1 ≠ 0) :
    (ebootCommandRead ((main env).run b).2.rtc).1 = 1 := by
  refine EbootCommand.read_of_magic_zero _ ?_
  rw [main_run, mainCopy_run h, afterCopy, if_neg hres]
  unfold mainLoad
  rw [run_bind, if_neg (by rw [h.action]; decide)]
  rfl

def orderedRtc : Rtc :=
  Esp.ebootCommandWrite
    ⟨0, EbootCommand.ACTION_COPY_RAW, #v[0x2000, 0x1000, 5, 0, 0, 0, 0, 0, 0, 0, 0, 0, 0, 0, 0, 0,
      0, 0, 0, 0, 0, 0, 0, 0, 0, 0, 0, 0, 0], 0⟩ fun _ => 0

def orderedBoard (bad : Nat → Bool) : Board (bootFlash bad) :=
  { bootBoard bad with rtc := orderedRtc }

theorem orderedBoard_staged (bad : Nat → Bool) : Staged 0x2000 0x1000 5 (orderedBoard bad) := by
  have hread : ebootCommandRead (orderedBoard bad).rtc = (0, _) := ebootCommandRead_write _ _
  constructor
  · rw [hread]
  · rw [hread]
    rfl
  · rw [hread]
    rfl
  · rw [hread]
    rfl
  · rw [hread]
    rfl
  · decide
  · decide
  · decide
  · exact .inr (by decide)
  · exact .inl (show (0xE9 : UInt8) ≠ 0x1f by decide)

/-- A boot cut at once, and another that goes through. -/
theorem restarts_recover_five :
    Recovers 0x2000 0x1000 5 (orderedBoard fun _ => false) (bootEnv fun _ => false)
      (orderedBoard fun _ => false)
      ((main (bootEnv fun _ => false)).run (orderedBoard fun _ => false)).2 :=
  restarts_recover (orderedBoard_staged _)
    (@Restarts.boot _ _ _ (bootEnv fun _ => false) _ _ _ .stored ⟨rfl, rfl⟩ (.inl rfl)
      (.inl (.before _ _)) fun _ => ⟨by decide +kernel, .inl (.before _ _)⟩)
    ⟨rfl, rfl⟩ (.inl rfl) (.inr rfl) fun _ => ⟨by decide +kernel, .inr (by decide +kernel)⟩

/-- When the first erase fails, the boot clears the command all the same. -/
theorem not_restarts_recover :
    ¬ ∀ (F : SpiFlash) (src dst size : Nat) (b₀ b c b' : Board F) (env : BootEnv F),
      Staged src dst size b₀ → Restarts (fun _ _ _ => True) b₀ b → Same b c →
      (c.rtc = b₀.rtc ∨ (ebootCommandRead c.rtc).1 ≠ 0) → BootTo env c b' →
      Recovers src dst size b₀ env c b' := by
  intro h
  have hrec := h (bootFlash fun n => n == 3) 0x2000 0x1000 5 (orderedBoard _) (orderedBoard _)
    (orderedBoard _) _ (bootEnv _) (orderedBoard_staged _) .stored ⟨rfl, rfl⟩ (.inl rfl) (.inr rfl)
  have hres : ((copyRaw (bootEnv fun n => n == 3) 0x2000 0x1000 5 false).run
      (Eboot.atCopy (orderedBoard _))).1 = 2 := by decide +kernel
  have hcleared := @through_clears _ (bootEnv fun n => n == 3) _ _ _ _
    (orderedBoard_staged fun n => n == 3) (by rw [hres]; decide)
  refine absurd (hrec.clears rfl fun hr => ?_).1 (by rw [hres]; decide)
  rw [hr, (orderedBoard_staged fun n => n == 3).valid] at hcleared
  exact absurd hcleared (by decide)

end Eboot
