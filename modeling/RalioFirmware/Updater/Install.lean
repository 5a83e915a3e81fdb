import RalioFirmware.Updater.End
import RalioFirmware.Eboot.CopyRaw

/-!
# An update from `begin` to the copy of the boot loader

The updater stages an image and leaves a command; the boot loader, another
program, reads the command and copies.  `ota_installs` puts the two together.
-/

open Word Bytes Nor Nor.Chip Esp

namespace Updater

variable {F : SpiFlash}

theorem toProgram_getElem? (u : Updater F) (bytes : List UInt8) {i : Nat} (hi : i ≠ 2) :
    (u.toProgram bytes)[i]? = bytes[i]? := by
  unfold toProgram patchMode
  split
  · split
    · rw [List.getElem?_set_ne (Ne.symm hi)]
    · rfl
  · rfl

theorem beginUpdate_readOnly {L : Layout} {env : BeginEnv} {size : Nat} {command : Int}
    {u u₀ : Updater F} (h : beginUpdate L env size command u = (true, u₀)) :
    ReadOnly u.chip u₀.chip ∧ u₀.rtc = u.rtc ∧ u₀.size = size ∧ u₀.command = command ∧
      u₀.verifier = u.verifier := by
  obtain ⟨-, c, start, block, hro, -, -, rfl⟩ := beginUpdate_true h
  exact ⟨hro, rfl, rfl, rfl, rfl⟩

theorem copyRaw_staged {u₀ : Updater F} (hb : Begun u₀) {image : List UInt8} {f : Nat → UInt8}
    (hmagic : image.head? = some 0xE9) {board board' : Eboot.Board F}
    (hcells : board.chip.cells = rewritten 4096 f u₀.startAddress (u₀.toProgram image))
    {n res : Nat} (hn : n ≤ image.length) (hmax : n ≤ 0x1000000) {boot : Eboot.BootEnv F}
    (hrun : (Eboot.copyRaw boot u₀.startAddress 0 n false).run board = (res, board'))
    (hclean : boot.StackClean ∨ board'.chip.faults = board.chip.faults) :
    (board'.chip.faults = board.chip.faults → res = 0) ∧
      (res = 0 → ∀ i, i < n → i ≠ 2 → some (board'.chip.cells i) = image[i]?) ∧
      (∀ x, roundUp 4096 n ≤ x → board'.chip.cells x = board.chip.cells x) ∧
      board'.rtc = board.rtc := by
  have hstart := hb.start_lt
  have hstaged : ∀ i, i < image.length → i ≠ 2 →
      some (board.chip.cells (u₀.startAddress + i)) = image[i]? := by
    intro i hi h2
    have hi' : i < (u₀.toProgram image).length := by rwa [toProgram_length]
    rw [hcells, rewritten_holds (by decide) i hi', ← toProgram_getElem? u₀ image h2,
      List.getElem?_eq_getElem hi']
  have hfirst : Eboot.Uncompressed board.chip.cells u₀.startAddress := by
    left
    have hpos : 0 < image.length := by grind
    have h0 := hstaged 0 hpos (by decide)
    rw [Nat.add_zero, ← List.head?_eq_getElem?, hmagic] at h0
    rw [Option.some.inj h0]
    decide
  obtain ⟨hframe, hgood, hbad⟩ := Eboot.copyRaw_run hb.start_aligned (by decide) (by omega)
    hfirst (.inl (Nat.zero_le _)) hrun hclean
  have hlen : Eboot.copyLength n = roundUp 4096 n := Eboot.copyLength_eq hmax
  have hround := le_roundUp (show 0 < 4096 by decide) n
  rw [hlen] at hframe hgood
  refine ⟨fun hf => ?_, fun hres i hi h2 => ?_, fun x hx => hframe.2 x (by omega), hframe.1⟩
  · cases hres : decide (res = 0) with
    | true => exact of_decide_eq_true hres
    | false =>
      have := hbad (of_decide_eq_false hres)
      omega
  · rw [hgood hres, Eboot.copied, if_pos (by omega), Nat.sub_zero]
    exact hstaged i (by omega) h2

theorem copyCommand_args (env : EndEnv) (startAddress size : Nat) :
    (copyCommand env startAddress size).arg 0 = startAddress ∧
      (copyCommand env startAddress size).arg 1 = 0 ∧
      (copyCommand env startAddress size).arg 2 = size := by
  refine ⟨?_, ?_, ?_⟩ <;> simp [copyCommand, EbootCommand.arg]

/-- **An update installs its image.**  If `begin`, every write and
`end(false)` succeed for an image that starts with the magic byte, the boot
loader finds the command to copy what was staged to address 0, and a copy
that reports success leaves the image there in every byte but the mode byte.
Up to the reboot only the staging region and the mailbox have changed, the
copy changes only the destination region. -/
theorem ota_installs {L : Layout} {env : BeginEnv} {size : Nat} (hsize : size < 4294967296)
    {u u₀ u₁ u₂ : Updater F} (hbegin : beginUpdate L env size U_FLASH u = (true, u₀))
    {expected_md5 : Option (List Char)} {chunks : List (List UInt8)}
    (hwrite : writeAll chunks (u₀.announce expected_md5) = (chunks.flatten, u₁))
    (hmagic : chunks.flatten.head? = some 0xE9) {eenv : EndEnv}
    (hend : u₁.endUpdate eenv false = (true, u₂)) :
    chunks.flatten.length = size ∧
    (∀ x, x < u₀.startAddress ∨ u₀.startAddress + roundUp 4096 size ≤ x →
      u₂.chip.cells x = u.chip.cells x) ∧
    (∀ i, 32 ≤ i → u₂.rtc i = u.rtc i) ∧
    ∃ cmd, Eboot.ebootCommandRead u₂.rtc = (0, cmd) ∧
      cmd.action = EbootCommand.ACTION_COPY_RAW ∧ cmd.arg 0 = u₀.startAddress ∧
      cmd.arg 1 = 0 ∧ cmd.arg 2 = payloadSize u.verifier size ∧
      ∀ (boot : Eboot.BootEnv F) (board board' : Eboot.Board F) (res : Nat),
        board.chip.cells = u₂.chip.cells →
        (Eboot.copyRaw boot (cmd.arg 0) (cmd.arg 1) (cmd.arg 2) false).run board = (res, board') →
        boot.StackClean ∨ board'.chip.faults = board.chip.faults →
        (board'.chip.faults = board.chip.faults → res = 0) ∧
        (res = 0 → ∀ i, i < cmd.arg 2 → i ≠ 2 →
          some (board'.chip.cells i) = chunks.flatten[i]?) ∧
        (∀ x, roundUp 4096 (cmd.arg 2) ≤ x → board'.chip.cells x = board.chip.cells x) ∧
        board'.rtc = board.rtc := by
  have hb₀ := beginUpdate_begun hsize hbegin
  obtain ⟨hro, hrtc, hsz, hcommand, hver⟩ := beginUpdate_readOnly hbegin
  have hb := hb₀.announce expected_md5
  obtain ⟨text, hann⟩ := announce_eq expected_md5 u₀
  rw [hann] at hwrite hb
  generalize hv : ({ u₀ with target_md5 := text } : Updater F) = v at hwrite hb
  have hvstart : v.startAddress = u₀.startAddress := by rw [← hv]
  have hvsize : v.size = size := by rw [← hv, ← hsz]
  have hvchip : v.chip.cells = u.chip.cells := by rw [← hv]; exact hro.cells
  rcases hb.accepted.writeAll hb hwrite with ⟨-, hacc⟩ | hdrop
  · rw [List.nil_append] at hacc
    generalize chunks.flatten = image at hmagic hacc ⊢
    by_cases h0 : image.length ≤ v.bufferSize ∧ image.length ≠ v.size
    · rw [hacc.end_noData hb h0] at hend
      simp at hend
    rw [hacc.end_eq hb h0, if_neg (by simp)] at hend
    by_cases hlen : image.length = v.size
    · rw [if_pos hlen] at hend
      obtain ⟨hro₂, -, hrtc₂, -⟩ := finish_true hend
      have hflushed := hacc.flushed hb hlen
      have hcells : u₂.chip.cells = rewritten 4096 u.chip.cells u₀.startAddress
          (v.toProgram image) := by rw [hro₂.cells, hflushed.cells, hvchip, hvstart]
      have hstage : u₂.rtc = ebootCommandWrite
          (copyCommand eenv u₀.startAddress (payloadSize u.verifier size)) u.rtc := by
        rw [hrtc₂, stagedRtc, hflushed.command, hflushed.startAddress, hflushed.verifier,
          hflushed.size, hflushed.rtc, hlen, hvsize, hvstart, ← hv]
        dsimp only
        rw [if_pos hcommand, hver, hrtc]
      have hpay : payloadSize u.verifier size ≤ image.length := by
        rw [hlen, hvsize]
        unfold payloadSize
        split
        · split <;> omega
        · exact Nat.le_refl _
      refine ⟨hlen.trans hvsize, fun x hx => ?_, fun i hi => ?_, _,
        by rw [hstage]; exact Eboot.ebootCommandRead_write _ _, rfl, ?_, ?_, ?_, ?_⟩
      · rw [hcells, rewritten_else (by rw [toProgram_length, hlen, hvsize]; exact hx)]
      · rw [hstage]
        exact EbootCommand.write_other _ _ _ hi
      · exact (copyCommand_args eenv _ _).1
      · exact (copyCommand_args eenv _ _).2.1
      · exact (copyCommand_args eenv _ _).2.2
      · intro boot board board' res hboard hrun hclean
        have hargs := copyCommand_args eenv u₀.startAddress (payloadSize u.verifier size)
        rw [EbootCommand.sealed_arg, EbootCommand.sealed_arg, EbootCommand.sealed_arg,
          hargs.1, hargs.2.1, hargs.2.2, ← hvstart] at hrun
        rw [EbootCommand.sealed_arg, hargs.2.2]
        rw [← hvstart] at hcells
        have hmax := F.capacity_le
        exact copyRaw_staged hb hmagic (hboard.trans hcells) hpay
          (by
            rcases hflushed.within with rfl | hcap
            · simp_all
            · omega) hrun hclean
    · grind
  · rw [endUpdate_dropped hdrop] at hend
    simp at hend

/-- A sketch of five bytes, written in two pieces. -/
theorem ota_installs_sample :
    let written := sampleWritten (fun _ => false) 5 [[0xE9, 1, 2], [0, 7]]
    let ended := written.2.endUpdate sampleEnd false
    ∃ cmd, Eboot.ebootCommandRead ended.2.rtc = (0, cmd) ∧
      cmd.action = EbootCommand.ACTION_COPY_RAW ∧ cmd.arg 1 = 0 ∧ cmd.arg 2 = 5 := by
  intro written ended
  have hwrite : writeAll [[0xE9, 1, 2], [0, 7]]
      ((sampleBegun (fun _ => false) 5).announce none) =
        ([[0xE9, 1, 2], [0, 7]].flatten, written.2) := eq_mk_snd (by decide +kernel)
  have hend : written.2.endUpdate sampleEnd false = (true, ended.2) :=
    eq_mk_snd (by decide +kernel)
  obtain ⟨-, -, -, cmd, hread, haction, -, h1, h2, -⟩ :=
    ota_installs (by decide) sampleBegun_eq hwrite (by decide) hend
  exact ⟨cmd, hread, haction, h1, h2⟩

end Updater
