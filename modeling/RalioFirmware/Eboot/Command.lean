import RalioFirmware.Basis.Word
import RalioFirmware.Esp.Image

/-!
# The eboot command mailbox

The application leaves a command for the boot loader in the first 128 bytes
of RTC memory: a magic word, an action, 29 arguments and a CRC over all of
it.  Both programs carry their own copy of the three accessors, over their
own copy of the CRC.
-/

open Word

/-- `struct eboot_command`. -/
structure EbootCommand where
  magic : Nat
  action : Nat
  args : Vector Nat 29
  crc32 : Nat
deriving DecidableEq

abbrev Rtc := Nat → Nat

namespace EbootCommand

def arg (cmd : EbootCommand) (i : Nat) : Nat := cmd.args.toList.getD i 0

def ACTION_COPY_RAW : Nat := 0x00000001
def ACTION_LOAD_APP : Nat := 0xffffffff
def EBOOT_MAGIC : Nat := 0xeb001000

def coveredWords (cmd : EbootCommand) : List Nat := cmd.magic :: cmd.action :: cmd.args.toList

/-- `eboot_command_calculate_crc32`, over the CRC function of one of the two
programs. -/
def calculateCrc32 (crc : List UInt8 → UInt32) (cmd : EbootCommand) : Nat :=
  (crc (cmd.coveredWords.flatMap le32)).toNat

/-- `eboot_command_read`: 0 and the command when it is valid, 1 and whatever
stood in RTC memory when it is not. -/
def read (crc : List UInt8 → UInt32) (rtc : Rtc) : Nat × EbootCommand :=
  let cmd : EbootCommand :=
    { magic := rtc 0, action := rtc 1, args := .ofFn fun i => rtc (2 + i), crc32 := rtc 31 }
  if clearLow 12 cmd.magic ≠ EBOOT_MAGIC ∨ cmd.crc32 ≠ cmd.calculateCrc32 crc then (1, cmd)
  else (0, cmd)

/-- The command as `eboot_command_write` completes it. -/
def sealed (crc : List UInt8 → UInt32) (cmd : EbootCommand) : EbootCommand :=
  let cmd := { cmd with magic := EBOOT_MAGIC }
  { cmd with crc32 := cmd.calculateCrc32 crc }

theorem sealed_arg (crc : List UInt8 → UInt32) (cmd : EbootCommand) (i : Nat) :
    (cmd.sealed crc).arg i = cmd.arg i := rfl

/-- `eboot_command_write`. -/
def write (crc : List UInt8 → UInt32) (cmd : EbootCommand) (rtc : Rtc) : Rtc :=
  let cmd := cmd.sealed crc
  fun i =>
    if i = 0 then cmd.magic
    else if i = 1 then cmd.action
    else if h : i - 2 < 29 then cmd.args[i - 2]
    else if i = 31 then cmd.crc32
    else rtc i

/-- `eboot_command_clear`. -/
def clear (rtc : Rtc) : Rtc := fun i => if i = 0 then 0 else if i = 31 then 0 else rtc i

/-- **The mailbox round trip.**  What is written is read back as it was
completed, when both sides compute the same CRC. -/
theorem read_write (crc : List UInt8 → UInt32) (cmd : EbootCommand) (rtc : Rtc) :
    read crc (write crc cmd rtc) = (0, cmd.sealed crc) := by
  have hargs : (Vector.ofFn fun i : Fin 29 => write crc cmd rtc (2 + i)) = cmd.args := by
    apply Vector.ext
    intro i hi
    have h1 : 2 + i ≠ 1 := by omega
    simp [write, sealed, h1]
  have hcmd : (⟨write crc cmd rtc 0, write crc cmd rtc 1,
      .ofFn fun i : Fin 29 => write crc cmd rtc (2 + i), write crc cmd rtc 31⟩ : EbootCommand) =
      cmd.sealed crc := by
    rw [hargs]
    rfl
  simp only [read, hcmd]
  rw [if_neg]
  simp only [ne_eq, not_or, Decidable.not_not]
  exact ⟨by show clearLow 12 EBOOT_MAGIC = EBOOT_MAGIC; decide, rfl⟩

theorem read_of_magic_zero (crc : List UInt8 → UInt32) {rtc : Rtc} (h : rtc 0 = 0) :
    (read crc rtc).1 = 1 := by
  have hmagic : clearLow 12 (rtc 0) ≠ EBOOT_MAGIC := by rw [h]; decide
  simp [read, hmagic]

theorem write_other (crc : List UInt8 → UInt32) (cmd : EbootCommand) (rtc : Rtc) {i : Nat}
    (h : 32 ≤ i) : write crc cmd rtc i = rtc i := by
  have h0 : i ≠ 0 := by omega
  have h1 : i ≠ 1 := by omega
  have h2 : ¬ i - 2 < 29 := by omega
  have h3 : i ≠ 31 := by omega
  simp [write, h0, h1, h2, h3]

end EbootCommand

/-! ## The application's copy -/

namespace Esp

/-- `eboot_command_read` of the core. -/
def ebootCommandRead (rtc : Rtc) : Nat × EbootCommand :=
  EbootCommand.read (crc32 · 0xffffffff) rtc

/-- `eboot_command_write` of the core. -/
def ebootCommandWrite (cmd : EbootCommand) (rtc : Rtc) : Rtc :=
  EbootCommand.write (crc32 · 0xffffffff) cmd rtc

/-- `eboot_command_clear` of the core. -/
def ebootCommandClear (rtc : Rtc) : Rtc := EbootCommand.clear rtc

end Esp

/-! ## The boot loader's copy -/

namespace Eboot

/-- `crc_update` of the boot loader. -/
def crcUpdate (crc : UInt32) (data : List UInt8) : UInt32 := BitCrc.run 0x04c11db7 crc data

/-- `eboot_command_read` of the boot loader. -/
def ebootCommandRead (rtc : Rtc) : Nat × EbootCommand :=
  EbootCommand.read (crcUpdate 0xffffffff) rtc

/-- `eboot_command_clear` of the boot loader. -/
def ebootCommandClear (rtc : Rtc) : Rtc := EbootCommand.clear rtc

theorem ebootCommandRead_write (cmd : EbootCommand) (rtc : Rtc) :
    ebootCommandRead (Esp.ebootCommandWrite cmd rtc) = (0, cmd.sealed (crcUpdate 0xffffffff)) :=
  EbootCommand.read_write _ cmd rtc

end Eboot

/-! ## What the mailbox notices -/

namespace EbootCommand

def stored (rtc : Rtc) : EbootCommand :=
  { magic := rtc 0, action := rtc 1, args := .ofFn fun i => rtc (2 + i), crc32 := rtc 31 }

theorem read_failed_iff (crc : List UInt8 → UInt32) (rtc : Rtc) :
    (read crc rtc).1 ≠ 0 ↔
      clearLow 12 (rtc 0) ≠ EBOOT_MAGIC ∨ rtc 31 ≠ (stored rtc).calculateCrc32 crc := by
  unfold read
  dsimp only
  split
  next h => exact ⟨fun _ => h, fun _ => Nat.one_ne_zero⟩
  next h => exact ⟨fun hne => absurd rfl hne, fun hor => absurd hor h⟩

theorem stored_coveredWords (rtc : Rtc) :
    (stored rtc).coveredWords = (List.range 31).map rtc := by
  rw [stored, coveredWords, Vector.toList_ofFn]
  rfl

end EbootCommand

/-- RTC memory after bit `k` of word `i` has changed by itself. -/
def Rtc.flip (rtc : Rtc) (i k : Nat) : Rtc := fun j => if j = i then rtc j ^^^ 1 <<< k else rtc j

namespace Rtc

theorem flip_self (rtc : Rtc) (i k : Nat) : rtc.flip i k i = rtc i ^^^ 1 <<< k := if_pos rfl

theorem flip_other (rtc : Rtc) {i j : Nat} (k : Nat) (h : j ≠ i) : rtc.flip i k j = rtc j :=
  if_neg h

theorem flip_ne (rtc : Rtc) (i k : Nat) : rtc.flip i k i ≠ rtc i := by
  rw [flip_self]
  intro h
  have hbit := congrArg (·.testBit k) h
  simp [Nat.testBit_xor, Nat.one_shiftLeft] at hbit

theorem flip_crc (rtc : Rtc) {i k : Nat} (hi : i < 31) (hk : k < 32) (start : UInt32) :
    (EbootCommand.stored (rtc.flip i k)).calculateCrc32 (Eboot.crcUpdate start) ≠
      (EbootCommand.stored rtc).calculateCrc32 (Eboot.crcUpdate start) := by
  obtain ⟨before, after, hflip, hrtc⟩ := BitCrc.map_differ List.nodup_range
    (List.mem_range.2 hi) fun j hj => flip_other rtc k hj
  unfold EbootCommand.calculateCrc32
  rw [EbootCommand.stored_coveredWords, EbootCommand.stored_coveredWords, hflip, hrtc, flip_self]
  intro h
  exact BitCrc.run_words_flip 0x04c11db7 (by decide) start before after (rtc i) hk
    (UInt32.toNat_inj.1 h)

/-- **A stored command with one wrong bit is rejected**, in whichever of its
words the bit is. -/
theorem read_flip {rtc : Rtc} {start : UInt32}
    (h : (EbootCommand.read (Eboot.crcUpdate start) rtc).1 = 0) {i k : Nat} (hi : i < 32)
    (hk : k < 32) : (EbootCommand.read (Eboot.crcUpdate start) (rtc.flip i k)).1 ≠ 0 := by
  have hcrc : rtc 31 = (EbootCommand.stored rtc).calculateCrc32 (Eboot.crcUpdate start) := by
    by_contra hne
    exact (EbootCommand.read_failed_iff _ rtc).2 (.inr hne) h
  refine (EbootCommand.read_failed_iff _ _).2 (.inr ?_)
  by_cases h31 : i = 31
  · -- the CRC does not cover itself
    subst h31
    have hsame : EbootCommand.calculateCrc32 (Eboot.crcUpdate start)
        (EbootCommand.stored (rtc.flip 31 k)) =
        (EbootCommand.stored rtc).calculateCrc32 (Eboot.crcUpdate start) := by
      unfold EbootCommand.calculateCrc32
      rw [EbootCommand.stored_coveredWords, EbootCommand.stored_coveredWords,
        List.map_congr_left fun j hj => flip_other rtc k (Nat.ne_of_lt (List.mem_range.1 hj))]
    rw [hsame, ← hcrc]
    exact flip_ne rtc 31 k
  · rw [flip_other rtc k fun h => h31 h.symm, hcrc]
    exact fun h => flip_crc rtc (Nat.lt_of_le_of_ne (Nat.le_of_lt_succ hi) h31) hk start h.symm

end Rtc

/-- **The mailbox.**  A command the application writes reaches the boot
loader, and the application itself, with its action and its arguments; after
a clear by either program neither finds a command, whatever the RTC memory
held; and neither accepts a stored command in which one bit has changed. -/
theorem Eboot.mailbox_sound (cmd : EbootCommand) (rtc : Rtc) :
    ∀ read ∈ [Eboot.ebootCommandRead, Esp.ebootCommandRead],
      (read (Esp.ebootCommandWrite cmd rtc)).1 = 0 ∧
      (read (Esp.ebootCommandWrite cmd rtc)).2.action = cmd.action ∧
      (read (Esp.ebootCommandWrite cmd rtc)).2.args = cmd.args ∧
      (∀ clear ∈ [Eboot.ebootCommandClear, Esp.ebootCommandClear], (read (clear rtc)).1 ≠ 0) ∧
      ∀ i < 32, ∀ k < 32, (read ((Esp.ebootCommandWrite cmd rtc).flip i k)).1 ≠ 0 := by
  have hwrite := EbootCommand.read_write (Eboot.crcUpdate 0xffffffff) cmd rtc
  have hclear : (EbootCommand.read (Eboot.crcUpdate 0xffffffff) (EbootCommand.clear rtc)).1 = 1 :=
    EbootCommand.read_of_magic_zero _ rfl
  have hread : ∀ read ∈ [Eboot.ebootCommandRead, Esp.ebootCommandRead],
      read = EbootCommand.read (Eboot.crcUpdate 0xffffffff) := by
    simp only [List.mem_cons, List.not_mem_nil, or_false]
    rintro read (rfl | rfl) <;> rfl
  intro read hmem
  rw [hread read hmem]
  refine ⟨congrArg (·.1) hwrite, congrArg (·.2.action) hwrite, congrArg (·.2.args) hwrite, ?_,
    fun i hi k hk => Rtc.read_flip (congrArg (·.1) hwrite) hi hk⟩
  simp only [List.mem_cons, List.not_mem_nil, or_false]
  rintro clear (rfl | rfl) <;> exact fun h => Nat.one_ne_zero (hclear.symm.trans h)

/-- The command of an update of 4096 bytes from address 0x100000 to 0, with
a wrong bit in its size argument. -/
theorem Eboot.mailbox_sound_copy :
    (Eboot.ebootCommandRead ((Esp.ebootCommandWrite
      ⟨0, EbootCommand.ACTION_COPY_RAW, #v[0x100000, 0, 4096, 0, 0, 0, 0, 0, 0, 0, 0, 0, 0, 0, 0,
        0, 0, 0, 0, 0, 0, 0, 0, 0, 0, 0, 0, 0, 0], 0⟩ fun _ => 7).flip 4 12)).1 ≠ 0 :=
  (Eboot.mailbox_sound _ _ _ (List.mem_cons_self ..)).2.2.2.2 4 (by decide) 12 (by decide)
