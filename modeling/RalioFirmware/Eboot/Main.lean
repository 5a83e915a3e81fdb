import RalioFirmware.Eboot.CopyRaw

/-!
# A boot

`main` of the boot loader: it reads the command, carries out a copy, clears
the command and loads the application.  `load_app_from_flash_raw` reads the
image's sections to the addresses they name; of that memory only the words
of RTC memory outlive the boot, so they are what is kept of it.
-/

open Word Bytes Nor Nor.Chip Crash Crash.Prog

namespace Eboot

variable {F : SpiFlash}

def printVersion (flash_addr : Nat) : Prog (rom F) Nat := do
  match ← SPIRead (u32 (flash_addr + 0x1000 + 8 + 8)) 4 with
  | none => pure 1
  | some _ => pure 0

/-! ## Loading the application -/

/-- `image_header_t`. -/
structure ImageHeader where
  magic : UInt8
  num_segments : UInt8
  flash_mode : UInt8
  flash_size_freq : UInt8
  entry : Nat

/-- `section_header_t`. -/
structure SectionHeader where
  address : Nat
  size : Nat

def ImageHeader.ofBytes (bytes : List UInt8) : ImageHeader where
  magic := bytes.getD 0 0
  num_segments := bytes.getD 1 0
  flash_mode := bytes.getD 2 0
  flash_size_freq := bytes.getD 3 0
  entry := ofLe (bytes.drop 4)

def SectionHeader.ofBytes (bytes : List UInt8) : SectionHeader where
  address := ofLe (bytes.take 4)
  size := ofLe (bytes.drop 4)

/-- Whether a section is one to load: data memory, instruction memory, and
everything from the peripherals on. -/
def SectionHeader.load (s : SectionHeader) : Bool :=
  s.address < 0x40000000 || (0x40100000 ≤ s.address && s.address < 0x4010C000) ||
    0x60000000 ≤ s.address

def RTC_MEM : Nat := 0x60001200

def storeWord (address value : Nat) : Prog (rom F) Unit :=
  if RTC_MEM ≤ address ∧ address < RTC_MEM + 512 then rtcStore ((address - RTC_MEM) / 4) value
  else pure ()

def storeLoaded (address : Nat) : List UInt8 → Prog (rom F) Unit
  | w0 :: w1 :: w2 :: w3 :: rest => do
    storeWord address (ofLe [w0, w1, w2, w3])
    storeLoaded (address + 4) rest
  | _ => pure ()

/-- The section loop of `load_app_from_flash_raw`: the error, if one ends it. -/
def loadSections : Nat → Nat → Prog (rom F) (Option Nat)
  | 0, _ => pure none
  | sections+1, pos => do
    match ← SPIRead pos 8 with
    | none => pure (some 2)
    | some bytes =>
      let section_header := SectionHeader.ofBytes bytes
      let pos := u32 (pos + 8)
      if section_header.load then
        match ← SPIRead pos section_header.size with
        | none => pure (some 3)
        | some data =>
          storeLoaded section_header.address data
          loadSections sections (u32 (pos + section_header.size))
      else loadSections sections (u32 (pos + section_header.size))

/-- `load_app_from_flash_raw`: the entry point it jumps to, or the error it
returns. -/
def loadAppFromFlashRaw (flash_addr : Nat) : Prog (rom F) (Except Nat Nat) := do
  let pos := u32 (flash_addr + 0x1000)
  match ← SPIRead pos 8 with
  | none => pure (.error 1)
  | some bytes =>
    let image_header := ImageHeader.ofBytes bytes
    match ← loadSections image_header.num_segments.toNat (u32 (pos + 8)) with
    | some res => pure (.error res)
    | none => pure (.ok image_header.entry)

/-! ## `main` -/

/-- `eboot_command_read`, on the RTC memory of the board. -/
def commandRead : Prog (rom F) (Nat × EbootCommand) := do pure (ebootCommandRead (← rtcLoad))

/-- `eboot_command_clear`: two stores. -/
def commandClear : Prog (rom F) Unit := do
  rtcStore 0 0
  rtcStore 31 0

/-- What `main` has in its variables after a copy. -/
structure AfterCopy where
  res : Nat
  clear_cmd : Bool
  cmd : EbootCommand

inductive Exit
  | jump (entry : Nat)
  | swrst
  | forever

/-- What follows a copy that returned `res`: after a good one the application
is loaded from where it was copied to. -/
def afterCopy (clear_cmd : Bool) (cmd : EbootCommand) (res : Nat) : AfterCopy :=
  if res = 0 then
    { res := res
      clear_cmd := clear_cmd
      cmd := { cmd with
        action := EbootCommand.ACTION_LOAD_APP
        args := cmd.args.setIfInBounds 0 (cmd.arg 1) } }
  else { res := res, clear_cmd := clear_cmd, cmd := cmd }

def mainAct (env : BootEnv F) (clear_cmd : Bool) (cmd : EbootCommand) : Prog (rom F) AfterCopy :=
  if cmd.action = EbootCommand.ACTION_COPY_RAW then do
    let res ← copyRaw env (cmd.arg 0) (cmd.arg 1) (cmd.arg 2) false
    pure (afterCopy clear_cmd cmd res)
  else pure { res := 9, clear_cmd := clear_cmd, cmd := cmd }

/-- `main` up to and with the copy.  Without a valid command the application
is loaded from the start of the flash. -/
def mainCopy (env : BootEnv F) : Prog (rom F) AfterCopy := do
  let _ ← printVersion 0
  let (invalid, cmd) ← commandRead
  if invalid = 0 then mainAct env true cmd
  else
    mainAct env false
      { cmd with action := EbootCommand.ACTION_LOAD_APP, args := cmd.args.setIfInBounds 0 0 }

def clearFound (clear_cmd : Bool) : Prog (rom F) Unit := if clear_cmd then commandClear else pure ()

/-- `main` from the clearing of the command on.  Loading comes back only with
an error, and none of its errors is 0. -/
def mainLoad (v : AfterCopy) : Prog (rom F) Exit := do
  clearFound v.clear_cmd
  if v.cmd.action = EbootCommand.ACTION_LOAD_APP then
    match ← loadAppFromFlashRaw (v.cmd.arg 0) with
    | .ok entry => pure (.jump entry)
    | .error res => pure (if res ≠ 0 then .swrst else .forever)
  else pure (if v.res ≠ 0 then .swrst else .forever)

/-- `main` of the boot loader. -/
def main (env : BootEnv F) : Prog (rom F) Exit := do mainLoad (← mainCopy env)

/-! ## What leaves the flash alone -/

/-- The flash holds what it held in `b`. -/
def SameCells (b b' : Board F) : Prop := b'.chip.cells = b.chip.cells

variable {α : Type} {b c : Board F}

def Quiet (p : Prog (rom F) α) : Prop :=
  ∀ b c : Board F, SameCells b c → wp (SameCells b) (fun _ => SameCells b) p c

theorem quiet_pure (a : α) : Quiet (pure a : Prog (rom F) α) := fun _ _ h => wp_ret h h

theorem Quiet.bind {β : Type} {p : Prog (rom F) α} {f : α → Prog (rom F) β} (hp : Quiet p)
    (hf : ∀ a, Quiet (f a)) : Quiet (p >>= f) := by
  intro b c h
  refine wp_bind ((hp b c h).mono (fun _ h => h) ?_)
  intro a c' _ hc'
  exact hf a b c' hc'

theorem quiet_SPIRead (addr n : Nat) : Quiet (SPIRead addr n : Prog (rom F) _) := by
  intro b c h
  exact wp_SPIRead (fun c' _ hc => hc.trans h) fun _ c' _ hc _ _ => hc.trans h

theorem quiet_rtcStore (i value : Nat) : Quiet (rtcStore i value : Prog (rom F) _) :=
  fun _ _ h => wp_perform h (fun _ ht => Eq.trans ht.2 h) h h

theorem quiet_commandClear : Quiet (commandClear : Prog (rom F) _) :=
  (quiet_rtcStore 0 0).bind fun _ => quiet_rtcStore 31 0

theorem quiet_clearFound (clear_cmd : Bool) : Quiet (clearFound clear_cmd : Prog (rom F) _) := by
  unfold clearFound
  split
  · exact quiet_commandClear
  · exact quiet_pure ()

theorem quiet_storeWord (address value : Nat) :
    Quiet (storeWord address value : Prog (rom F) _) := by
  unfold storeWord
  split
  · exact quiet_rtcStore _ _
  · exact quiet_pure ()

theorem quiet_storeLoaded (address : Nat) (data : List UInt8) :
    Quiet (storeLoaded address data : Prog (rom F) _) := by
  fun_induction storeLoaded (F := F) address data with
  | case1 address w0 w1 w2 w3 rest ih => exact (quiet_storeWord _ _).bind fun _ => ih
  | case2 address data hshort => exact quiet_pure ()

theorem quiet_loadSections (sections pos : Nat) :
    Quiet (loadSections sections pos : Prog (rom F) _) := by
  induction sections generalizing pos with
  | zero => exact quiet_pure none
  | succ sections ih =>
    unfold loadSections
    refine (quiet_SPIRead _ _).bind fun r => ?_
    cases r with
    | none => exact quiet_pure (some 2)
    | some bytes =>
      dsimp only
      split
      · refine (quiet_SPIRead _ _).bind fun r => ?_
        cases r with
        | none => exact quiet_pure (some 3)
        | some data => exact (quiet_storeLoaded _ data).bind fun _ => ih _
      · exact ih _

theorem quiet_loadApp (flash_addr : Nat) :
    Quiet (loadAppFromFlashRaw flash_addr : Prog (rom F) _) := by
  refine (quiet_SPIRead _ _).bind fun r => ?_
  cases r with
  | none => exact quiet_pure (Except.error 1)
  | some bytes =>
    refine (quiet_loadSections _ _).bind fun res => ?_
    cases res with
    | none => exact quiet_pure _
    | some res => exact quiet_pure _

theorem quiet_mainLoad (v : AfterCopy) : Quiet (mainLoad v : Prog (rom F) _) := by
  unfold mainLoad
  refine (quiet_clearFound _).bind fun _ => ?_
  split
  · refine (quiet_loadApp _).bind fun r => ?_
    cases r with
    | ok entry => exact quiet_pure _
    | error res => exact quiet_pure _
  · exact quiet_pure _

end Eboot
