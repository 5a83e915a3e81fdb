import RalioFirmware.Esp.Image
import RalioFirmware.Eboot.Command

/-!
# `UpdaterClass`

The over-the-air updater: `begin` picks a staging region, `write` and
`writeStream` collect the image in a sector buffer and flush it, `end` checks
what was staged and leaves the copy command for the boot loader.

The state is the class's fields together with what it acts on: the flash
chip, RTC memory and the static cache of `getSketchSize`.  `log` is not in
the source: it records what the updater asked of its surroundings, in order.
Callbacks, the LED and `yield` do not touch this state and are left out.
-/

open Word Bytes Esp

/-- The `UPDATE_ERROR_*` codes. -/
inductive UpdateError
  | ok | write | erase | read | space | size | stream | md5 | flashConfig
  | newFlashConfig | magicByte | bootstrap | sign | noData | oom
deriving DecidableEq, Repr

/-- The `U_*` commands. -/
def U_FLASH : Int := 0
def U_FS : Int := 100

/-- An installed signature check, `UpdaterVerifyClass` over an
`UpdaterHashClass`: the signature length it expects, and its verdict on the
bytes hashed and the signature. -/
structure Verifier where
  length : Nat
  length_lt : length < 4294967296
  verify : List UInt8 → List UInt8 → Bool

/-- What the updater asks of its surroundings.  `readBytes` is a read of the
source stream, with the flash address its first byte is meant for. -/
inductive Event
  | eraseSector (sector : Nat)
  | flashWrite (address size : Nat)
  | readBytes (address size : Nat)
  | hashAdd (fresh : Bool) (bytes : List UInt8)
  | verify (hashed signature : List UInt8)
  | compareMd5 (input : List UInt8)
deriving DecidableEq, Repr

/-- The linker's filesystem bounds, as memory-mapped addresses. -/
structure Layout where
  FS_start : Nat
  FS_end : Nat
  base_le : 0x40200000 ≤ FS_start
  start_le_end : FS_start ≤ FS_end
  end_lt : FS_end < 0x100000000
  start_aligned : FS_start % 4096 = 0
  end_aligned : FS_end % 4096 = 0

/-- An array `new` returned: its address and what it happens to hold. -/
structure HeapBlock (n : Nat) where
  ptr : Nat
  bytes : List UInt8
  ptr_ne : ptr ≠ 0
  length_eq : bytes.length = n

/-- What `begin` reads of the board: the boot-strapping pins, the free heap,
and the outcome of its allocation. -/
structure BeginEnv where
  gpi : Nat
  freeHeap : Nat
  alloc : (n : Nat) → Option (HeapBlock n)

/-- What `end` reads of the board: the text of an MD5 digest, the previous
contents of its stack arrays, and the outcome of its allocation. -/
structure EndEnv where
  md5Text : List UInt8 → List Char
  buff : List UInt8
  buff_length : buff.length = 128
  alloc : (n : Nat) → Option (HeapBlock n)
  args : Vector Nat 29

structure Updater (F : SpiFlash) where
  error : UpdateError
  bufferPtr : Nat
  buffer : List UInt8
  bufferLen : Nat
  bufferSize : Nat
  size : Nat
  startAddress : Nat
  currentAddress : Nat
  command : Int
  target_md5 : List Char
  md5 : List UInt8
  verifier : Option Verifier
  chip : Chip F
  rtc : Rtc
  sketchSize : Nat
  log : List Event

namespace Updater

variable {F : SpiFlash}

/-! ## Helpers of the class -/

def hasError (u : Updater F) : Prop := u.error ≠ .ok

def isRunning (u : Updater F) : Prop := 0 < u.size

def isFinished (u : Updater F) : Prop := u.currentAddress = u32 (u.startAddress + u.size)

instance (u : Updater F) : Decidable u.hasError := by unfold hasError; infer_instance
instance (u : Updater F) : Decidable u.isRunning := by unfold isRunning; infer_instance
instance (u : Updater F) : Decidable u.isFinished := by unfold isFinished; infer_instance

def progress (u : Updater F) : Nat := sub32 u.currentAddress u.startAddress

def remaining (u : Updater F) : Nat := sub32 u.size (sub32 u.currentAddress u.startAddress)

def buffered (u : Updater F) : List UInt8 := u.buffer.take u.bufferLen

def reset (u : Updater F) : Updater F :=
  { u with
    bufferPtr := 0
    buffer := []
    bufferLen := 0
    startAddress := 0
    currentAddress := 0
    size := 0
    command := U_FLASH }

/-- `_setError`: any error drops the update. -/
def setError (error : UpdateError) (u : Updater F) : Updater F :=
  ({ u with error := error }).reset

def setMD5 (expected_md5 : List Char) (u : Updater F) : Bool × Updater F :=
  if expected_md5.length ≠ 32 then (false, u) else (true, { u with target_md5 := expected_md5 })

def installSignature (verifier : Option Verifier) (u : Updater F) : Updater F :=
  { u with verifier := verifier }

/-! ## `begin` -/

def roundToSector (size : Nat) : Nat := clearLow 12 (u32 (size + 4096 - 1))

/-- The address `begin` chooses for the update, or the error it sets (none
for an unknown command). -/
def updateStartAddress (L : Layout) (command : Int) (currentSketchSize roundedSize : Nat) :
    Except (Option UpdateError) Nat :=
  if command = U_FLASH then
    let updateEndAddress := L.FS_start - 0x40200000
    let start := if updateEndAddress > roundedSize then updateEndAddress - roundedSize else 0
    if start < currentSketchSize then .error (some .space) else .ok start
  else if command = U_FS then
    if u32 (L.FS_start + roundedSize) > L.FS_end then .error (some .space)
    else .ok (L.FS_start - 0x40200000)
  else .error none

/-- `begin`. -/
def beginUpdate (L : Layout) (env : BeginEnv) (size : Nat) (command : Int) (u : Updater F) :
    Bool × Updater F :=
  if u.size > 0 then (false, u)
  else if (env.gpi >>> 16) &&& 0xf = 1 then (false, u.setError .bootstrap)
  else if size = 0 then (false, u.setError .size)
  else
    match checkFlashConfig false u.chip with
    | (false, chip) => (false, ({ u with chip := chip }).setError .flashConfig)
    | (true, chip) =>
      let u := ({ u with chip := chip }).reset
      let u := { u with error := .ok, target_md5 := [], md5 := [] }
      let (sketchSize, cache, chip) := getSketchSize u.sketchSize u.chip
      let u := { u with sketchSize := cache, chip := chip }
      match updateStartAddress L command (roundToSector sketchSize) (roundToSector size) with
      | .error (some e) => (false, u.setError e)
      | .error none => (false, u)
      | .ok start =>
        let u := { u with startAddress := start, currentAddress := start, size := size }
        let bufferSize := if env.freeHeap > 2 * 4096 then 4096 else 256
        let u := { u with bufferSize := bufferSize }
        match env.alloc bufferSize with
        | none => (false, u.setError .oom)
        | some block =>
          (true, { u with bufferPtr := block.ptr, buffer := block.bytes, command := command })

/-! ## `_writeBuffer` -/

/-- The erase at the head of `_writeBuffer`. -/
def eraseIfAtSector (u : Updater F) : Bool × Updater F :=
  if u.currentAddress % 4096 = 0 then
    let sector := u.currentAddress / 4096
    let (ok, chip) := flashEraseSector sector u.chip
    (ok, { u with chip := chip, log := u.log ++ [Event.eraseSector sector] })
  else (true, u)

/-- Whether `_writeBuffer` looks at the flash mode of the image: in the first
flush of an uncompressed sketch. -/
def atFlashMode (u : Updater F) : Prop :=
  u.currentAddress = u32 (u.startAddress + 0) ∧ u.buffer.getD 0 0 ≠ 0x1f ∧ u.command = U_FLASH

instance (u : Updater F) : Decidable u.atFlashMode := by unfold atFlashMode; infer_instance

/-- The flash-mode adjustment: where the image's mode is not the chip's, the
mode byte in the buffer is replaced.  Returns the mode to put back. -/
def adjustFlashMode (u : Updater F) : Option UInt8 × Updater F :=
  if u.atFlashMode then
    let (flashMode, chip) := getFlashChipMode u.chip
    let u := { u with chip := chip }
    let bufferFlashMode := magicFlashChipMode (u.buffer.getD 2 0)
    if bufferFlashMode ≠ flashMode then
      (some bufferFlashMode, { u with buffer := u.buffer.set 2 flashMode })
    else (none, u)
  else (none, u)

def restoreFlashMode (mode : Option UInt8) (u : Updater F) : Updater F :=
  match mode with
  | some bufferFlashMode => { u with buffer := u.buffer.set 2 bufferFlashMode }
  | none => u

/-- `_writeBuffer`.  The buffer is at most a sector, so the 16-bit length of
`MD5Builder::add` holds it. -/
def writeBuffer (u : Updater F) : Bool × Updater F :=
  let (eraseResult, u) := u.eraseIfAtSector
  let (mode, u) := u.adjustFlashMode
  if eraseResult then
    let (writeResult, chip) := flashWrite u.currentAddress u.bufferPtr u.buffered u.chip
    let u := { u with
      chip := chip
      log := u.log ++ [Event.flashWrite u.currentAddress u.bufferLen] }
    let u := u.restoreFlashMode mode
    if writeResult then
      let u := if u.verifier.isNone then { u with md5 := u.md5 ++ u.buffered } else u
      (true, { u with
        currentAddress := u32 (u.currentAddress + u.bufferLen)
        bufferLen := 0 })
    else
      (false, ({ u with currentAddress := u32 (u.startAddress + u.size) }).setError .write)
  else
    (false, ({ u with currentAddress := u32 (u.startAddress + u.size) }).setError .erase)

/-! ## `write` and `writeStream` -/

/-- `memcpy` to the end of what is buffered. -/
def fill (bytes : List UInt8) (u : Updater F) : Updater F :=
  { u with
    buffer := memcpy u.buffer u.bufferLen bytes
    bufferLen := u.bufferLen + bytes.length }

/-- The loop of `write`: `data` is what is left to take.  The result says
whether every flush succeeded and what is left.  Each round but the first
takes at least one byte. -/
def writeLoop : Nat → List UInt8 → Updater F → Bool × List UInt8 × Updater F
  | 0, data, u => (true, data, u)
  | rounds+1, data, u =>
    if u.bufferLen + data.length > u.bufferSize then
      let toBuff := u.bufferSize - u.bufferLen
      match (u.fill (data.take toBuff)).writeBuffer with
      | (false, u) => (false, data, u)
      | (true, u) => writeLoop rounds (data.drop toBuff) u
    else (true, data, u)

/-- `write(data, len)`: the number of bytes accepted. -/
def write (data : List UInt8) (u : Updater F) : Nat × Updater F :=
  if u.hasError ∨ ¬ u.isRunning then (0, u)
  else if u32 (u.progress + u.bufferLen + data.length) > u.size then (0, u.setError .space)
  else
    match writeLoop (data.length + 2) data u with
    | (false, left, u) => (data.length - left.length, u)
    | (true, left, u) =>
      let u := u.fill left
      if u.bufferLen = u.remaining then
        match u.writeBuffer with
        | (false, u) => (data.length - left.length, u)
        | (true, u) => (data.length, u)
      else (data.length, u)

def verifyHeader (data : UInt8) (u : Updater F) : Bool × Updater F :=
  if u.command = U_FLASH then
    if data ≠ 0xE9 ∧ data ≠ 0x1f then
      (false, ({ u with currentAddress := u32 (u.startAddress + u.size) }).setError .magicByte)
    else (true, u)
  else if u.command = U_FS then (true, u)
  else (false, u)

/-- One `readBytes` of the source stream: what it has to offer, and whether
the stream time-out has expired by then. -/
structure StreamRead where
  offered : List UInt8
  timeOut : Bool
deriving DecidableEq, Repr

/-- How many bytes the loop of `writeStream` asks the stream for. -/
def bytesToRead (u : Updater F) : Nat :=
  let bytesToRead := u.bufferSize - u.bufferLen
  if bytesToRead > u.remaining then u.remaining else bytesToRead

/-- What a round of `writeStream` or `write<T>` comes to: whether the loop goes
on, and how many bytes were written. -/
structure Round (F : SpiFlash) where
  more : Bool
  written : Nat
  state : Updater F

/-- One round of the loop of `writeStream`. -/
def streamRound (r : StreamRead) (u : Updater F) : Round F :=
  let got := r.offered.take u.bytesToRead
  let u := { u with
    log := u.log ++ [Event.readBytes (u.currentAddress + u.bufferLen) got.length] }
  if got.length = 0 ∧ r.timeOut then
    ⟨false, 0, (({ u with currentAddress := u32 (u.startAddress + u.size) }).setError
      .stream).reset⟩
  else
    let u := u.fill got
    if u.bufferLen = u.remaining ∨ u.bufferLen = u.bufferSize then
      match u.writeBuffer with
      | (false, u) => ⟨false, 0, u⟩
      | (true, u) => ⟨true, got.length, u⟩
    else ⟨true, got.length, u⟩

/-- The loop of `writeStream`.  A stream that has nothing more to offer runs
into the time-out. -/
def streamLoop : List StreamRead → Nat → Updater F → Nat × Updater F
  | [], written, u =>
    if u.remaining = 0 then (written, u)
    else (written, (streamRound ⟨[], true⟩ u).state)
  | r :: rest, written, u =>
    if u.remaining = 0 then (written, u)
    else
      let round := streamRound r u
      if round.more then streamLoop rest (written + round.written) round.state
      else (written, round.state)

/-- `writeStream`, for a stream that peeks `peek` and serves `reads`. -/
def writeStream (peek : UInt8) (reads : List StreamRead) (u : Updater F) : Nat × Updater F :=
  if u.hasError ∨ ¬ u.isRunning then (0, u)
  else
    match u.verifyHeader peek with
    | (false, u) => (0, u.reset)
    | (true, u) => streamLoop reads 0 u

/-- One round of the loop of `write<T>`, for a source of which `offered` is
available.  `available` is an `int`, so the sums do not wrap. -/
def availableRound (offered : List UInt8) (u : Updater F) : Round F :=
  let available :=
    if u.bufferLen + offered.length > u.remaining then sub32 u.remaining u.bufferLen
    else offered.length
  if u.bufferLen + available > u.bufferSize then
    let toBuff := u.bufferSize - u.bufferLen
    match (u.fill (offered.take toBuff)).writeBuffer with
    | (false, u) => ⟨false, 0, u⟩
    | (true, u) => ⟨u.remaining ≠ 0, toBuff, u⟩
  else
    let u := u.fill (offered.take available)
    if u.bufferLen = u.remaining then
      match u.writeBuffer with
      | (false, u) => ⟨false, available, u⟩
      | (true, u) => ⟨u.remaining ≠ 0, available, u⟩
    else ⟨u.remaining ≠ 0, available, u⟩

/-! ## `end` -/

/-- The hash loop of `end`: 128 bytes at a time through `buff`, which keeps
its old contents when a read fails.  Returns what was hashed, each piece with
whether its read succeeded. -/
def hashLoop (startAddress binSize : Nat) :
    Nat → Nat → List UInt8 → Chip F → List (Bool × List UInt8) × Chip F
  | 0, _, _, c => ([], c)
  | rounds+1, offset, buff, c =>
    if offset < binSize then
      let len := min 128 (binSize - offset)
      match flashReadWords (u32 (startAddress + offset)) 0 len c with
      | (some bytes, c) =>
        let (rest, c) := hashLoop startAddress binSize rounds (offset + 128)
          (memcpy buff 0 bytes) c
        ((true, bytes) :: rest, c)
      | (none, c) =>
        let (rest, c) := hashLoop startAddress binSize rounds (offset + 128) buff c
        ((false, buff.take len) :: rest, c)
    else ([], c)

/-- The length word at the end of a signed image, 0 when it cannot be
read. -/
def readSigLen (u : Updater F) : Nat × Chip F :=
  let sigLenAddr := sub32 (u32 (u.startAddress + u.size)) 4
  match flashReadWords sigLenAddr 0 4 u.chip with
  | (some bytes, c) => (ofLe bytes, c)
  | (none, c) => (0, c)

def hashPayload (env : EndEnv) (binSize : Nat) (u : Updater F) : List UInt8 × Updater F :=
  let (pieces, chip) := hashLoop u.startAddress binSize (binSize / 128 + 1) 0 env.buff u.chip
  (pieces.flatMap fun (_, bytes) => bytes, { u with
    chip := chip
    log := u.log ++ pieces.map fun (fresh, bytes) => Event.hashAdd fresh bytes })

/-- The call of the verifier, on a signature of `sigLen` bytes behind the
payload if one is expected.  The result of its read is not looked at. -/
def verifyHash (env : EndEnv) (v : Verifier) (hashed : List UInt8) (sigLen binSize : Nat)
    (u : Updater F) : Bool × Updater F :=
  if v.length > 0 then
    match env.alloc sigLen with
    | none => (false, u.setError .oom)
    | some block =>
      let (_, got, chip) :=
        flashReadBytes (u32 (u.startAddress + binSize)) block.ptr sigLen u.chip
      let sig := memcpy block.bytes 0 got
      let u := { u with chip := chip, log := u.log ++ [Event.verify hashed sig] }
      if v.verify hashed sig then (true, u) else (false, u.setError .sign)
  else
    let u := { u with log := u.log ++ [Event.verify hashed []] }
    if v.verify hashed [] then (true, u) else (false, u.setError .sign)

/-- The signature path of `end`: on success `size` is that of the payload. -/
def checkSignature (env : EndEnv) (v : Verifier) (u : Updater F) : Bool × Updater F :=
  let expectedSigLen := v.length
  let (sigLen, chip) := if expectedSigLen > 0 then u.readSigLen else (0, u.chip)
  let u := { u with chip := chip }
  if sigLen ≠ expectedSigLen then (false, (u.setError .sign).reset)
  else if expectedSigLen > 0 ∧ u.size < u32 (sigLen + 4) then (false, (u.setError .sign).reset)
  else
    let binSize := if expectedSigLen > 0 then u.size - u32 (sigLen + 4) else u.size
    let (hashed, u) := u.hashPayload env binSize
    match u.verifyHash env v hashed sigLen binSize with
    | (false, u) => (false, u.reset)
    | (true, u) => (true, { u with size := binSize })

/-- `strcasecmp` finding its arguments equal. -/
def sameText (s t : List Char) : Bool := s.map Char.toLower = t.map Char.toLower

/-- The MD5 path of `end`. -/
def checkMd5 (env : EndEnv) (u : Updater F) : Bool × Updater F :=
  if u.target_md5.length ≠ 0 then
    let u := { u with log := u.log ++ [Event.compareMd5 u.md5] }
    if sameText u.target_md5 (env.md5Text u.md5) then (true, u) else (false, u.setError .md5)
  else (true, u)

/-- The test of `_verifyEnd` on the first four bytes of the staged image: the
error it sets, if any. -/
def headerVerdict (F : SpiFlash) (buf : List UInt8) : Option UpdateError :=
  if buf.getD 0 0 = 0x1f ∧ buf.getD 1 0 = 0x8b then none
  else if buf.getD 0 0 ≠ 0xE9 then some .magicByte
  else if magicFlashChipSize (((buf.getD 3 0).toNat &&& 0xf0) >>> 4) > getFlashChipRealSize F then
    some .newFlashConfig
  else none

def verifyEnd (u : Updater F) : Bool × Updater F :=
  if u.command = U_FLASH then
    match flashReadWords u.startAddress 0 4 u.chip with
    | (none, chip) =>
      (false, ({ u with chip := chip, currentAddress := u.startAddress }).setError .read)
    | (some buf, chip) =>
      let u := { u with chip := chip }
      match headerVerdict F buf with
      | some e => (false, ({ u with currentAddress := u.startAddress }).setError e)
      | none => (true, u)
  else if u.command = U_FS then (true, u)
  else (false, u)

/-- The command `end` stages for the boot loader. -/
def copyCommand (env : EndEnv) (startAddress size : Nat) : EbootCommand where
  magic := 0
  action := EbootCommand.ACTION_COPY_RAW
  args := ((env.args.set 0 startAddress).set 1 0x00000).set 2 size
  crc32 := 0

/-- The signature check or, without a verifier, the MD5 check. -/
def checkImage (env : EndEnv) (u : Updater F) : Bool × Updater F :=
  match u.verifier with
  | some v => u.checkSignature env v
  | none => u.checkMd5 env

/-- `end` from its signature check on. -/
def finish (env : EndEnv) (u : Updater F) : Bool × Updater F :=
  match u.checkImage env with
  | (false, u) => (false, u)
  | (true, u) =>
    match u.verifyEnd with
    | (false, u) => (false, u.reset)
    | (true, u) =>
      let u := if u.command = U_FLASH then
          { u with rtc := ebootCommandWrite (copyCommand env u.startAddress u.size) u.rtc }
        else u
      (true, u.reset)

/-- The flush of a partial buffer that `end(true)` makes, and the size it
then takes for the image. -/
def flushRemaining (u : Updater F) : Updater F :=
  let u := if u.bufferLen > 0 then u.writeBuffer.2 else u
  { u with size := u.progress }

/-- `end`. -/
def endUpdate (env : EndEnv) (evenIfRemaining : Bool) (u : Updater F) : Bool × Updater F :=
  if u.size = 0 then (false, u.reset)
  else
    let u := if u.progress = 0 then u.setError .noData else u
    if u.hasError ∨ (¬ u.isFinished ∧ evenIfRemaining = false) then (false, u.reset)
    else
      let u := if evenIfRemaining then u.flushRemaining else u
      u.finish env

end Updater
