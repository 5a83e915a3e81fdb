import RalioFirmware.Updater.Placement
import RalioFirmware.Updater.Reach

/-!
# `ESP8266HTTPUpdate`

The client that fetches an image over HTTP and feeds it to the updater.
Between `Update.begin` and `Update.end` lie the text of the MD5 to expect and
the stream, each with its own way out.  `handleUpdate_reusable_iff` says which
replies leave the updater as a later attempt needs it: all but those whose MD5
text `setMD5` refuses, after which nothing ends the update that was begun.

The header lines sent and the parsing of the reply are `HTTPClient`'s; of them
the model has what the board is asked for and what comes back.
-/

open Word Bytes Nor Esp

/-- The return values of `update` and `updateFS`. -/
inductive HTTPUpdateResult
  | HTTP_UPDATE_FAILED | HTTP_UPDATE_NO_UPDATES | HTTP_UPDATE_OK
deriving DecidableEq, Repr

namespace HttpUpdate

def HTTP_CODE_OK : Int := 200
def HTTP_CODE_NOT_MODIFIED : Int := 304
def HTTP_CODE_UNAUTHORIZED : Int := 401
def HTTP_CODE_FORBIDDEN : Int := 403
def HTTP_CODE_NOT_FOUND : Int := 404

def HTTPC_ERROR_CONNECTION_LOST : Int := -5
def HTTP_UE_TOO_LESS_SPACE : Int := -100
def HTTP_UE_SERVER_NOT_REPORT_SIZE : Int := -101
def HTTP_UE_SERVER_FILE_NOT_FOUND : Int := -102
def HTTP_UE_SERVER_FORBIDDEN : Int := -103
def HTTP_UE_SERVER_WRONG_HTTP_CODE : Int := -104
def HTTP_UE_SERVER_FAULTY_MD5 : Int := -105
def HTTP_UE_BIN_VERIFY_HEADER_FAILED : Int := -106
def HTTP_UE_BIN_FOR_WRONG_FLASH : Int := -107
def HTTP_UE_SERVER_UNAUTHORIZED : Int := -108

/-- The number of an `UPDATE_ERROR_*`, as `getError` returns it. -/
def errorCode : UpdateError → Int
  | .ok => 0
  | .write => 1
  | .erase => 2
  | .read => 3
  | .space => 4
  | .size => 5
  | .stream => 6
  | .md5 => 7
  | .flashConfig => 8
  | .newFlashConfig => 9
  | .magicByte => 10
  | .bootstrap => 11
  | .sign => 12
  | .noData => 13
  | .oom => 14

/-- The connection behind `getStreamPtr`: what `peekBytes` finds, what
`writeStream` peeks and what its reads are served. -/
structure Tcp where
  magic : List UInt8
  peek : UInt8
  reads : List Updater.StreamRead

/-- What `HTTPClient` hands over after `GET`: the status or a negative error,
the `Content-Length` or -1, the value of `x-MD5`, empty without one, and the
connection, if it is still there. -/
structure HttpReply where
  code : Int
  len : Int
  len_lt : len < 2147483648
  xMD5 : List Char
  tcp : Option Tcp

structure Board where
  layout : Layout
  beginEnv : BeginEnv
  endEnv : EndEnv
  sketchBuf : Bool

/-- The client, the global `Update` and the static cache of `getSketchMD5`. -/
structure State (F : SpiFlash) where
  md5Sum : List Char
  lastError : Int
  sketchMD5 : List Char
  update : Updater F

variable {F : SpiFlash}

def setLastError (err : Int) (s : State F) : State F := { s with lastError := err }

/-! ## What the client asks of the board -/

/-- `ESP.getFreeSketchSpace`. -/
def getFreeSketchSpace (L : Layout) (u : Updater F) : Nat × Updater F :=
  let (usedSize, cache, chip) := getSketchSize u.sketchSize u.chip
  let freeSpaceStart := Updater.roundToSector usedSize
  let freeSpaceEnd := L.FS_start - 0x40200000
  (sub32 freeSpaceEnd freeSpaceStart, { u with sketchSize := cache, chip := chip })

/-- The loop of `ESP.getSketchMD5`: what it hashes, `none` when a read fails. -/
def sketchBytes : Nat → Nat → Nat → List UInt8 → Chip F → Option (List UInt8) × Chip F
  | 0, _, _, hashed, c => (some hashed, c)
  | rounds+1, lengthLeft, offset, hashed, c =>
    if lengthLeft > 0 then
      let readBytes := if lengthLeft < 512 then lengthLeft else 512
      match flashReadWords offset 0 (aligned readBytes) c with
      | (none, c) => (none, c)
      | (some buf, c) =>
        sketchBytes rounds (lengthLeft - readBytes) (offset + readBytes)
          (hashed ++ buf.take readBytes) c
    else (some hashed, c)

/-- `ESP.getSketchMD5`. -/
def getSketchMD5 (board : Board) (s : State F) : List Char × State F :=
  if s.sketchMD5.length ≠ 0 then (s.sketchMD5, s)
  else
    let (lengthLeft, cache, chip) := getSketchSize s.update.sketchSize s.update.chip
    let s := { s with update := { s.update with sketchSize := cache, chip := chip } }
    if board.sketchBuf then
      match sketchBytes (lengthLeft / 512 + 1) lengthLeft 0 [] s.update.chip with
      | (none, chip) => ([], { s with update := { s.update with chip := chip } })
      | (some hashed, chip) =>
        let result := board.endEnv.md5Text hashed
        (result, { s with update := { s.update with chip := chip }, sketchMD5 := result })
    else ([], s)

/-- The header lines of the request that tell of the board: the free space,
the size of the sketch and its MD5. -/
def addHeaders (board : Board) (s : State F) : (Nat × Nat × List Char) × State F :=
  let (freeSpace, u) := getFreeSketchSpace board.layout s.update
  let (sketchSize, cache, chip) := getSketchSize u.sketchSize u.chip
  let s := { s with update := { u with sketchSize := cache, chip := chip } }
  let (sketchMD5, s) := getSketchMD5 board s
  ((freeSpace, sketchSize, sketchMD5), s)

/-- A 32-bit value as an `int`. -/
def int32 (n : Nat) : Int := if n < 2147483648 then n else (n : Int) - 4294967296

/-- `startUpdate`: whether the image fits. -/
def startUpdate (L : Layout) (len : Int) (spiffs : Bool) (u : Updater F) : Bool × Updater F :=
  if spiffs then (decide ¬ len > int32 (L.FS_end - L.FS_start), u)
  else
    let (space, u) := getFreeSketchSpace L u
    (decide ¬ len > int32 space, u)

/-- The look at the header of a sketch, with the error it ends in, if any. -/
def binHeader (F : SpiFlash) (magic : List UInt8) : Option Int :=
  let buf := magic.take 4
  if buf.length ≠ 4 then some HTTP_UE_BIN_VERIFY_HEADER_FAILED
  else if buf.getD 0 0 ≠ 0xE9 ∧ buf.getD 0 0 ≠ 0x1f then some HTTP_UE_BIN_VERIFY_HEADER_FAILED
  else if buf.getD 0 0 = 0xE9 ∧
      magicFlashChipSize (((buf.getD 3 0).toNat &&& 0xf0) >>> 4) > getFlashChipRealSize F then
    some HTTP_UE_BIN_FOR_WRONG_FLASH
  else none

/-! ## `runUpdate` and `handleUpdate` -/

/-- `c_str`: what a reader of a C string sees of the text. -/
def cStr (text : List Char) : List Char := text.takeWhile fun c => c ≠ Char.ofNat 0

/-- The MD5 to expect: the one set on the client before that of the reply. -/
def md5Of (s : State F) (reply : HttpReply) : List Char :=
  if s.md5Sum.length ≠ 0 then s.md5Sum else reply.xMD5

/-- The call of `setMD5`, if there is an MD5. -/
def announceMD5 (md5 : List Char) (u : Updater F) : Bool × Updater F :=
  if md5.length ≠ 0 then u.setMD5 (cStr md5) else (true, u)

def runUpdate (board : Board) (tcp : Tcp) (size : Nat) (md5 : List Char) (command : Int)
    (s : State F) : Bool × State F :=
  match Updater.beginUpdate board.layout board.beginEnv size command s.update with
  | (false, u) => (false, setLastError (errorCode u.error) { s with update := u })
  | (true, u) =>
    match announceMD5 md5 u with
    | (false, u) => (false, setLastError HTTP_UE_SERVER_FAULTY_MD5 { s with update := u })
    | (true, u) =>
      let (written, u) := u.writeStream tcp.peek tcp.reads
      if written ≠ size then (false, setLastError (errorCode u.error) { s with update := u })
      else
        match u.endUpdate board.endEnv false with
        | (false, u) => (false, setLastError (errorCode u.error) { s with update := u })
        | (true, u) => (true, { s with update := u })

/-- What `handleUpdate` does with an image that fits. -/
def fetch (board : Board) (reply : HttpReply) (spiffs : Bool) (s : State F) :
    HTTPUpdateResult × State F :=
  match reply.tcp with
  | none => (.HTTP_UPDATE_FAILED, setLastError HTTPC_ERROR_CONNECTION_LOST s)
  | some tcp =>
    match if spiffs then none else binHeader F tcp.magic with
    | some err => (.HTTP_UPDATE_FAILED, setLastError err s)
    | none =>
      match runUpdate board tcp reply.len.toNat (md5Of s reply)
          (if spiffs then U_FS else U_FLASH) s with
      | (true, s) => (.HTTP_UPDATE_OK, s)
      | (false, s) => (.HTTP_UPDATE_FAILED, s)

/-- `handleUpdate`, with the reply that `GET` comes to.  `update` calls it with
`spiffs` false, `updateFS` with true. -/
def handleUpdate (board : Board) (reply : HttpReply) (spiffs : Bool) (s : State F) :
    HTTPUpdateResult × State F :=
  let (_, s) := addHeaders board s
  if reply.code ≤ 0 then (.HTTP_UPDATE_FAILED, setLastError reply.code s)
  else if reply.code = HTTP_CODE_OK then
    if reply.len > 0 then
      match startUpdate board.layout reply.len spiffs s.update with
      | (false, u) =>
        (.HTTP_UPDATE_FAILED, setLastError HTTP_UE_TOO_LESS_SPACE { s with update := u })
      | (true, u) => fetch board reply spiffs { s with update := u }
    else (.HTTP_UPDATE_FAILED, setLastError HTTP_UE_SERVER_NOT_REPORT_SIZE s)
  else if reply.code = HTTP_CODE_NOT_MODIFIED then (.HTTP_UPDATE_NO_UPDATES, s)
  else if reply.code = HTTP_CODE_NOT_FOUND then
    (.HTTP_UPDATE_FAILED, setLastError HTTP_UE_SERVER_FILE_NOT_FOUND s)
  else if reply.code = HTTP_CODE_FORBIDDEN then
    (.HTTP_UPDATE_FAILED, setLastError HTTP_UE_SERVER_FORBIDDEN s)
  else if reply.code = HTTP_CODE_UNAUTHORIZED then
    (.HTTP_UPDATE_FAILED, setLastError HTTP_UE_SERVER_UNAUTHORIZED s)
  else (.HTTP_UPDATE_FAILED, setLastError HTTP_UE_SERVER_WRONG_HTTP_CODE s)

/-! ## What `writeStream` returns -/

/-- The bytes the updater has written to the flash, by what it asked for. -/
def flashed : List Event → Nat
  | [] => 0
  | .flashWrite _ size :: rest => size + flashed rest
  | _ :: rest => flashed rest

theorem flashed_append (evs more : List Event) :
    flashed (evs ++ more) = flashed evs + flashed more := by
  induction evs with
  | nil => simp [flashed]
  | cons e rest ih => cases e <;> simp [flashed, ih, Nat.add_assoc]

theorem flashed_flushEvents (address size : Nat) :
    flashed (Updater.flushEvents address size) = size := by
  rw [Updater.flushEvents, flashed_append]
  split <;> simp [flashed]

/-- The update begun in `u₀` has taken `written` bytes from the stream.  Where
the write position has come to the end, nothing is buffered behind it. -/
structure Streamed (u₀ : Updater F) (written : Nat) (u : Updater F) : Prop
    extends Updater.Kept u₀ u where
  buffer : u.buffer.length = u₀.bufferSize
  bufferLen_le : u.bufferLen ≤ u₀.bufferSize
  start_le : u₀.startAddress ≤ u.currentAddress
  within : u.currentAddress = u₀.startAddress ∨ u.currentAddress ≤ F.capacity
  taken : u.currentAddress - u₀.startAddress + u.bufferLen = written
  flushed : u.currentAddress - u₀.startAddress = u₀.size → u.bufferLen = 0
  log : ∃ evs, u.log = u₀.log ++ evs ∧ flashed evs = u.currentAddress - u₀.startAddress
  md5 : u₀.verifier = none → u.md5.length = u.currentAddress - u₀.startAddress

section

variable {u₀ u v : Updater F} {written : Nat}

theorem streamed_begun (hb : Updater.Begun u₀) : Streamed u₀ 0 u₀ where
  error := rfl
  bufferPtr := rfl
  bufferSize := rfl
  size := rfl
  startAddress := rfl
  command := rfl
  target_md5 := rfl
  verifier := rfl
  rtc := rfl
  sketchSize := rfl
  buffer := hb.buffer
  bufferLen_le := by rw [hb.bufferLen]; exact Nat.zero_le _
  start_le := Nat.le_of_eq hb.current.symm
  within := .inl hb.current
  taken := by rw [hb.current, hb.bufferLen]; omega
  flushed := fun _ => hb.bufferLen
  log := ⟨[], by simp, by rw [hb.current]; simp [flashed]⟩
  md5 := fun _ => by rw [hb.md5, hb.current]; simp

theorem Streamed.progress (hb : Updater.Begun u₀) (h : Streamed u₀ written u) :
    u.progress = u.currentAddress - u₀.startAddress := by
  have hcap := F.capacity_le
  have hstart := hb.start_lt
  have hle := h.start_le
  rw [Updater.progress, h.startAddress, sub32_of_le hle]
  rcases h.within with hw | hw <;> omega

theorem Streamed.remaining_eq_zero_iff (hb : Updater.Begun u₀) (h : Streamed u₀ written u) :
    u.remaining = 0 ↔ u.currentAddress - u₀.startAddress = u₀.size := by
  have hp := h.progress hb
  have hsize := hb.size_lt
  have hcap := F.capacity_le
  have hstart := hb.start_lt
  have hlt : u.currentAddress - u₀.startAddress < 4294967296 := by
    rcases h.within with hw | hw <;> omega
  unfold Updater.progress at hp
  rw [Updater.remaining, hp, h.size]
  unfold sub32
  omega

theorem Streamed.ask (h : Streamed u₀ written u) (address size : Nat) :
    Streamed u₀ written { u with log := u.log ++ [Event.readBytes address size] } := by
  obtain ⟨evs, hlog, hflashed⟩ := h.log
  exact { h with
    log := ⟨evs ++ [Event.readBytes address size], by rw [hlog, List.append_assoc],
      by rw [flashed_append, hflashed]; rfl⟩ }

theorem Streamed.fill (h : Streamed u₀ written u) {bytes : List UInt8}
    (hroom : u.bufferLen + bytes.length ≤ u₀.bufferSize)
    (hopen : u.currentAddress - u₀.startAddress ≠ u₀.size) :
    Streamed u₀ (written + bytes.length) (u.fill bytes) := by
  have hlen : (Bytes.memcpy u.buffer u.bufferLen bytes).length = u.buffer.length :=
    Bytes.memcpy_length (by rw [h.buffer]; exact hroom)
  exact { h with
    buffer := hlen.trans h.buffer
    bufferLen_le := hroom
    taken := by rw [← h.taken]; exact (Nat.add_assoc _ _ _).symm
    flushed := fun heq => absurd heq hopen
    log := h.log
    md5 := h.md5 }

theorem Streamed.flush (h : Streamed u₀ written u) (hw : u.writeBuffer = (true, v)) :
    Streamed u₀ written v := by
  obtain ⟨evs, hlog, hflashed⟩ := h.log
  obtain ⟨hne, c₁, c₂, c₃, -, -, hprog, rfl⟩ := Updater.writeBuffer_true hw
  have hle := h.bufferLen_le
  have hlen : u.buffered.length = u.bufferLen := by
    rw [Updater.buffered, List.length_take, h.buffer]
    omega
  have hpos := List.length_pos_iff.mpr hne
  have hcap : u.currentAddress + u.bufferLen ≤ F.capacity := by
    have := hprog.within (List.length_pos_iff.mp (by simpa using hpos))
    rwa [Updater.toProgram_length, hlen] at this
  have hmax := F.capacity_le
  have hstart := h.start_le
  have hcur : u32 (u.currentAddress + u.bufferLen) = u.currentAddress + u.bufferLen :=
    u32_of_lt (by omega)
  have htaken := h.taken
  exact { h with
    buffer := (Updater.toHash_length _ _).trans h.buffer
    bufferLen_le := Nat.zero_le _
    start_le := by
      show u₀.startAddress ≤ u32 (u.currentAddress + u.bufferLen)
      omega
    within := .inr (hcur.symm ▸ hcap)
    taken := by
      show u32 (u.currentAddress + u.bufferLen) - u₀.startAddress + 0 = written
      omega
    flushed := fun _ => rfl
    log := by
      refine ⟨evs ++ Updater.flushEvents u.currentAddress u.bufferLen,
        by rw [hlog, List.append_assoc], ?_⟩
      show _ = u32 (u.currentAddress + u.bufferLen) - u₀.startAddress
      rw [flashed_append, flashed_flushEvents, hflashed]
      omega
    md5 := by
      intro hver
      have hmd5 := h.md5 hver
      show (if u.verifier.isNone then u.md5 ++ u.toHash u.buffered else u.md5).length =
        u32 (u.currentAddress + u.bufferLen) - u₀.startAddress
      rw [if_pos (by rw [h.verifier, hver]; rfl), List.length_append, Updater.toHash_length, hlen]
      omega }

theorem Streamed.round (hb : Updater.Begun u₀) (h : Streamed u₀ written u)
    (hrem : u.remaining ≠ 0) {r : Updater.StreamRead}
    (hmore : (Updater.streamRound r u).more = true) :
    Streamed u₀ (written + (Updater.streamRound r u).written) (Updater.streamRound r u).state := by
  have hopen := fun heq => hrem ((h.remaining_eq_zero_iff hb).mpr heq)
  have hroom : u.bufferLen + (r.offered.take u.bytesToRead).length ≤ u₀.bufferSize := by
    have hle := h.bufferLen_le
    have hsize := h.bufferSize
    rw [List.length_take, Updater.bytesToRead]
    split <;> omega
  rw [Updater.streamRound] at hmore ⊢
  generalize r.offered.take u.bytesToRead = got at hmore hroom ⊢
  have hask := h.ask (u.currentAddress + u.bufferLen) got.length
  dsimp only at hmore ⊢
  generalize hu : ({ u with
    log := u.log ++ [Event.readBytes (u.currentAddress + u.bufferLen) got.length] } :
    Updater F) = u₁ at hmore hask ⊢
  have hfill : Streamed u₀ (written + got.length) (u₁.fill got) := by
    refine hask.fill ?_ ?_
    · rw [← hu]
      exact hroom
    · rw [← hu]
      exact hopen
  by_cases htime : got.length = 0 ∧ r.timeOut = true
  · rw [if_pos htime] at hmore
    cases hmore
  · rw [if_neg htime] at hmore ⊢
    split
    · rename_i hfull
      rw [if_pos hfull] at hmore
      generalize hwb : (u₁.fill got).writeBuffer = res at hmore ⊢
      obtain ⟨ok, w⟩ := res
      cases ok with
      | false => cases hmore
      | true => exact hfill.flush hwb
    · exact hfill

theorem Streamed.done (hb : Updater.Begun u₀) (h : Streamed u₀ written u)
    (hrem : u.remaining = 0) : written = u₀.size := by
  have hend := (h.remaining_eq_zero_iff hb).mp hrem
  rw [← h.taken, h.flushed hend, hend, Nat.add_zero]

/-- **What the loop of `writeStream` comes to**: the update is dropped, or the
write position has come to the end with all that was taken in the flash. -/
theorem Streamed.loop (hb : Updater.Begun u₀) {reads : List Updater.StreamRead} {n : Nat}
    (h : Streamed u₀ written u) (hloop : Updater.streamLoop reads written u = (n, v)) :
    v.size = 0 ∨ Streamed u₀ n v ∧ v.remaining = 0 := by
  induction reads generalizing written u with
  | nil =>
    rw [Updater.streamLoop] at hloop
    by_cases hrem : u.remaining = 0
    · rw [if_pos hrem] at hloop
      obtain ⟨rfl, rfl⟩ := Prod.mk.inj hloop
      exact .inr ⟨h, hrem⟩
    · rw [if_neg hrem] at hloop
      obtain ⟨-, rfl⟩ := Prod.mk.inj hloop
      have hkept := Updater.streamRound_kept ⟨[], true⟩ u
      have hmore : (Updater.streamRound ⟨[], true⟩ u).more = false := by
        rw [Updater.streamRound, List.take_nil]
        rfl
      rw [hmore] at hkept
      exact .inl hkept
  | cons r rest ih =>
    rw [Updater.streamLoop] at hloop
    by_cases hrem : u.remaining = 0
    · rw [if_pos hrem] at hloop
      obtain ⟨rfl, rfl⟩ := Prod.mk.inj hloop
      exact .inr ⟨h, hrem⟩
    · rw [if_neg hrem] at hloop
      have hkept := Updater.streamRound_kept r u
      dsimp only at hloop
      by_cases hmore : (Updater.streamRound r u).more = true
      · rw [if_pos hmore] at hloop
        exact ih (h.round hb hrem hmore) hloop
      · rw [if_neg hmore] at hloop hkept
        obtain ⟨-, rfl⟩ := Prod.mk.inj hloop
        exact .inl hkept

theorem writeStream_spec (hb : Updater.Begun u₀) {peek : UInt8} {reads : List Updater.StreamRead}
    {n : Nat} (hw : u₀.writeStream peek reads = (n, v)) :
    v.size = 0 ∨ Streamed u₀ n v ∧ v.remaining = 0 := by
  have hactive : ¬ (u₀.hasError ∨ ¬ u₀.isRunning) := by
    rintro (herr | hidle)
    · exact herr hb.error
    · exact hidle hb.size_pos
  rw [Updater.writeStream, if_neg hactive] at hw
  have hheader : (u₀.verifyHeader peek).1 = true → (u₀.verifyHeader peek).2 = u₀ := by
    unfold Updater.verifyHeader
    repeat' split
    all_goals simp
  generalize u₀.verifyHeader peek = r at hw hheader
  obtain ⟨ok, w⟩ := r
  cases ok with
  | false =>
    obtain ⟨-, rfl⟩ := Prod.mk.inj hw
    exact .inl rfl
  | true =>
    obtain rfl := hheader rfl
    exact (streamed_begun hb).loop hb hw

theorem endUpdate_size (env : EndEnv) (evenIfRemaining : Bool) (u : Updater F) :
    (u.endUpdate env evenIfRemaining).2.size = 0 := by
  by_cases hsize : u.size = 0
  · rw [Updater.endUpdate, if_pos hsize]
    rfl
  · rw [Updater.endUpdate, if_neg hsize]
    by_cases hnone : u.progress = 0
    · rw [if_pos hnone]
      dsimp only
      rw [if_pos (.inl (by simp [Updater.hasError, Updater.setError, Updater.reset]))]
      rfl
    · rw [if_neg hnone]
      dsimp only
      split
      · rfl
      · split <;> exact Updater.finish_size env _

theorem endUpdate_true {env : EndEnv} (hend : u.endUpdate env false = (true, v)) :
    u.size ≠ 0 ∧ (u.verifier = none → u.target_md5.length ≠ 0 →
      Updater.sameText u.target_md5 (env.md5Text u.md5) = true) := by
  rw [Updater.endUpdate] at hend
  by_cases hsize : u.size = 0
  · rw [if_pos hsize] at hend
    cases hend
  rw [if_neg hsize] at hend
  refine ⟨hsize, fun hver htarget => ?_⟩
  by_cases hprogress : u.progress = 0
  · rw [if_pos hprogress] at hend
    dsimp only at hend
    rw [if_pos (.inl (by simp [Updater.hasError, Updater.setError, Updater.reset]))] at hend
    cases hend
  rw [if_neg hprogress] at hend
  dsimp only at hend
  split at hend
  · cases hend
  · rw [if_neg Bool.false_ne_true, Updater.finish, Updater.checkImage, hver] at hend
    dsimp only at hend
    rw [Updater.checkMd5, if_pos htarget] at hend
    by_cases hsame : Updater.sameText u.target_md5 (env.md5Text u.md5) = true
    · exact hsame
    · dsimp only at hend
      rw [if_neg hsame] at hend
      cases hend

end

/-! ## What an update should come to -/

/-- The update begun in `u₀` has been written to its end, `len` bytes of it,
and has ended in `u₂`; the digest of what was written is the one to expect,
where there is one and no signature check takes its place. -/
structure Complete (board : Board) (tcp : Tcp) (len : Nat) (md5 : List Char)
    (u₀ u₁ u₂ : Updater F) : Prop where
  size : u₀.size = len
  written : u₀.writeStream tcp.peek tcp.reads = (len, u₁)
  inFlash : ∃ evs, u₁.log = u₀.log ++ evs ∧ flashed evs = len
  ended : u₁.endUpdate board.endEnv false = (true, u₂)
  md5 : md5.length ≠ 0 → u₀.verifier = none →
    u₁.md5.length = len ∧ Updater.sameText (cStr md5) (board.endEnv.md5Text u₁.md5) = true

variable {L : Layout}

theorem updateStartAddress_error {command : Int} {sketch rounded : Nat}
    (hc : command = U_FLASH ∨ command = U_FS) {e : Option UpdateError}
    (h : Updater.updateStartAddress L command sketch rounded = .error e) : e = some .space := by
  unfold Updater.updateStartAddress at h
  dsimp only at h
  generalize (if L.FS_start - 0x40200000 > rounded then L.FS_start - 0x40200000 - rounded else 0) =
    start at h
  split at h
  · split at h
    · exact (Except.error.inj h).symm
    · cases h
  · grind

theorem beginUpdate_dropped {env : BeginEnv} {size : Nat} {command : Int}
    (hc : command = U_FLASH ∨ command = U_FS) {u v : Updater F}
    (h : Updater.beginUpdate L env size command u = (false, v)) (hidle : u.size = 0) :
    Updater.Dropped v := by
  unfold Updater.beginUpdate at h
  rw [if_neg (by omega)] at h
  split at h
  · exact (Prod.mk.inj h).2 ▸ Updater.setError_dropped (by decide) _
  split at h
  · exact (Prod.mk.inj h).2 ▸ Updater.setError_dropped (by decide) _
  split at h
  · exact (Prod.mk.inj h).2 ▸ Updater.setError_dropped (by decide) _
  · dsimp only at h
    split at h
    · rename_i hroom
      obtain rfl := Option.some.inj (updateStartAddress_error hc hroom)
      exact (Prod.mk.inj h).2 ▸ Updater.setError_dropped (by decide) _
    · rename_i hroom
      exact nomatch updateStartAddress_error hc hroom
    · split at h
      · exact (Prod.mk.inj h).2 ▸ Updater.setError_dropped (by decide) _
      · cases h

variable {md5 : List Char}

theorem announceMD5_true {u v : Updater F} (h : announceMD5 md5 u = (true, v)) :
    (md5.length ≠ 0 → (cStr md5).length = 32 ∧ v.target_md5 = cStr md5) ∧
      v = { u with target_md5 := v.target_md5 } := by
  unfold announceMD5 Updater.setMD5 at h
  by_cases hmd5 : md5.length ≠ 0
  · rw [if_pos hmd5] at h
    by_cases hlen : (cStr md5).length ≠ 32
    · rw [if_pos hlen] at h
      cases h
    · rw [if_neg hlen] at h
      obtain ⟨-, rfl⟩ := Prod.mk.inj h
      exact ⟨fun _ => ⟨not_not.mp hlen, rfl⟩, rfl⟩
  · rw [if_neg hmd5] at h
    obtain ⟨-, rfl⟩ := Prod.mk.inj h
    exact ⟨fun h => absurd h hmd5, rfl⟩

theorem announceMD5_false_iff {u : Updater F} :
    (announceMD5 md5 u).1 = false ↔ md5.length ≠ 0 ∧ (cStr md5).length ≠ 32 := by
  unfold announceMD5 Updater.setMD5
  by_cases hmd5 : md5.length ≠ 0
  · by_cases hlen : (cStr md5).length ≠ 32 <;> simp [hmd5, hlen]
  · simp [hmd5]

theorem announceMD5_false {u : Updater F} (h : (announceMD5 md5 u).1 = false) :
    (announceMD5 md5 u).2 = u := by
  obtain ⟨hmd5, hlen⟩ := announceMD5_false_iff.mp h
  rw [announceMD5, if_pos hmd5, Updater.setMD5, if_pos hlen]

variable {s' : State F}

theorem runUpdate_cases {board : Board} {tcp : Tcp} {size : Nat} (hsize : size < 4294967296)
    {command : Int} (hc : command = U_FLASH ∨ command = U_FS) {s : State F}
    {ok : Bool}
    (h : runUpdate board tcp size md5 command s = (ok, s')) :
    if ok then
      ∃ u u₀ u₁, Updater.beginUpdate board.layout board.beginEnv size command s.update = (true, u) ∧
        announceMD5 md5 u = (true, u₀) ∧ Complete board tcp size md5 u₀ u₁ s'.update
    else
      ((Updater.beginUpdate board.layout board.beginEnv size command s.update).1 = true ∧
          md5.length ≠ 0 ∧ (cStr md5).length ≠ 32 → s'.update.size = size ∧ 0 < size) ∧
        (¬ ((Updater.beginUpdate board.layout board.beginEnv size command s.update).1 = true ∧
          md5.length ≠ 0 ∧ (cStr md5).length ≠ 32) → s.update.size = 0 → s'.update.size = 0) := by
  rw [runUpdate] at h
  generalize hbegin : Updater.beginUpdate board.layout board.beginEnv size command s.update = r
    at h ⊢
  obtain ⟨began, u⟩ := r
  cases began with
  | false =>
    obtain ⟨rfl, rfl⟩ := Prod.mk.inj h
    rw [if_neg Bool.false_ne_true]
    exact ⟨fun hbad => absurd hbad.1 Bool.false_ne_true, 
      fun _ hidle => (beginUpdate_dropped hc hbegin hidle).size⟩
  | true =>
    have hb := Updater.beginUpdate_begun hsize hbegin
    have husize : u.size = size := by
      obtain ⟨-, c, start, block, -, -, -, rfl⟩ := Updater.beginUpdate_true hbegin
      rfl
    dsimp only at h
    generalize hannounce : announceMD5 md5 u = r at h
    obtain ⟨announced, u₀⟩ := r
    cases announced with
    | false =>
      obtain ⟨rfl, rfl⟩ := Prod.mk.inj h
      have hfalse := congrArg Prod.fst hannounce
      obtain rfl : u₀ = u := by rw [← announceMD5_false hfalse, hannounce]
      rw [if_neg Bool.false_ne_true]
      exact ⟨fun _ => ⟨husize, husize ▸ hb.size_pos⟩,
        fun hbad => absurd ⟨rfl, announceMD5_false_iff.mp hfalse⟩ hbad⟩
    | true =>
      obtain ⟨htarget, heq⟩ := announceMD5_true hannounce
      have hb₀ : Updater.Begun u₀ := by
        rw [heq]
        exact ⟨hb.error, hb.bufferPtr, hb.buffer, hb.bufferSize, hb.bufferLen, hb.size_pos,
          hb.size_lt, hb.start_aligned, hb.start_lt, hb.current, hb.command, hb.md5⟩
      have hu₀size : u₀.size = size := by rw [heq]; exact husize
      have hnot : ¬ ((true : Bool) = true ∧ md5.length ≠ 0 ∧ (cStr md5).length ≠ 32) :=
        fun hbad => hbad.2.2 (htarget hbad.2.1).1
      dsimp only at h
      generalize hw : u₀.writeStream tcp.peek tcp.reads = r at h
      obtain ⟨written, u₁⟩ := r
      have hstream := writeStream_spec hb₀ hw
      dsimp only at h
      by_cases hwritten : written ≠ size
      · rw [if_pos hwritten] at h
        obtain ⟨rfl, rfl⟩ := Prod.mk.inj h
        rw [if_neg Bool.false_ne_true]
        rcases hstream with hdropped | ⟨hstream, hrem⟩
        · exact ⟨fun hbad => absurd hbad hnot, fun _ _ => hdropped⟩
        · exact absurd ((hstream.done hb₀ hrem).trans hu₀size) hwritten
      · rw [if_neg hwritten] at h
        obtain rfl := not_not.mp hwritten
        have hover := endUpdate_size board.endEnv false u₁
        generalize hend : u₁.endUpdate board.endEnv false = r at h hover
        obtain ⟨ended, u₂⟩ := r
        cases ended with
        | false =>
          obtain ⟨rfl, rfl⟩ := Prod.mk.inj h
          rw [if_neg Bool.false_ne_true]
          exact ⟨fun hbad => absurd hbad hnot, fun _ _ => hover⟩
        | true =>
          obtain ⟨rfl, rfl⟩ := Prod.mk.inj h
          obtain ⟨hrunning, hmd5⟩ := endUpdate_true hend
          obtain ⟨hstream, hrem⟩ := hstream.resolve_left hrunning
          have hcur := (hstream.remaining_eq_zero_iff hb₀).mp hrem
          obtain ⟨evs, hlog, hflashed⟩ := hstream.log
          rw [if_pos rfl]
          refine ⟨u, u₀, u₁, rfl, hannounce, hu₀size, hw, ⟨evs, hlog, by omega⟩, hend,
            fun hgiven hver => ⟨by rw [hstream.md5 hver]; omega, ?_⟩⟩
          obtain ⟨hlen, htext⟩ := htarget hgiven
          rw [← htext, ← hstream.target_md5]
          refine hmd5 (hstream.verifier.trans hver) ?_
          rw [hstream.target_md5, htext, hlen]
          decide

/-! ## The whole call -/

/-- What the client asks of the board before the update leaves its MD5 and all
of the updater but the chip and the cached sketch size. -/
structure Asked (s s' : State F) : Prop where
  md5Sum : s'.md5Sum = s.md5Sum
  size : s'.update.size = s.update.size
  verifier : s'.update.verifier = s.update.verifier

theorem Asked.refl (s : State F) : Asked s s := ⟨rfl, rfl, rfl⟩

theorem getSketchMD5_asked (board : Board) (s : State F) : Asked s (getSketchMD5 board s).2 := by
  rw [getSketchMD5]
  split
  · exact .refl s
  · dsimp only
    split
    · split <;> exact ⟨rfl, rfl, rfl⟩
    · exact ⟨rfl, rfl, rfl⟩

theorem addHeaders_asked (board : Board) (s : State F) : Asked s (addHeaders board s).2 :=
  have h := getSketchMD5_asked board _
  ⟨h.md5Sum, h.size, h.verifier⟩

theorem startUpdate_asked (L : Layout) (len : Int) (spiffs : Bool) (s : State F) :
    Asked s { s with update := (startUpdate L len spiffs s.update).2 } := by
  cases spiffs <;> exact ⟨rfl, rfl, rfl⟩

theorem Asked.md5Of {s : State F} (h : Asked s s') (reply : HttpReply) :
    md5Of s' reply = md5Of s reply := by
  rw [HttpUpdate.md5Of, HttpUpdate.md5Of, h.md5Sum]

def commandOf (spiffs : Bool) : Int := if spiffs then U_FS else U_FLASH

theorem commandOf_known (spiffs : Bool) : commandOf spiffs = U_FLASH ∨ commandOf spiffs = U_FS := by
  cases spiffs with
  | false => exact .inl rfl
  | true => exact .inr rfl

/-- The state in which `handleUpdate` has the header lines behind it and has
looked whether the image fits. -/
def asked (board : Board) (reply : HttpReply) (spiffs : Bool) (s : State F) : State F :=
  let s := (addHeaders board s).2
  { s with update := (startUpdate board.layout reply.len spiffs s.update).2 }

/-- The reply offers an image that fits, over a connection whose first bytes
are those of one. -/
structure Offers (board : Board) (reply : HttpReply) (spiffs : Bool) (s : State F) : Prop where
  code : reply.code = HTTP_CODE_OK
  len : 0 < reply.len
  fits : (startUpdate board.layout reply.len spiffs (addHeaders board s).2.update).1 = true
  header : ∃ tcp, reply.tcp = some tcp ∧ (spiffs = false → binHeader F tcp.magic = none)

/-- The reply offers an image, and the board lets its update begin. -/
structure Begins (board : Board) (reply : HttpReply) (spiffs : Bool) (s : State F) : Prop
    extends Offers board reply spiffs s where
  admits : Updater.Admits board.beginEnv reply.len.toNat (asked board reply spiffs s).update
  place : ∃ start, Updater.updateStartAddress board.layout (commandOf spiffs)
    (asked board reply spiffs s).update.sketchEnd (Updater.roundToSector reply.len.toNat) =
      .ok start

/-- The text `setMD5` takes, if there is one to take. -/
def GoodMD5 (md5 : List Char) : Prop := md5.length ≠ 0 → (cStr md5).length = 32

/-- The updater is as a later attempt needs it: success means a complete update,
and after anything else none runs that did not run before. -/
structure Reusable (board : Board) (reply : HttpReply) (spiffs : Bool) (s : State F) : Prop where
  ok : (handleUpdate board reply spiffs s).1 = .HTTP_UPDATE_OK →
    ∃ tcp u₀ u₁, reply.tcp = some tcp ∧ u₀.verifier = s.update.verifier ∧
      Complete board tcp reply.len.toNat (md5Of s reply) u₀ u₁
        (handleUpdate board reply spiffs s).2.update
  otherwise : (handleUpdate board reply spiffs s).1 ≠ .HTTP_UPDATE_OK →
    ¬ s.update.isRunning → ¬ (handleUpdate board reply spiffs s).2.update.isRunning

section

variable {board : Board} {reply : HttpReply} {spiffs : Bool} {s : State F}

theorem asked_asked (board : Board) (reply : HttpReply) (spiffs : Bool) (s : State F) :
    Asked s (asked board reply spiffs s) := by
  have h := addHeaders_asked board s
  have h' := startUpdate_asked board.layout reply.len spiffs (addHeaders board s).2
  exact ⟨h'.md5Sum.trans h.md5Sum, h'.size.trans h.size, h'.verifier.trans h.verifier⟩

theorem handleUpdate_fetch (hcode : reply.code = HTTP_CODE_OK) (hlen : 0 < reply.len)
    (hfits : (startUpdate board.layout reply.len spiffs (addHeaders board s).2.update).1 = true) :
    handleUpdate board reply spiffs s = fetch board reply spiffs (asked board reply spiffs s) := by
  have hpos : ¬ reply.code ≤ 0 := by rw [hcode]; decide
  rw [handleUpdate]
  dsimp only
  rw [if_neg hpos, if_pos hcode, if_pos hlen]
  unfold asked
  dsimp only
  generalize startUpdate board.layout reply.len spiffs (addHeaders board s).2.update = r at hfits ⊢
  obtain ⟨ok, u⟩ := r
  obtain rfl : ok = true := hfits
  rfl

theorem handleUpdate_exit (h : ¬ Offers board reply spiffs s) :
    ∃ result s', handleUpdate board reply spiffs s = (result, s') ∧
      result ≠ .HTTP_UPDATE_OK ∧ s'.update.size = s.update.size := by
  have hheaders := (addHeaders_asked board s).size
  have hasked := (asked_asked board reply spiffs s).size
  by_cases hpos : reply.code ≤ 0
  · refine ⟨.HTTP_UPDATE_FAILED, setLastError reply.code (addHeaders board s).2, ?_, by decide,
      hheaders⟩
    rw [handleUpdate]
    dsimp only
    rw [if_pos hpos]
  by_cases hcode : reply.code = HTTP_CODE_OK
  · by_cases hlen : 0 < reply.len
    · by_cases hfits :
        (startUpdate board.layout reply.len spiffs (addHeaders board s).2.update).1 = true
      · rw [handleUpdate_fetch hcode hlen hfits, fetch]
        cases htcp : reply.tcp with
        | none => exact ⟨_, _, rfl, by decide, hasked⟩
        | some tcp =>
          dsimp only
          cases hheader : (if spiffs then none else binHeader F tcp.magic) with
          | some err => exact ⟨_, _, rfl, by decide, hasked⟩
          | none =>
            refine absurd ⟨hcode, hlen, hfits, tcp, htcp, fun hs => ?_⟩ h
            rwa [if_neg (by simp [hs])] at hheader
      · have hfits := Bool.eq_false_iff.mpr hfits
        refine ⟨.HTTP_UPDATE_FAILED,
          setLastError HTTP_UE_TOO_LESS_SPACE (asked board reply spiffs s), ?_, by decide, hasked⟩
        rw [handleUpdate]
        dsimp only
        rw [if_neg hpos, if_pos hcode, if_pos hlen]
        unfold asked
        dsimp only
        generalize startUpdate board.layout reply.len spiffs (addHeaders board s).2.update = r
          at hfits ⊢
        obtain ⟨ok, u⟩ := r
        obtain rfl : ok = false := hfits
        rfl
    · refine ⟨.HTTP_UPDATE_FAILED, setLastError HTTP_UE_SERVER_NOT_REPORT_SIZE
        (addHeaders board s).2, ?_, by decide, hheaders⟩
      rw [handleUpdate]
      dsimp only
      rw [if_neg hpos, if_pos hcode, if_neg hlen]
  · rw [handleUpdate]
    dsimp only
    rw [if_neg hpos, if_neg hcode]
    repeat' split
    all_goals exact ⟨_, _, rfl, by decide, hheaders⟩

theorem reusable_of_not_offers (h : ¬ Offers board reply spiffs s) :
    Reusable board reply spiffs s := by
  obtain ⟨result, s', heq, hresult, hsize⟩ := handleUpdate_exit h
  constructor
  · grind
  · rw [heq]
    intro _ hidle
    unfold Updater.isRunning at hidle ⊢
    rwa [hsize]

/-- **Which replies leave the updater reusable**: all of those that do not
begin an update, and of those that do, the ones whose MD5 text `setMD5`
takes. -/
theorem handleUpdate_reusable_iff (board : Board) (reply : HttpReply) (spiffs : Bool)
    (s : State F) : Reusable board reply spiffs s ↔
      (Begins board reply spiffs s → GoodMD5 (md5Of s reply)) := by
  by_cases hoffer : Offers board reply spiffs s
  · obtain ⟨tcp, htcp, hheader⟩ := hoffer.header
    have hasked := asked_asked board reply spiffs s
    have hlen := reply.len_lt
    have hcases := fun (ok : Bool) (s' : State F) (h : runUpdate board tcp reply.len.toNat
      (md5Of s reply) (commandOf spiffs) (asked board reply spiffs s) = (ok, s')) =>
        runUpdate_cases (by omega) (commandOf_known spiffs) h
    have hbegins : (Updater.beginUpdate board.layout board.beginEnv reply.len.toNat
        (commandOf spiffs) (asked board reply spiffs s).update).1 = true ↔
        Begins board reply spiffs s := by
      rw [Updater.beginUpdate_fst_iff]
      exact ⟨fun h => ⟨hoffer, h.1, h.2⟩, fun h => ⟨h.admits, h.place⟩⟩
    have hrun : handleUpdate board reply spiffs s =
        match runUpdate board tcp reply.len.toNat (md5Of s reply) (commandOf spiffs)
          (asked board reply spiffs s) with
        | (true, s) => (.HTTP_UPDATE_OK, s)
        | (false, s) => (.HTTP_UPDATE_FAILED, s) := by
      rw [handleUpdate_fetch hoffer.code hoffer.len hoffer.fits, fetch, htcp, hasked.md5Of]
      have hnone : (if spiffs then none else binHeader F tcp.magic) = none := by grind
      dsimp only
      rw [hnone]
      rfl
    generalize runUpdate board tcp reply.len.toNat (md5Of s reply) (commandOf spiffs)
      (asked board reply spiffs s) = r at hcases hrun
    obtain ⟨ok, s'⟩ := r
    have hspec := hcases ok s' rfl
    cases ok with
    | true =>
      rw [if_pos rfl] at hspec
      obtain ⟨u, u₀, u₁, hbegin, hannounce, hcomplete⟩ := hspec
      have hver : u₀.verifier = s.update.verifier := by
        obtain ⟨-, c, start, block, -, -, -, rfl⟩ := Updater.beginUpdate_true hbegin
        rw [(announceMD5_true hannounce).2]
        exact hasked.verifier
      constructor
      · exact fun _ _ hmd5 => ((announceMD5_true hannounce).1 hmd5).1
      · intro _
        constructor
        · grind
        · grind
    | false =>
      rw [if_neg Bool.false_ne_true, hbegins] at hspec
      constructor
      · intro hreusable hbegin hmd5
        by_contra hlen32
        obtain ⟨hrunning, hpos⟩ := hspec.1 ⟨hbegin, hmd5, hlen32⟩
        have hidle : ¬ s.update.isRunning := by
          rw [Updater.isRunning, ← hasked.size, hbegin.admits.idle]
          exact Nat.lt_irrefl 0
        have hfailed : (handleUpdate board reply spiffs s).1 ≠ .HTTP_UPDATE_OK := by grind
        have hover := hreusable.otherwise hfailed hidle
        rw [hrun] at hover
        refine hover ?_
        show 0 < s'.update.size
        omega
      · intro hgood
        have hspec := hspec.2 fun hbad => hbad.2.2 (hgood hbad.1 hbad.2.1)
        constructor
        · grind
        · rw [hrun]
          intro _ hidle
          unfold Updater.isRunning at hidle ⊢
          rw [hspec (by rw [hasked.size]; omega)]
          exact Nat.lt_irrefl 0
  · exact iff_of_true (reusable_of_not_offers hoffer) fun h => absurd h.toOffers hoffer

end

def sampleBoard : Board where
  layout := Updater.sampleLayout
  beginEnv := Updater.sampleBegin
  endEnv := Updater.sampleEnd
  sketchBuf := true

def sampleReply : HttpReply where
  code := 200
  len := 4096
  len_lt := by decide
  xMD5 := ['a', 'b', 'c']
  tcp := some ⟨[0xE9, 0, 0, 0], 0xE9, []⟩

def sampleState : State (Updater.sampleFlash fun _ => false) where
  md5Sum := []
  lastError := 0
  sketchMD5 := []
  update := Updater.init none (Updater.sampleChip (fun _ => false) 0)

/-- The update begun for it is never ended, and a later attempt is refused
because of it. -/
theorem not_handleUpdate_reusable :
    ¬ Reusable sampleBoard sampleReply false sampleState ∧
      (Updater.beginUpdate Updater.sampleLayout Updater.sampleBegin 4096 U_FLASH
        (handleUpdate sampleBoard sampleReply false sampleState).2.update).1 = false := by
  have hfailed : (handleUpdate sampleBoard sampleReply false sampleState).1 =
      .HTTP_UPDATE_FAILED := by decide +kernel
  have hsize : (handleUpdate sampleBoard sampleReply false sampleState).2.update.size = 4096 := by
    decide +kernel
  constructor
  · intro h
    refine h.otherwise (by rw [hfailed]; decide) (by decide +kernel) ?_
    rw [Updater.isRunning, hsize]
    decide
  · rw [Updater.beginUpdate, if_pos (by rw [hsize]; decide)]

end HttpUpdate
