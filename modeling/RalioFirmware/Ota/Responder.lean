import RalioFirmware.Basis.Runs
import RalioFirmware.Http.Hex

/-!
# The ArduinoOTA responder

A host invites the device to fetch an update by a datagram with the command,
its port, the size and the MD5 of the image.  A responder with a password
answers with a nonce and waits for a datagram that proves the password; only
then does `handle` begin the update.  Anyone can send datagrams, at any time,
also while an update runs.
-/

namespace Ota

open Http CString

structure Datagram where
  data : List UInt8
  remoteAddress : Nat
  remotePort : Nat

/-! ## The receiving side of `UdpContext` -/

/-- The chain of datagrams, the one being read first, and what of that one
has not been read. -/
structure Inbox where
  rx_buf : List Datagram
  first_buf_taken : Bool
  unread : List UInt8

namespace Inbox

def recv (d : Datagram) (u : Inbox) : Inbox :=
  if u.rx_buf.isEmpty then ⟨[d], false, d.data⟩ else { u with rx_buf := u.rx_buf ++ [d] }

def next (u : Inbox) : Bool × Inbox :=
  match u.rx_buf with
  | [] => (false, u)
  | _ :: others =>
    if u.first_buf_taken = false then (true, { u with first_buf_taken := true })
    else
      match others with
      | [] => (false, { u with rx_buf := [], unread := [] })
      | d :: _ => (true, { u with rx_buf := others, unread := d.data })

/-- `while(_udp_ota->next()) _udp_ota->flush();`, of which `rounds` is
enough. -/
def drain : Nat → Inbox → Inbox
  | 0, u => u
  | rounds+1, u =>
    match u.next with
    | (false, u) => u
    | (true, u) => drain rounds { u with unread := [] }

def getRemoteAddress (u : Inbox) : Nat := (u.rx_buf.head?.map Datagram.remoteAddress).getD 0

def getRemotePort (u : Inbox) : Nat := (u.rx_buf.head?.map Datagram.remotePort).getD 0

end Inbox

/-! ## The readers, which give what is left to read too -/

/-- The loop of `parseInt`, which has room for 15 digits. -/
def parseIntLoop : Nat → List UInt8 → List UInt8 → Int × List UInt8
  | 0, _, unread => (0, unread)
  | left+1, data, unread =>
    match unread with
    | [] => (atol data, [])
    | value :: rest =>
      if isdigit value then parseIntLoop left (data ++ [value]) rest else (atol data, unread)

def parseInt (unread : List UInt8) : Int × List UInt8 :=
  parseIntLoop 16 [] (unread.dropWhile (· = 32))

def readStringUntil (stop : UInt8) : List UInt8 → Text × List UInt8
  | [] => ([], [])
  | value :: rest =>
    if value = 0 ∨ value = stop then ([], rest)
    else (value :: (readStringUntil stop rest).1, (readStringUntil stop rest).2)

def equalsConstantTime (s s2 : Text) : Bool :=
  if s.length ≠ s2.length then false
  else if s.length = 0 then true
  else
    let pairs := (cstr s).zip s2
    let equalchars := pairs.countP fun p => p.1 = p.2
    let diffchars := pairs.countP fun p => p.1 ≠ p.2
    equalchars = s.length && diffchars = 0

/-- `String(unsigned long)`. -/
def decimal (n : Nat) : Text := (Nat.toDigits 10 n).map fun c => UInt8.ofNat c.toNat

/-! ## The class -/

inductive State
  | OTA_IDLE
  | OTA_WAITAUTH
  | OTA_RUNUPDATE
deriving DecidableEq

def U_FLASH : Int := 0
def U_FS : Int := 100
def U_AUTH : Int := 200

/-- `ArduinoOTAClass`, as far as an update depends on it.  `password` is the
hash that `setPassword` makes or `setPasswordHash` takes. -/
structure Responder where
  state : State
  password : Text
  nonce : Text
  size : Int
  cmd : Int
  ota_port : Nat
  ota_udp_port : Nat
  ota_ip : Nat
  md5 : Text
  udp : Inbox

/-- What `begin` leaves. -/
def Responder.init (password : Text) : Responder :=
  ⟨.OTA_IDLE, password, [], 0, 0, 0, 0, 0, [], ⟨[], false, []⟩⟩

structure Reply where
  data : Text
  address : Nat
  port : Nat
deriving DecidableEq

section

variable (md5 : Text → Text)

/-- `_onRx` in `OTA_IDLE`: an invitation, or nothing. -/
def onInvitation (micros : Nat) (r : Responder) : List Reply × Responder :=
  let (cmd, unread) := parseInt r.udp.unread
  if cmd ≠ U_FLASH ∧ cmd ≠ U_FS then ([], { r with udp := { r.udp with unread := unread } })
  else
    let (port, unread) := parseInt unread
    let (size, unread) := parseInt unread
    let (line, unread) := readStringUntil 10 (unread.drop 1)
    let r := { r with
      ota_ip := r.udp.getRemoteAddress
      cmd := cmd
      ota_port := (port % 65536).toNat
      ota_udp_port := r.udp.getRemotePort
      size := size
      md5 := line.trim
      udp := { r.udp with unread := unread } }
    if r.md5.length ≠ 32 then ([], r)
    else if r.password.length ≠ 0 then
      let r := { r with nonce := md5 (decimal micros) }
      ([⟨text "AUTH " ++ r.nonce, r.ota_ip, r.ota_udp_port⟩], { r with state := .OTA_WAITAUTH })
    else
      ([], { r with state := .OTA_RUNUPDATE, udp := r.udp.drain (r.udp.rx_buf.length + 1) })

/-- `_onRx` in `OTA_WAITAUTH`. -/
def onAuth (r : Responder) : List Reply × Responder :=
  let (cmd, unread) := parseInt r.udp.unread
  if cmd ≠ U_AUTH then
    ([], { r with state := .OTA_IDLE, udp := { r.udp with unread := unread } })
  else
    let (cnonce, unread) := readStringUntil 32 (unread.drop 1)
    let (response, unread) := readStringUntil 10 unread
    let r := { r with udp := { r.udp with unread := unread } }
    if cnonce.length ≠ 32 ∨ response.length ≠ 32 then ([], { r with state := .OTA_IDLE })
    else
      let challenge := r.password ++ [58] ++ r.nonce ++ [58] ++ cnonce
      let udp := r.udp.drain (r.udp.rx_buf.length + 1)
      if equalsConstantTime (md5 challenge) response then
        ([], { r with state := .OTA_RUNUPDATE, udp := udp })
      else
        ([⟨text "Authentication Failed", r.ota_ip, r.ota_udp_port⟩],
          { r with state := .OTA_IDLE, udp := udp })

def onRx (micros : Nat) (r : Responder) : List Reply × Responder :=
  match r.udp.next with
  | (false, udp) => ([], { r with udp := udp })
  | (true, udp) =>
    let r := { r with udp := udp }
    match r.state with
    | .OTA_IDLE => onInvitation md5 micros r
    | .OTA_WAITAUTH => onAuth md5 r
    | .OTA_RUNUPDATE => ([], { r with udp := r.udp.drain (r.udp.rx_buf.length + 1) })

/-- A datagram arrives, while `micros()` has the given value. -/
def receive (d : Datagram) (micros : Nat) (r : Responder) : List Reply × Responder :=
  onRx md5 micros { r with udp := r.udp.recv d }

/-- Datagrams that arrive while the responder waits for something else. -/
def receiveAll (arrivals : List (Datagram × Nat)) (r : Responder) : Responder :=
  arrivals.foldl (fun r arrival => (receive md5 arrival.1 arrival.2 r).2) r

/-! ## The update -/

inductive UpdateCall
  | begin (size cmd : Int)
  | setMD5 (md5 : Text)
  | connect (address port : Nat)
deriving DecidableEq

/-- What `_runUpdate` meets: the results of `Update.begin`, of the connection
and of `Update.end`, whether a wait for data in the loop took the branch for a
failure, and the datagrams that arrive at each wait. -/
structure UpdateEnv where
  beginOk : Bool
  connectOk : Bool
  endOk : Bool
  failed : List Bool
  arrivals : Nat → List (Datagram × Nat)

/-- The loop of `_runUpdate`: a failure to receive does not end it. -/
def receiveLoop (arrivals : Nat → List (Datagram × Nat)) : Nat → List Bool → Responder → Responder
  | _, [], r => r
  | n, failed :: rest, r =>
    let r := receiveAll md5 (arrivals n) r
    receiveLoop arrivals (n + 1) rest (if failed then { r with state := .OTA_IDLE } else r)

/-- `_runUpdate`: its calls, and the responder after it.  A connection that
failed does not end it either. -/
def runUpdate (env : UpdateEnv) (r : Responder) : List UpdateCall × Responder :=
  let began := .begin r.size r.cmd
  if env.beginOk = false then
    ([began], { receiveAll md5 (env.arrivals 0) r with state := .OTA_IDLE })
  else
    let r := receiveAll md5 (env.arrivals 0) r
    let md5Set := .setMD5 r.md5
    let connected := .connect r.ota_ip r.ota_port
    let r := receiveAll md5 (env.arrivals 1) r
    let r := if env.connectOk then r else { r with state := .OTA_IDLE }
    let r := receiveLoop md5 env.arrivals 3 env.failed r
    let r := if env.endOk then receiveAll md5 (env.arrivals 2) r else { r with state := .OTA_IDLE }
    ([began, md5Set, connected], r)

def handle (env : UpdateEnv) (r : Responder) : List UpdateCall × Responder :=
  if r.state = .OTA_RUNUPDATE then
    let (calls, r) := runUpdate md5 env r
    (calls, { r with state := .OTA_IDLE })
  else ([], r)

inductive Event
  | datagram (d : Datagram) (micros : Nat)
  | handle (env : UpdateEnv)

def Event.run : Event → Responder → Responder
  | .datagram d micros, r => (receive md5 d micros r).2
  | .handle env, r => (Ota.handle md5 env r).2

def after (events : List Event) (r : Responder) : Responder := Runs.after (Event.run md5) events r

end

end Ota
