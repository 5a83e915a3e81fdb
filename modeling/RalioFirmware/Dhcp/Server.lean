import RalioFirmware.Basis.Runs
import RalioFirmware.Dhcp.Message

/-!
# The DHCP server

The pool is a list of leases, which the server keeps in the order of the
addresses as it sees them, with the last octet in front.  Each message with the
magic cookie updates the pool first, from the hardware address and `ciaddr`, and
is answered from what comes of that.
-/

open Word

namespace Dhcp

/-! ## The pool -/

/-- `htonl` and `ntohl`. -/
def htonl (n : Nat) : Nat :=
  n % 256 * 16777216 + n / 256 % 256 * 65536 + n / 65536 % 256 * 256 + n / 16777216 % 256

def IPADDR_ANY : Nat := 0
def IPADDR_BROADCAST : Nat := 0xFFFFFFFF
def DHCPS_MAX_LEASE : Nat := 100
def MAX_STATION_NUM : Nat := 8

inductive DhcpsType
  | dynamic
  | static
deriving DecidableEq

inductive LeaseState
  | online
  | offline
deriving DecidableEq

structure DhcpsPool where
  ip : Nat
  mac : List UInt8
  lease_timer : Nat
  type : DhcpsType
  state : LeaseState
deriving DecidableEq

/-- `node_insert_to_list`. -/
def nodeInsert (node : DhcpsPool) : List DhcpsPool → List DhcpsPool
  | [] => [node]
  | e :: rest => if node.ip < e.ip then node :: e :: rest else e :: nodeInsert node rest

/-- What the loop of `dhcps_client_update` finds: the places of the client and of
the address it names, and the address for a client that names none. -/
structure Scan where
  pmac : Option Nat
  pip : Option Nat
  flag : Bool
  start_ip : Nat

/-- The loop of `dhcps_client_update`, from place `i` on. -/
def scan (bssid : List UInt8) (ip : Option Nat) : Nat → List DhcpsPool → Scan → Scan
  | _, [], sc => sc
  | i, e :: rest, sc =>
    let sc := if e.mac = bssid then { sc with pmac := some i } else sc
    match ip with
    | none =>
      if e.mac = bssid then { sc with flag := true }
      else if sc.flag = false then
        if e.ip ≠ sc.start_ip then scan bssid ip (i + 1) rest { sc with flag := true }
        else scan bssid ip (i + 1) rest { sc with start_ip := htonl (u32 (htonl sc.start_ip + 1)) }
      else scan bssid ip (i + 1) rest sc
    | some addr => scan bssid ip (i + 1) rest (if e.ip = addr then { sc with pip := some i } else
        sc)

/-- The first lease with the least timer, and how many leases stand before it. -/
def oldest : List DhcpsPool → Nat
  | [] => 0
  | e :: rest =>
    match rest[oldest rest]? with
    | none => 0
    | some m => if m.lease_timer < e.lease_timer then oldest rest + 1 else 0

/-- `kill_oldest_dhcps_pool`: the first lease is never killed, and the last one
is marked. -/
def killOldest : List DhcpsPool → List DhcpsPool
  | [] => []
  | e :: rest =>
    let marked := rest.modify (rest.length - 1) fun last => { last with state := .offline }
    e :: marked.eraseIdx (oldest rest)

/-- `dhcps_coarse_tmr`. -/
def coarseTmr (plist : List DhcpsPool) : List DhcpsPool :=
  let aged := plist.map fun e =>
    if e.type = .dynamic then { e with lease_timer := sub32 e.lease_timer 1 } else e
  let kept := aged.filter fun e => e.lease_timer ≠ 0
  if kept.length ≥ MAX_STATION_NUM then killOldest kept else kept

/-- `dhcps_client_leave`. -/
def clientLeave (bssid : List UInt8) (ip : Nat) (force : Bool) : List DhcpsPool → List DhcpsPool
  | [] => []
  | e :: rest =>
    if e.mac = bssid ∧ e.ip = ip then
      if e.type = .static ∨ force then rest else { e with state := .offline } :: rest
    else e :: clientLeave bssid ip force rest

/-! ## The server -/

/-- What the server keeps, and the settings it answers with. -/
structure DhcpServer where
  settings : Settings
  start_ip : Nat
  end_ip : Nat
  plist : List DhcpsPool
  renew : Bool
  client_address : Nat

namespace DhcpServer

/-- `init_dhcps_lease`: the range to lease from, out of the one configured. -/
def initLease (ip : Nat) (enable : Bool) (start_ip end_ip : Nat) : Nat × Nat :=
  let softap_ip := htonl ip
  let start := htonl start_ip
  let last := htonl end_ip
  let enable := enable && !decide (start ≤ softap_ip ∧ softap_ip ≤ last)
    && !decide (start / 256 ≠ softap_ip / 256 ∨ last / 256 ≠ softap_ip / 256 ∨
      sub32 last start > DHCPS_MAX_LEASE)
  if enable then (start_ip, end_ip)
  else
    let net := softap_ip / 256 * 256
    let local_ip := softap_ip % 256
    let local_ip := if local_ip ≥ 128 then local_ip - DHCPS_MAX_LEASE else local_ip + 1
    (htonl (net + local_ip), htonl (net + (local_ip + DHCPS_MAX_LEASE - 1)))

/-- A server after `begin`, with a range configured or not. -/
def start (settings : Settings) (enable : Bool) (start_ip end_ip : Nat) : DhcpServer where
  settings := settings
  start_ip := (initLease settings.ip_addr enable start_ip end_ip).1
  end_ip := (initLease settings.ip_addr enable start_ip end_ip).2
  plist := []
  renew := false
  client_address := 0

def softap : DhcpServer :=
  start ⟨0x0104A8C0, 0x00FFFFFF, 0x0104A8C0, 720, true, 0, []⟩ false 0 0

def online (s : DhcpServer) (type : DhcpsType) (e : DhcpsPool) : DhcpsPool :=
  { e with lease_timer := s.settings.lease_time, type := type, state := .online }

/-- `dhcps_client_update`, behind its loop. -/
def assign (bssid : List UInt8) (ip : Option Nat) (sc : Scan) (s : DhcpServer) :
    Nat × DhcpServer :=
  let type := if ip = none then .dynamic else .static
  let addr := ip.getD sc.start_ip
  match sc.pmac, sc.pip with
  | some m, some i =>
    match s.plist[i]? with
    | none => (IPADDR_ANY, s)
    | some e =>
      if i ≠ m then
        if e.state ≠ .offline then (IPADDR_ANY, s)
        else
          let plist := s.plist.set i (s.online type { e with mac := bssid })
          (e.ip, { s with plist := plist.eraseIdx m })
      else (e.ip, { s with plist := s.plist.set i (s.online .dynamic e), renew := true })
  | some m, none =>
    match s.plist[m]? with
    | none => (IPADDR_ANY, s)
    | some e =>
      (addr, { s with
        plist := nodeInsert (s.online type { e with ip := addr }) (s.plist.eraseIdx m) })
  | none, some i =>
    match s.plist[i]? with
    | none => (IPADDR_ANY, s)
    | some e =>
      if e.state ≠ .offline then (IPADDR_ANY, s)
      else (e.ip, { s with plist := s.plist.set i (s.online type { e with mac := bssid }) })
  | none, none =>
    if addr > s.end_ip then (IPADDR_ANY, s)
    else (addr, { s with
      plist := nodeInsert ⟨addr, bssid, s.settings.lease_time, type, .online⟩ s.plist })

/-- `dhcps_client_update`. -/
def clientUpdate (bssid : List UInt8) (ip : Nat) (s : DhcpServer) : Nat × DhcpServer :=
  if ip = IPADDR_BROADCAST then (IPADDR_ANY, s)
  else
    let ip := if ip = IPADDR_ANY then none else some ip
    let s := { s with renew := false }
    let sc := scan bssid ip 0 s.plist ⟨none, none, false, s.start_ip⟩
    if ip = none ∧ sc.flag = false ∧ sc.start_ip > s.end_ip then (IPADDR_ANY, s)
    else s.assign bssid ip sc

/-- `parse_msg`: what the options ask for, if the cookie is there. -/
def parseMsg (mem : Memory) (len : Int) (s : DhcpServer) :
    Option (Option (Walk × DhcpsState) × DhcpServer) :=
  if load mem OPTIONS 4 = MagicCookie then
    let bssid := load mem CHADDR 6
    let ip := loadAddr mem CIADDR
    let (addr, s) := s.clientUpdate bssid ip
    let s := { s with client_address := addr }
    (parseOptions addr s.renew mem (OPTIONS + 4) len).map fun parsed =>
      if parsed.2 = .release then
        (some parsed, { s with
          plist := clientLeave bssid ip true s.plist
          client_address := ip })
      else (some parsed, s)
  else some (none, s)

def replyTo : DhcpsState → Option ReplyType
  | .offer => some .offer
  | .ack => some .ack
  | .nak => some .nak
  | .decline | .idle | .release => none

/-- What a packet comes to: the server after it, the reply, if any, and the
offsets into the message that have been written, and read for the options. -/
structure Handled where
  server : DhcpServer
  reply : Option (ReplyType × List UInt8)
  writes : List Nat
  reads : List Nat

def answer (mem : Memory) (parsed : Option (Walk × DhcpsState)) (s : DhcpServer) : Handled :=
  match parsed.bind fun e => replyTo e.2 with
  | none => ⟨s, none, [], (parsed.map fun e => e.1.reads).getD []⟩
  | some type =>
    let writes := replyWrites s.settings type s.client_address
    ⟨s, some (type, load (store writes mem) 0 MSG_SIZE), writes.map Prod.fst,
      (parsed.map fun e => e.1.reads).getD []⟩

/-- `handle_dhcp`, for a message that could be allocated; nothing if it does not
end. -/
def handleDhcp (p : List (List UInt8)) (heap : Memory) (s : DhcpServer) : Option Handled :=
  let mem := copyPacket p heap
  (s.parseMsg mem (optionsLength p)).map fun r =>
    let h := answer mem r.1 r.2
    { h with writes := (bytesAt 0 (received p)).map Prod.fst ++ h.writes }

end DhcpServer

end Dhcp
