import RalioFirmware.Basis.Runs
import RalioFirmware.Dns.Query

/-!
# The DNS forwarder

The server forwards a request under an id of its own and keeps who it came from in one of
eight places, which the low bits of that id say.  A reply says the id too.  All of this is
compared with a record of the requests that have been forwarded, which nothing is
forgotten from.
-/

namespace Dns

open CString Runs

/-! ## The server -/

/-- `DNSS_REQUESTER`. -/
structure Requester where
  ip : Nat
  port : Nat
  id : Nat
deriving DecidableEq

/-- `kDNSSQueSize`. -/
def queSize : Nat := 8

def slot (id : Nat) : Fin queSize := ⟨id % queSize, Nat.mod_lt _ (by decide)⟩

/-- A `DNSServer`, with `_ids`, which is none of its own; no address is 0. -/
structure Server where
  config : Config
  ids : Nat
  dns : Nat
  que : Option (Fin queSize → Requester)

structure Datagram where
  ip : Nat
  port : Nat
  data : Bytes
deriving DecidableEq

/-- What the server sends on account of a packet: an answer of its own, a request that it
forwards, or a reply that it forwards. -/
inductive Output
  | nothing
  | answered (a : Answer)
  | forwarded (d : Datagram)
  | replied (d : Datagram)
deriving DecidableEq

/-- `ID` of a header, as it stands in memory. -/
def getId (buffer : Bytes) : Nat := (buffer.getD 0 0).toNat + 256 * (buffer.getD 1 0).toNat

def setId (id : Nat) (buffer : Bytes) : Bytes :=
  UInt8.ofNat id :: UInt8.ofNat (id / 256) :: buffer.drop 2

/-- `IANA_DNS_PORT`. -/
def dnsPort : Nat := 53

namespace Server

def downcaseAndRemoveWwwPrefix (domainName : Bytes) : Bytes :=
  let domainName := mapCstr tolower domainName
  if domainName.take 4 = [119, 119, 119, 46] then domainName.drop 4 else domainName

def disableForwarder (domainName : Bytes) (freeResources : Bool) (s : Server) : Server :=
  let domainName :=
    if domainName = [] then s.config.domainName else downcaseAndRemoveWwwPrefix domainName
  let s := { s with config := { s.config with forwarder := false, domainName } }
  if freeResources then { s with dns := 0, que := none } else s

/-- `_que` as it is, or a new one that is free, if there is memory for it. -/
def makeQue (room : Bool) (que : Option (Fin queSize → Requester)) :
    Option (Fin queSize → Requester) :=
  match que with
  | some que => some que
  | none => if room then some fun _ => ⟨0, 0, 0⟩ else none

/-- `enableForwarder`, and whether there is memory for `_que`. -/
def enableForwarder (domainName : Bytes) (dns : Nat) (room : Bool) (s : Server) : Server :=
  let s := s.disableForwarder domainName false
  let s := if dns ≠ 0 then { s with dns } else s
  if s.dns = 0 then s
  else
    let que := makeQue room s.que
    { s with que, config := { s.config with forwarder := que.isSome } }

/-- Which replies are dropped, by the difference of two numbers of 16 bits as an `int`. -/
def tooOld (id : Nat) (s : Server) : Prop := (queSize : Int) ≤ (s.ids % 65536 : Nat) - (id : Int)

instance (id : Nat) (s : Server) : Decidable (s.tooOld id) := inferInstanceAs (Decidable (_ ≤ _))

def forwardReply (buffer : Bytes) (s : Server) : Server × Output :=
  match s.que with
  | none => (s, .nothing)
  | some que =>
    if s.config.forwarder = false then (s, .nothing)
    else if s.tooOld (getId buffer) then (s, .nothing)
    else
      let i := slot (getId buffer)
      if (que i).ip = 0 then (s, .nothing)
      else
        ({ s with que := some (Function.update que i { que i with ip := 0 }) },
          .replied ⟨(que i).ip, (que i).port, setId (que i).id buffer⟩)

def forwardRequest (remoteIP remotePort : Nat) (buffer : Bytes) (s : Server) : Server × Output :=
  match s.que with
  | none => (s, .nothing)
  | some que =>
    if s.config.forwarder = false ∨ s.dns = 0 then (s, .nothing)
    else
      let ids := (s.ids + 1) % 4294967296
      ({ s with ids, que := some (Function.update que (slot ids)
          ⟨remoteIP, remotePort, getId buffer⟩) },
        .forwarded ⟨s.dns, dnsPort, setId (ids % 65536) buffer⟩)

/-- `processNextRequest`.  What follows a read behind the name of the domain is not up to the
server: `beyond` says whether the request is forwarded then. -/
def processNextRequest (remoteIP remotePort : Nat) (buffer : Bytes) (beyond : Bool)
    (s : Server) : Server × Output :=
  if buffer.length > maxPacketSize then (s, .nothing)
  else if buffer.length < headerSize then (s, .nothing)
  else if s.dns ≠ 0 ∧ remoteIP = s.dns then s.forwardReply buffer
  else
    match respondToRequest buffer s.config with
    | .ok .forward => s.forwardRequest remoteIP remotePort buffer
    | .ok a => (s, .answered a)
    | .error _ => if beyond then s.forwardRequest remoteIP remotePort buffer else (s, .nothing)

end Server

/-! ## Runs -/

/-- A request that has been forwarded: whose it is, its id, and the id it was forwarded
under. -/
structure Forwarded where
  requester : Requester
  under : Nat
deriving DecidableEq

/-- A server, and all requests that it has forwarded, the last one first. -/
structure World where
  server : Server
  record : List Forwarded

inductive Action
  | receive (remoteIP remotePort : Nat) (buffer : Bytes) (beyond : Bool)
  | enableForwarder (domainName : Bytes) (dns : Nat) (room : Bool)
  | disableForwarder (domainName : Bytes) (freeResources : Bool)
  | setDNS (dns : Nat)
  | setErrorReplyCode (rcode : ReplyCode)

namespace World

def run (a : Action) (w : World) : Server × Output :=
  match a with
  | .receive remoteIP remotePort buffer beyond =>
    w.server.processNextRequest remoteIP remotePort buffer beyond
  | .enableForwarder domainName dns room => (w.server.enableForwarder domainName dns room, .nothing)
  | .disableForwarder domainName freeResources =>
    (w.server.disableForwarder domainName freeResources, .nothing)
  | .setDNS dns => ({ w.server with dns }, .nothing)
  | .setErrorReplyCode rcode =>
    ({ w.server with config := { w.server.config with errorReplyCode := rcode } }, .nothing)

/-- An action, with its record: a request that is sent to be forwarded. -/
def step (a : Action) (w : World) : World :=
  match a, w.run a with
  | .receive remoteIP remotePort buffer _, (server, .forwarded d) =>
    ⟨server, ⟨⟨remoteIP, remotePort, getId buffer⟩, getId d.data⟩ :: w.record⟩
  | _, (server, _) => { w with server }

/-- A server before `start`; `_ids` is any number, and so is `_forwarder`. -/
def init (ids : Nat) (forwarder : Bool) : World :=
  ⟨⟨⟨[], .nonExistentDomain, forwarder⟩, ids % 4294967296, 0, none⟩, []⟩

/-- The last request that has been forwarded under an id of a place. -/
def lastIn (i : Fin queSize) (record : List Forwarded) : Option Forwarded :=
  record.find? fun q => slot q.under = i

/-- A reply is sent to a client only as the one to the last request of its place, which was
forwarded under just the id that the reply carries, and with the client's id. -/
def Routes (a : Action) (w : World) : Prop :=
  match a, w.run a with
  | .receive _ _ buffer _, (_, .replied d) =>
    ∃ q ∈ lastIn (slot (getId buffer)) w.record, q.under = getId buffer ∧
      d = ⟨q.requester.ip, q.requester.port, setId q.requester.id buffer⟩
  | _, _ => True

/-- A packet that is taken for a reply, and whose place is taken, does not carry an id ahead of
the last one, unless by so much that it is one of the last eight. -/
def Fits (a : Action) (w : World) : Prop :=
  match a with
  | .receive remoteIP _ buffer _ =>
    buffer.length ≤ maxPacketSize → headerSize ≤ buffer.length → w.server.dns ≠ 0 →
      remoteIP = w.server.dns → w.server.config.forwarder = true →
        (∃ que, w.server.que = some que ∧ (que (slot (getId buffer))).ip ≠ 0) →
          ¬ (w.server.ids % 65536 < getId buffer ∧ getId buffer ≤ w.server.ids % 65536 + 65528)
  | _ => True

end World

end Dns
