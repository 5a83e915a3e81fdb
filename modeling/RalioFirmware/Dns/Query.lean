import RalioFirmware.Basis.CString

/-!
# What the DNS server makes of a packet

A pointer into the packet is what stands from there on, and a pointer into the name of the
server's own domain likewise, with the NUL that ends it.  Where nothing stands any more,
nothing may be read.
-/

namespace Dns

open CString

abbrev Bytes := List UInt8

/-- `DNSReplyCode`. -/
inductive ReplyCode
  | noError
  | formError
  | serverFailure
  | nonExistentDomain
  | notImplemented
  | refused
  | yxDomain
  | yxRRSet
  | nxRRSet
deriving DecidableEq

/-- What is read outside of: the packet, or the name of the domain. -/
inductive Fault
  | packet
  | domain
deriving DecidableEq

/-- What the server does about a request: nothing, a reply with an error and maybe the query,
a reply with its own address, or it is to be forwarded. -/
inductive Answer
  | ignored
  | error (rcode : ReplyCode) (query : Option Bytes)
  | ip (query : Bytes)
  | forward
deriving DecidableEq

/-- What `respondToRequest` reads of a `DNSServer`. -/
structure Config where
  domainName : Bytes
  errorReplyCode : ReplyCode
  forwarder : Bool

/-- `*p`. -/
def deref (fault : Fault) (p : Bytes) : Except Fault UInt8 :=
  match p with
  | [] => .error fault
  | b :: _ => .ok b

def short (p : Bytes) : Except Fault Nat := do
  let high ← deref .packet p
  let low ← deref .packet (p.drop 1)
  return 256 * high.toNat + low.toNat

/-! ## The header -/

/-- `DNS_HEADER_SIZE`. -/
def headerSize : Nat := 12

/-- `QR`, of the third byte. -/
def qr (flags : UInt8) : Nat := flags.toNat / 128

/-- `OPCode`, of the third byte. -/
def opCode (flags : UInt8) : Nat := flags.toNat / 8 % 16

/-! ## The loops -/

/-- The loop over the labels of the question: where it ends and how much remains, unless a
label does not fit. -/
def skipName : Nat → Bytes → Nat → Except Fault (Option (Bytes × Nat))
  | 0, _, _ => .ok none
  | fuel + 1, start, remaining =>
    if remaining = 0 then .ok (some (start, remaining))
    else do
      let labelLength ← deref .packet start
      if labelLength = 0 then return some (start, remaining)
      if labelLength.toNat + 1 > remaining then return none
      skipName fuel (start.drop (labelLength.toNat + 1)) (remaining - (labelLength.toNat + 1))

/-- `strncasecmp` with "www". -/
def startsWithWww (p : Bytes) : Except Fault Bool := do
  let a ← deref .packet p
  if tolower a ≠ 119 then return false
  let b ← deref .packet (p.drop 1)
  if tolower b ≠ 119 then return false
  let c ← deref .packet (p.drop 2)
  return tolower c = 119

def skipWww (start : Bytes) : Except Fault Bytes := do
  let labelLength ← deref .packet start
  if labelLength = 3 then do
    let www ← startsWithWww (start.drop 1)
    return if www then start.drop 4 else start
  else return start

/-- The loop over the characters of a label: where it leaves off in the packet and in the
domain, unless they differ. -/
def matchLabel : Nat → Bytes → Bytes → Except Fault (Option (Bytes × Bytes))
  | 0, start, matchString => .ok (some (start, matchString))
  | labelLength + 1, start, matchString => do
    let b ← deref .packet start
    let c ← deref .domain matchString
    if tolower b ≠ c then return none
    matchLabel labelLength (start.drop 1) (matchString.drop 1)

/-- How a name compares with the domain: it is the domain, or a character is another one, or
one of them ends where the other does not. -/
inductive Match
  | own
  | differs
  | ends
deriving DecidableEq

def matchName : Nat → Bytes → Bytes → Except Fault Match
  | 0, _, _ => .error .packet
  | fuel + 1, start, matchString => do
    let labelLength ← deref .packet start
    if labelLength = 0 then return .ends
    match ← matchLabel labelLength.toNat (start.drop 1) matchString with
    | none => return .differs
    | some (start, matchString) => do
      let next ← deref .packet start
      let c ← deref .domain matchString
      if next = 0 ∧ c = 0 then return .own
      if c ≠ 46 then return .ends
      matchName fuel start (matchString.drop 1)

/-! ## `respondToRequest` -/

/-- What is done about a question of a type and class that the server answers. -/
def answerName (query : Bytes) (queryLength : Nat) (s : Config) : Except Fault Answer := do
  let refusal := Answer.error s.errorReplyCode (some (query.take queryLength))
  if s.domainName.length = 0 then return if s.forwarder then .forward else refusal
  if cstr s.domainName = [42] then return .ip (query.take queryLength)
  let start ← skipWww query
  match ← matchName (query.length + 1) start (cstr s.domainName ++ [0]) with
  | .own => return .ip (query.take queryLength)
  | .differs => return if s.forwarder then .forward else refusal
  | .ends => return refusal

def answerQuestion (query : Bytes) (s : Config) : Except Fault Answer := do
  match ← skipName (query.length + 1) query query.length with
  | none => return .error .formError none
  | some (start, remaining) =>
    if remaining < 5 then return .error .formError none
    else do
      let qtype ← short (start.drop 1)
      let qclass ← short (start.drop 3)
      let queryLength := query.length - (start.drop 5).length
      if qclass ≠ 255 ∧ qclass ≠ 1 then
        return .error .nonExistentDomain (some (query.take queryLength))
      if qtype ≠ 1 ∧ qtype ≠ 255 then
        return .error .nonExistentDomain (some (query.take queryLength))
      answerName query queryLength s

def respondToRequest (buffer : Bytes) (s : Config) : Except Fault Answer := do
  let flags ← deref .packet (buffer.drop 2)
  if qr flags ≠ 0 then return .ignored
  if opCode flags ≠ 0 then return .error .notImplemented none
  let qdCount ← short (buffer.drop 4)
  if qdCount ≠ 1 then return .error .formError none
  let anCount ← short (buffer.drop 6)
  let nsCount ← short (buffer.drop 8)
  let arCount ← short (buffer.drop 10)
  if anCount ≠ 0 ∨ nsCount ≠ 0 ∨ arCount ≠ 0 then return .error .formError none
  answerQuestion (buffer.drop headerSize) s

/-- `MAX_DNS_PACKETSIZE`. -/
def maxPacketSize : Nat := 512

/-- `processNextRequest`, for a packet of a client. -/
def answer (buffer : Bytes) (s : Config) : Except Fault Answer :=
  if buffer.length > maxPacketSize then .ok .ignored
  else if buffer.length < headerSize then .ok .ignored
  else respondToRequest buffer s

end Dns
