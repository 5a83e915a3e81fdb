import RalioFirmware.Mdns.Composed

/-!
# Answering a query

`_parseQuery` reads the questions of a packet and collects what is to be answered, for the host
in the parameters of the reply and for each service in the service itself; it reads the known
answers and drops what the querier has; and it sends what is left.  While names are probed it
also settles races for them.

What a response changes here are the states of probing, which `Responder` leaves to the steps
that set them.
-/

namespace Mdns

open CString

/-! ## Reading records -/

/-- `_udpRead16` and `_udpRead32`. -/
def Rx.number (size : Nat) (rx : Rx) : Option (Nat × Rx) :=
  (rx.readBuffer size).1.map fun bytes =>
    (bytes.foldl (fun n b => n * 256 + b.toNat) 0, (rx.readBuffer size).2)

/-- `stcMDNS_RRHeader`. -/
structure RRHeader where
  domain : List UInt8
  attributes : RRAttributes

def readRRHeader (rx : Rx) : Option (RRHeader × Rx) :=
  let r := readRRDomain rx
  if r.ok then
    (r.rx.number 2).bind fun rrType => (rrType.2.number 2).map fun rrClass =>
      (⟨r.name, rrType.1, rrClass.1⟩, rrClass.2)
  else none

/-- `_readRRQuestion`: the flag for a unicast reply is taken out of the class. -/
def readRRQuestion (rx : Rx) : Option ((RRHeader × Bool) × Rx) :=
  (readRRHeader rx).map fun r =>
    ((⟨r.1.domain, r.1.attributes.rrType, r.1.attributes.rrClass &&& 0x7FFF⟩,
      r.1.attributes.rrClass &&& 0x8000 ≠ 0), r.2)

inductive RRData where
  | a (ip : IPAddress)
  | ptr (domain : List UInt8)
  | txt (txts : List ServiceTxt)
  | srv (priority weight port : Nat) (domain : List UInt8)
  | generic

/-- `stcMDNS_RRAnswer`. -/
structure RRAnswer where
  header : RRHeader
  ttl : Nat
  data : RRData

def IPAddress.isSet (ip : IPAddress) : Bool :=
  ip.bytes ≠ [0, 0, 0, 0] && ip.bytes ≠ [255, 255, 255, 255]

def readRRAnswerA (rx : Rx) (rdLength : Nat) : Option (RRData × Rx) :=
  if rdLength = 4 then
    (rx.readBuffer 4).1.bind fun bytes =>
      let ip : IPAddress := fun i => bytes.getD i 0
      if ip.isSet then some (.a ip, (rx.readBuffer 4).2) else none
  else none

def readRRAnswerPTR (rx : Rx) (rdLength : Nat) : Option (RRData × Rx) :=
  let r := readRRDomain rx
  if rdLength ≠ 0 ∧ r.ok then some (.ptr r.name, r.rx) else none

def readRRAnswerSRV (rx : Rx) (rdLength : Nat) : Option (RRData × Rx) :=
  if 6 < rdLength then
    (rx.number 2).bind fun priority => (priority.2.number 2).bind fun weight =>
      (weight.2.number 2).bind fun port =>
        let r := readRRDomain port.2
        if r.ok then some (.srv priority.1 weight.1 port.1 r.name, r.rx) else none
  else none

def readRRAnswerGeneric (rx : Rx) (rdLength : Nat) : Option (RRData × Rx) :=
  if rdLength = 0 then some (.generic, rx)
  else (rx.readBuffer rdLength).1.map fun _ => (.generic, (rx.readBuffer rdLength).2)

/-- The data of an answer of this type; the topmost bit might carry the flag to flush. -/
def readRRData (behind : List UInt8) (rrType rdLength : Nat) (rx : Rx) : Option (RRData × Rx) :=
  let kind := rrType &&& 0x7FFF
  if kind = rrTypeA then readRRAnswerA rx rdLength
  else if kind = rrTypePTR then readRRAnswerPTR rx rdLength
  else if kind = rrTypeTXT then
    (readRRAnswerTXT behind rx rdLength).1.map fun txts =>
      (.txt (txts.map Prod.snd), (readRRAnswerTXT behind rx rdLength).2)
  else if kind = rrTypeSRV then readRRAnswerSRV rx rdLength
  else readRRAnswerGeneric rx rdLength

def readRRAnswer (behind : List UInt8) (rx : Rx) : Option (RRAnswer × Rx) :=
  (readRRHeader rx).bind fun header => (header.2.number 4).bind fun ttl =>
    (ttl.2.number 2).bind fun rdLength =>
      (readRRData behind header.1.attributes.rrType rdLength.1 rdLength.2).map fun data =>
        (⟨header.1, ttl.1, data.1⟩, data.2)

/-! ## What a record asks for -/

/-- `strncasecmp` finds no difference in the first `n` bytes. -/
def sameText : Nat → List UInt8 → List UInt8 → Bool
  | 0, _, _ => true
  | n + 1, a :: as, b :: bs => tolower a = tolower b && (a = 0 || sameText n as bs)
  | _ + 1, _, _ => false

/-- The loop of `stcMDNS_RRDomain::compare`. -/
def sameLabels : List UInt8 → List UInt8 → Bool
  | a :: as, b :: bs =>
    if a = b && sameText a.toNat as bs then
      a = 0 || sameLabels (as.drop a.toNat) (bs.drop a.toNat)
    else false
  | _, _ => false
  termination_by as => as.length
  decreasing_by
    simp only [List.length_drop, List.length_cons]
    omega

/-- `stcMDNS_RRDomain::operator==`. -/
def domainEq (a b : List UInt8) : Bool := a.length = b.length && sameLabels a b

/-- `stcMDNS_RRDomain::operator>`. -/
def domainGt (a b : List UInt8) : Bool := !domainEq a b

def isDomain (domain : List UInt8) (built : Option (List UInt8)) : Bool :=
  built.any (domainEq domain)

def rrTypeANY : Nat := 255
def rrClassANY : Nat := 255

def RRAttributes.answered (a : RRAttributes) : Bool :=
  a.rrClass = rrClassIN || a.rrClass = rrClassANY

def RRAttributes.asks (a : RRAttributes) (rrType : Nat) : Bool :=
  a.rrType = rrType || a.rrType = rrTypeANY

def flagIf (cond : Bool) (flag : BitVec 8) : BitVec 8 := if cond then flag else 0

/-- `_replyMaskForHost`; `netifs` are the addresses of the interfaces that are up and have
one. -/
def replyMaskForHost (netifs : List IPAddress) (hostname : Option (List UInt8)) (h : RRHeader) :
    BitVec 8 :=
  if h.attributes.answered then
    flagIf (h.attributes.asks rrTypePTR &&
        netifs.any fun ip => isDomain h.domain (buildDomainForReverseIP4 ip)) contentFlagPTR_IP4 |||
      flagIf (isDomain h.domain (buildDomainForHost hostname) && h.attributes.asks rrTypeA)
        contentFlagA
  else 0

/-- `p_pbFullNameMatch` of `_replyMaskForHost`. -/
def fullNameMatchForHost (hostname : Option (List UInt8)) (h : RRHeader) : Bool :=
  h.attributes.answered && isDomain h.domain (buildDomainForHost hostname)

def replyMaskForService (h : RRHeader) (s : Service) : BitVec 8 :=
  if h.attributes.answered then
    flagIf (isDomain h.domain buildDomainForDNSSD && h.attributes.asks rrTypePTR)
        contentFlagPTR_TYPE |||
      flagIf (isDomain h.domain (buildDomainForService s false) && h.attributes.asks rrTypePTR)
        contentFlagPTR_NAME |||
      flagIf (isDomain h.domain (buildDomainForService s true) && h.attributes.asks rrTypeSRV)
        contentFlagSRV |||
      flagIf (isDomain h.domain (buildDomainForService s true) && h.attributes.asks rrTypeTXT)
        contentFlagTXT
  else 0

/-- `p_pbFullNameMatch` of `_replyMaskForService`. -/
def fullNameMatchForService (h : RRHeader) (s : Service) : Bool :=
  h.attributes.answered && isDomain h.domain (buildDomainForService s true)

/-- Each item of the first list has its value in the second. -/
def txtsIn (as bs : List ServiceTxt) : Bool :=
  as.all fun a => (bs.find? fun b => strcmp b.key a.key = 0).any fun b =>
    match a.value, b.value with
    | some v, some w => strlen v = strlen w && strcmp v w = 0
    | _, _ => false

/-- `stcMDNSServiceTxts::compare`. -/
def txtsEq (as bs : List ServiceTxt) : Bool :=
  txtsLength as = txtsLength bs && txtsIn as bs && txtsIn bs as

/-! ## The responder -/

/-- `enuProbingStatus`. -/
inductive ProbingStatus where
  | waitingForData
  | readyToStart
  | inProgress
  | done
  deriving DecidableEq

/-- A service with what the responder keeps of it: the state of its probing, whether a race for
its name is to be settled, and whether the application is told how probing ended. -/
structure ServiceState where
  service : Service
  probing : ProbingStatus
  tiebreakNeeded : Bool
  callback : Bool

/-- `MDNSResponder`; `txBuffer` is what stands in the output buffer of its UDP context. -/
structure Responder where
  hostname : Option (List UInt8)
  probing : ProbingStatus
  tiebreakNeeded : Bool
  callback : Bool
  services : List ServiceState
  txBuffer : List UInt8

namespace Responder

def names (r : Responder) : Names := ⟨r.hostname, r.services.map ServiceState.service⟩

def each (r : Responder) (f : ServiceState → ServiceState) : Responder :=
  { r with services := r.services.map f }

end Responder

def ServiceState.withMask (s : ServiceState) (mask : BitVec 8) : ServiceState :=
  { s with service := { s.service with replyMask := mask } }

/-- `_cancelProbingForService`. -/
def ServiceState.cancelProbing (s : ServiceState) : ServiceState :=
  { s with probing := .waitingForData, tiebreakNeeded := false }

/-- The loop of `_cancelProbingForHost`: on to the first service whose application is told. -/
def cancelServices : List ServiceState → List ServiceState
  | [] => []
  | s :: rest =>
    if s.callback then s.cancelProbing :: rest else s.cancelProbing :: cancelServices rest

/-- `_cancelProbingForHost`. -/
def Responder.cancelProbing (r : Responder) : Responder :=
  { r with
    probing := .waitingForData
    tiebreakNeeded := false
    services := if r.callback then r.services else cancelServices r.services }

/-- What comes with a packet: its sender's port, whether the sender is in a subnet of ours, its
address, the address of the interface it came in through, and those of all interfaces that are
up; and what stands in memory behind the data of its TXT records while they are read. -/
structure Packet where
  bytes : List UInt8
  remotePort : Nat
  isLocal : Bool
  remote : IPAddress
  input : IPAddress
  netifs : List IPAddress
  behind : List UInt8

/-- `DNS_MQUERY_PORT`. -/
def mqueryPort : Nat := 5353

/-! ## Sending -/

inductive Destination where
  | unicast (ip : IPAddress) (port : Nat)
  | multicast (through : IPAddress)

structure Datagram where
  destination : Destination
  bytes : List UInt8

/-- What the composing of a message leaves in the output buffer when it fails. -/
abbrev Leftover := Names → SendParameter → IPAddress → List UInt8

/-- A message to one destination.  What is sent leaves the buffer, also if the network refuses
it; what fails before stays there. -/
def Responder.transmit (leftover : Leftover) (p : SendParameter) (ip : IPAddress)
    (destination : Destination) (r : Responder) : List Datagram × Responder :=
  match prepareMDNSMessage r.names p ip with
  | some out => ([⟨destination, r.txBuffer ++ out.bytes⟩], { r with txBuffer := [] })
  | none => ([], { r with txBuffer := r.txBuffer ++ leftover r.names p ip })

/-- `_sendMDNSMessage_Multicast`. -/
def Responder.multicast (leftover : Leftover) (p : SendParameter) :
    List IPAddress → Responder → List Datagram × Responder
  | [], r => ([], r)
  | ip :: rest, r =>
    let sent := r.transmit leftover p ip (.multicast ip)
    let more := multicast leftover p rest sent.2
    (sent.1 ++ more.1, more.2)

/-- `_sendMDNSMessage`: at the end the masks of all services are cleared. -/
def Responder.sendMDNSMessage (leftover : Leftover) (p : SendParameter)
    (unicast : Option (IPAddress × Destination)) (netifs : List IPAddress) (r : Responder) :
    List Datagram × Responder :=
  let sent := match unicast with
    | some (ip, destination) => r.transmit leftover p ip destination
    | none => r.multicast leftover p netifs
  (sent.1, sent.2.each fun s => s.withMask 0)

/-! ## Questions -/

/-- What `_parseQuery` works on: the responder, the parameters of the reply, whether it goes to
the querier alone, and `u8HostOrServiceReplies`. -/
structure Parse where
  responder : Responder
  send : SendParameter
  unicast : Bool
  replies : BitVec 8

def Parse.start (r : Responder) : Parse :=
  ⟨r, ⟨0, 0, false, false, false, false, true, []⟩, false, 0⟩

def Parse.hostQuestion (pkt : Packet) (h : RRHeader) (st : Parse) : Parse :=
  let mask := replyMaskForHost pkt.netifs st.responder.hostname h
  let planned := st.send.hostReplyMask ||| if st.responder.probing = .done then mask else 0
  let race := decide (st.responder.probing = .inProgress) && decide (mask ≠ 0) &&
    fullNameMatchForHost st.responder.hostname h
  { st with
    send := { st.send with hostReplyMask := planned }
    replies := planned
    responder :=
      { st.responder with tiebreakNeeded := st.responder.tiebreakNeeded || race } }

def ServiceState.question (h : RRHeader) (s : ServiceState) : ServiceState :=
  let mask := replyMaskForService h s.service
  let race := decide (s.probing = .inProgress) && decide (mask ≠ 0) &&
    fullNameMatchForService h s.service
  { s.withMask (s.service.replyMask ||| if s.probing = .done then mask else 0) with
    tiebreakNeeded := s.tiebreakNeeded || race }

def Parse.serviceQuestion (h : RRHeader) (st : Parse) : Parse :=
  let responder := st.responder.each fun s => s.question h
  { st with
    responder := responder
    replies := responder.services.foldl (fun mask s => mask ||| s.service.replyMask) st.replies }

/-- Unicast and legacy queries.  One that is to be answered must come from a local host. -/
def Parse.unicastQuestion (pkt : Packet) (header : MsgHeader) (q : RRHeader × Bool)
    (st : Parse) : Bool × Parse :=
  if (pkt.remotePort ≠ mqueryPort ∨ q.2) ∧ ¬st.unicast then
    let st := { st with unicast := true, send := { st.send with cacheFlush := false } }
    if pkt.remotePort ≠ mqueryPort ∧ header.qdCount = 1 ∧
        (st.send.hostReplyMask ≠ 0 ∨ st.replies ≠ 0) then
      if pkt.isLocal then
        (true, { st with
          send := { st.send with
            id := header.id, legacyQuery := true, questions := [⟨q.1.domain, q.1.attributes⟩] } })
      else (false, st)
    else (true, st)
  else (true, st)

def Parse.question (pkt : Packet) (header : MsgHeader) (q : RRHeader × Bool) (st : Parse) :
    Bool × Parse :=
  ((st.hostQuestion pkt q.1).serviceQuestion q.1).unicastQuestion pkt header q

def questionLoop (pkt : Packet) (header : MsgHeader) : Nat → Rx → Parse → Option Rx × Parse
  | 0, rx, st => (some rx, st)
  | n + 1, rx, st =>
    match readRRQuestion rx with
    | none => (none, st)
    | some (q, rx) =>
      match st.question pkt header q with
      | (false, st) => (none, st)
      | (true, st) => questionLoop pkt header n rx st

/-! ## Known answers -/

/-- A known answer for the host that lives long enough is not sent again. -/
def Parse.hostKnown (pkt : Packet) (known : RRAnswer) (st : Parse) : Parse :=
  let mask := st.send.hostReplyMask
  let found := mask &&& replyMaskForHost pkt.netifs st.responder.hostname known.header
  let planned :=
    if found ≠ 0 ∧ hostTTL / 2 ≤ known.ttl then
      match known.data with
      | .ptr domain =>
        if isDomain domain (buildDomainForHost st.responder.hostname) ∧
            asked found contentFlagPTR_IP4 then
          mask &&& ~~~contentFlagPTR_IP4
        else mask
      | .a ip =>
        if asked found contentFlagA ∧ ip.bytes = pkt.input.bytes then mask &&& ~~~contentFlagA
        else mask
      | _ => mask
    else mask
  { st with send := { st.send with hostReplyMask := planned } }

def ipValue (ip : IPAddress) : Nat :=
  ip.bytes.foldr (fun byte value => byte.toNat + 256 * value) 0

def Responder.hostTiebreak (pkt : Packet) (known : RRAnswer) (r : Responder) : Responder :=
  if r.tiebreakNeeded ∧ isDomain known.header.domain (buildDomainForHost r.hostname) then
    match known.data with
    | .a ip =>
      if ip.bytes = pkt.input.bytes then { r with tiebreakNeeded := false }
      else if ipValue ip > ipValue pkt.input then
        { r.cancelProbing with tiebreakNeeded := false }
      else { r with tiebreakNeeded := false }
    | _ => r
  else r

/-- A known answer for a service that lives long enough is not sent again. -/
def ServiceState.known (hostname : Option (List UInt8)) (known : RRAnswer) (s : ServiceState) :
    ServiceState :=
  let mask := s.service.replyMask
  let found := mask &&& replyMaskForService known.header s.service
  if found ≠ 0 ∧ serviceTTL / 2 ≤ known.ttl then
    match known.data with
    | .ptr domain =>
      let mask :=
        if asked found contentFlagPTR_TYPE ∧
            isDomain domain (buildDomainForService s.service false) then
          mask &&& ~~~contentFlagPTR_TYPE
        else mask
      s.withMask
        (if asked found contentFlagPTR_NAME ∧
            isDomain domain (buildDomainForService s.service true) then
          mask &&& ~~~contentFlagPTR_NAME
        else mask)
    | .srv priority weight port domain =>
      s.withMask
        (if asked found contentFlagSRV ∧ isDomain domain (buildDomainForHost hostname) ∧
            priority = 0 ∧ weight = 0 ∧ port = s.service.port then
          mask &&& ~~~contentFlagSRV
        else mask)
    | .txt txts =>
      s.withMask
        (if asked found contentFlagTXT ∧ txtsEq s.service.collected txts then
          mask &&& ~~~contentFlagTXT
        else mask)
    | _ => s
  else s

/-- A race for a service's name: the higher host domain wins. -/
def ServiceState.tiebreak (hostname : Option (List UInt8)) (known : RRAnswer)
    (s : ServiceState) : ServiceState :=
  if s.tiebreakNeeded ∧ isDomain known.header.domain (buildDomainForService s.service true) then
    match known.data with
    | .srv _ _ _ domain =>
      if isDomain domain (buildDomainForHost hostname) then { s with tiebreakNeeded := false }
      else if domainGt domain ((buildDomainForHost hostname).getD []) then
        { s.cancelProbing with tiebreakNeeded := false }
      else { s with tiebreakNeeded := false }
    | _ => s
  else s

def Parse.answer (pkt : Packet) (known : RRAnswer) (st : Parse) : Parse :=
  if known.header.attributes.rrType ≠ rrTypeANY ∧ known.header.attributes.rrClass ≠ rrClassANY then
    let st := st.hostKnown pkt known
    let r := st.responder.hostTiebreak pkt known
    { st with
      responder := r.each fun s => (s.known r.hostname known).tiebreak r.hostname known }
  else st

def answerLoop (pkt : Packet) : Nat → Rx → Parse → Bool × Parse
  | 0, _, st => (true, st)
  | n + 1, rx, st =>
    match readRRAnswer pkt.behind rx with
    | none => (false, st)
    | some (known, rx) => answerLoop pkt n rx (st.answer pkt known)

/-! ## The packet -/

/-- The part of `_parseQuery` that reads. -/
def readQuery (pkt : Packet) (header : MsgHeader) (rx : Rx) (r : Responder) : Bool × Parse :=
  match questionLoop pkt header header.qdCount rx (Parse.start r) with
  | (none, st) => (false, st)
  | (some rx, st) =>
    answerLoop pkt (header.anCount + header.nsCount + header.arCount) rx st

def Parse.replyNeeded (st : Parse) : BitVec 8 :=
  st.responder.services.foldl (fun mask s => mask ||| s.service.replyMask) st.send.hostReplyMask

def Parse.reply (st : Parse) : SendParameter :=
  { st.send with response := true, authorative := true }

def Parse.unicastTo (pkt : Packet) (st : Parse) : Option (IPAddress × Destination) :=
  if st.unicast then some (pkt.input, .unicast pkt.remote pkt.remotePort) else none

def Responder.resetTiebreaks (r : Responder) : Responder :=
  { r with
    tiebreakNeeded := false
    services := r.services.map fun s => { s with tiebreakNeeded := false } }

def parseQuery (leftover : Leftover) (pkt : Packet) (header : MsgHeader) (rx : Rx)
    (r : Responder) : List Datagram × Responder :=
  let read := readQuery pkt header rx r
  let sent :=
    if read.1 ∧ read.2.replyNeeded ≠ 0 then
      read.2.responder.sendMDNSMessage leftover read.2.reply (read.2.unicastTo pkt) pkt.netifs
    else ([], read.2.responder)
  (sent.1, sent.2.resetTiebreaks)

/-- `_readMDNSMsgHeader`, as far as it is used; the code of the operation keeps one of its bits. -/
def readMDNSMsgHeader (rx : Rx) : Option ((MsgHeader × Bool) × Rx) :=
  (rx.number 2).bind fun id => (id.2.number 1).bind fun b1 => (b1.2.number 1).bind fun b2 =>
    (b2.2.number 2).bind fun qd => (qd.2.number 2).bind fun an => (an.2.number 2).bind fun ns =>
      (ns.2.number 2).map fun ar =>
        ((⟨id.1, b1.1 &&& 0x80 ≠ 0, b1.1 &&& 0x04 ≠ 0, qd.1, an.1, ns.1, ar.1⟩,
          (b1.1 &&& 0x78) &&& 0x0F = 0), ar.2)

def parseMessage (leftover : Leftover) (pkt : Packet) (r : Responder) :
    List Datagram × Responder :=
  match readMDNSMsgHeader ⟨pkt.bytes, 0, Nat.zero_le _⟩ with
  | none => ([], r)
  | some ((header, standard), rx) =>
    if standard ∧ ¬header.qr then parseQuery leftover pkt header rx r else ([], r)

end Mdns
