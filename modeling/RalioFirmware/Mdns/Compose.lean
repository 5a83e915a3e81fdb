import RalioFirmware.Mdns.Names

/-!
# Composing a message

`_prepareMDNSMessage` goes through everything that is to be sent twice: it counts first, then
writes the header with the counts and all the rest behind it.  Each record's length is written
before its data.

The responder is built for IP4 alone; with `MDNS_IP6_SUPPORT` its multicast sender declares one
address twice.
-/

namespace Mdns

/-! ## What is to be sent -/

/-- `stcMDNS_RRAttributes`. -/
structure RRAttributes where
  rrType : Nat
  rrClass : Nat

/-- `stcMDNS_RRQuestion`: the domain as it was read or built. -/
structure RRQuestion where
  domain : List UInt8
  attributes : RRAttributes

/-- `stcMDNSSendParameter` without what `Out` has of it. -/
structure SendParameter where
  id : Nat
  hostReplyMask : BitVec 8
  legacyQuery : Bool
  response : Bool
  authorative : Bool
  unannounce : Bool
  cacheFlush : Bool
  questions : List RRQuestion

abbrev IPAddress := Fin 4 → UInt8

def IPAddress.bytes (ip : IPAddress) : List UInt8 := [ip 0, ip 1, ip 2, ip 3]

def contentFlagA : BitVec 8 := 0x01
def contentFlagPTR_IP4 : BitVec 8 := 0x02
def contentFlagAAAA : BitVec 8 := 0x08
def contentFlagPTR_TYPE : BitVec 8 := 0x10
def contentFlagPTR_NAME : BitVec 8 := 0x20
def contentFlagTXT : BitVec 8 := 0x40
def contentFlagSRV : BitVec 8 := 0x80

def asked (mask flags : BitVec 8) : Bool := mask &&& flags ≠ 0

/-- `DNS_RRTYPE_…` and `DNS_RRCLASS_IN`. -/
def rrTypeA : Nat := 1
def rrTypePTR : Nat := 12
def rrTypeTXT : Nat := 16
def rrTypeSRV : Nat := 33
def rrClassIN : Nat := 1

/-- `MDNS_HOST_TTL` and `MDNS_SERVICE_TTL`. -/
def hostTTL : Nat := 120
def serviceTTL : Nat := 4500

/-- The attributes of an answer that may have old ones flushed. -/
def SendParameter.flushing (p : SendParameter) (rrType : Nat) : RRAttributes :=
  ⟨rrType, (if p.cacheFlush then 0x8000 else 0) ||| rrClassIN⟩

def SendParameter.ttl (p : SendParameter) (ttl : Nat) : Nat := if p.unannounce then 0 else ttl

/-! ## Names that are built each time -/

/-- `scpcServices`, `scpcDNSSD`, `scpcUDP`, `scpcReverseIP4Domain` and `scpcReverseTopDomain`. -/
def scpcServices : List UInt8 := [115, 101, 114, 118, 105, 99, 101, 115]
def scpcDNSSD : List UInt8 := [100, 110, 115, 45, 115, 100]
def scpcUDP : List UInt8 := [117, 100, 112]
def scpcReverseIP4Domain : List UInt8 := [105, 110, 45, 97, 100, 100, 114]
def scpcReverseTopDomain : List UInt8 := [97, 114, 112, 97]

def buildDomainForDNSSD : Option (List UInt8) :=
  (addLabel [] (some scpcServices) true).bind fun name =>
    (addLabel name (some scpcDNSSD) true).bind fun name =>
      (addLabel name (some scpcUDP) true).bind fun name =>
        (addLabel name (some scpcLocal) false).bind fun name => addLabel name none false

/-- `itoa` to the base ten. -/
def itoa (value : UInt8) : List UInt8 :=
  (Nat.toDigits 10 value.toNat).map fun c => UInt8.ofNat c.toNat

def buildDomainForReverseIP4 (ip : IPAddress) : Option (List UInt8) :=
  (addLabel [] (some (itoa (ip 3))) false).bind fun name =>
    (addLabel name (some (itoa (ip 2))) false).bind fun name =>
      (addLabel name (some (itoa (ip 1))) false).bind fun name =>
        (addLabel name (some (itoa (ip 0))) false).bind fun name =>
          (addLabel name (some scpcReverseIP4Domain) false).bind fun name =>
            (addLabel name (some scpcReverseTopDomain) false).bind fun name =>
              addLabel name none false

/-! ## The writers -/

def be16 (value : Nat) : List UInt8 := [UInt8.ofNat (value / 256), UInt8.ofNat value]

def be32 (value : Nat) : List UInt8 := be16 (value / 65536) ++ be16 value

def Out.write32 (out : Out) (value : Nat) : Out := out.append (be32 value)

/-- `_writeMDNSRRAttributes`. -/
def Out.writeRRAttributes (out : Out) (attributes : RRAttributes) : Out :=
  (out.write16 attributes.rrType).write16 attributes.rrClass

def writeMDNSQuestion (question : RRQuestion) (out : Out) : Option Out :=
  (out.writeRRDomain question.domain).map (·.writeRRAttributes question.attributes)

/-- What the writers of answers share: the name, the attributes, the time to live, and the data
with their length. -/
def writeAnswer (name : Out → Option Out) (attributes : RRAttributes) (ttl : Nat)
    (data : Out → Option Out) (out : Out) : Option Out :=
  (name out).bind fun out => data ((out.writeRRAttributes attributes).write32 ttl)

def writeMDNSAnswer_A (cfg : Names) (p : SendParameter) (ip : IPAddress) : Out → Option Out :=
  writeAnswer (writeMDNSHostDomain cfg false) (p.flushing rrTypeA) (p.ttl hostTTL)
    fun out => some ((out.write16 4).append ip.bytes)

def writeMDNSAnswer_PTR_IP4 (cfg : Names) (p : SendParameter) (ip : IPAddress) :
    Out → Option Out :=
  writeAnswer (fun out => (buildDomainForReverseIP4 ip).bind out.writeRRDomain)
    (p.flushing rrTypePTR) (p.ttl hostTTL) (writeMDNSHostDomain cfg true)

def writeMDNSAnswer_PTR_TYPE (cfg : Names) (p : SendParameter) (i : Nat) : Out → Option Out :=
  writeAnswer (fun out => buildDomainForDNSSD.bind out.writeRRDomain)
    ⟨rrTypePTR, rrClassIN⟩ (p.ttl serviceTTL) (writeMDNSServiceDomain cfg i false true)

def writeMDNSAnswer_PTR_NAME (cfg : Names) (p : SendParameter) (i : Nat) : Out → Option Out :=
  writeAnswer (writeMDNSServiceDomain cfg i false false) ⟨rrTypePTR, rrClassIN⟩
    (p.ttl serviceTTL) (writeMDNSServiceDomain cfg i true true)

/-- The items of a service after `_collectServiceTxts`. -/
def Service.collected (s : Service) : List ServiceTxt :=
  s.dynamic.foldl (fun txts call => addServiceTxt txts call.key call.value call.temp) s.txts

/-- `_writeMDNSAnswer_TXT`.  The parts of the items are appended one by one. -/
def writeMDNSAnswer_TXT (cfg : Names) (p : SendParameter) (i : Nat) (s : Service) :
    Out → Option Out :=
  writeAnswer (writeMDNSServiceDomain cfg i true false) (p.flushing rrTypeTXT)
    (p.ttl serviceTTL)
    fun out => some ((out.write16 (txtsLength s.collected)).append (writeTxts s.collected))

/-- `_writeMDNSAnswer_SRV`.  The place of the host domain is looked up before anything is
written, and not at all for a legacy query. -/
def writeMDNSAnswer_SRV (cfg : Names) (p : SendParameter) (i : Nat) (s : Service) (out : Out) :
    Option Out :=
  let cached := if p.legacyQuery then 0 else out.findCachedDomainOffset .host
  writeAnswer (writeMDNSServiceDomain cfg i true false) (p.flushing rrTypeSRV)
    (p.ttl serviceTTL)
    (fun out =>
      if cached = 0 then
        (buildDomain cfg .host).bind fun name =>
          let out := (((out.write16 (6 + name.length)).write16 0).write16 0).write16 s.port
          (out.addDomainCacheItem .host out.offset).bind fun out => out.writeRRDomain name
      else if 0xC0 > ((cached >>> 8) &&& 0x3F) then
        let out := (((out.write16 8).write16 0).write16 0).write16 s.port
        some ((out.write8 ((cached >>> 8) ||| 0xC0)).write8 (cached &&& 0xFF))
      else none)
    out

/-! ## The two passes -/

/-- `stcMDNS_MsgHeader`; the other codes are zero. -/
structure MsgHeader where
  id : Nat
  qr : Bool
  aa : Bool
  qdCount : Nat
  anCount : Nat
  nsCount : Nat
  arCount : Nat

/-- The bytes of `_writeMDNSMsgHeader`. -/
def MsgHeader.bytes (header : MsgHeader) : List UInt8 :=
  be16 header.id ++ [UInt8.ofNat (header.qr.toNat <<< 7 ||| header.aa.toNat <<< 2), 0] ++
    be16 header.qdCount ++ be16 header.anCount ++ be16 header.nsCount ++ be16 header.arCount

inductive Section where
  | qd
  | an
  | ns
  | ar

def MsgHeader.count (header : MsgHeader) : Section → MsgHeader
  | .qd => { header with qdCount := (header.qdCount + 1) % 65536 }
  | .an => { header with anCount := (header.anCount + 1) % 65536 }
  | .ns => { header with nsCount := (header.nsCount + 1) % 65536 }
  | .ar => { header with arCount := (header.arCount + 1) % 65536 }

/-- `enuSequence`. -/
inductive Sequence where
  | count
  | send

/-- What a pass changes; there is no `out` after a writer failed. -/
structure Pass where
  header : MsgHeader
  out : Option Out

def Pass.item (sequence : Sequence) (part : Section) (write : Out → Option Out) (s : Pass) :
    Pass :=
  match s.out, sequence with
  | none, _ => s
  | some _, .count => { s with header := s.header.count part }
  | some out, .send => { s with out := write out }

def Pass.itemIf (cond : Bool) (sequence : Sequence) (part : Section)
    (write : Out → Option Out) (s : Pass) : Pass :=
  if cond then s.item sequence part write else s

/-- `ru16Answers`. -/
def SendParameter.answers (p : SendParameter) : Section := if p.response then .an else .ns

def Pass.serviceAnswers (cfg : Names) (p : SendParameter) (sequence : Sequence) (st : Pass)
    (e : Service × Nat) : Pass :=
  let mask := e.1.replyMask
  let st := st.itemIf (asked mask contentFlagPTR_TYPE) sequence p.answers
    (writeMDNSAnswer_PTR_TYPE cfg p e.2)
  let st := st.itemIf (asked mask contentFlagPTR_NAME) sequence p.answers
    (writeMDNSAnswer_PTR_NAME cfg p e.2)
  let st := st.itemIf (asked mask contentFlagSRV) sequence p.answers
    (writeMDNSAnswer_SRV cfg p e.2 e.1)
  st.itemIf (asked mask contentFlagTXT) sequence p.answers (writeMDNSAnswer_TXT cfg p e.2 e.1)

def Pass.serviceAdditional (cfg : Names) (p : SendParameter) (sequence : Sequence) (st : Pass)
    (e : Service × Nat) : Pass :=
  let mask := e.1.replyMask
  let st := st.itemIf (asked mask contentFlagPTR_NAME && !asked mask contentFlagSRV) sequence
    .ar (writeMDNSAnswer_SRV cfg p e.2 e.1)
  st.itemIf (asked mask contentFlagPTR_NAME && !asked mask contentFlagTXT) sequence .ar
    (writeMDNSAnswer_TXT cfg p e.2 e.1)

/-- `bNeedsAdditionalAnswerA`. -/
def needsAdditionalAnswerA (cfg : Names) (p : SendParameter) : Bool :=
  cfg.services.any fun s =>
    (asked s.replyMask (contentFlagPTR_NAME ||| contentFlagSRV) ||
      asked p.hostReplyMask (contentFlagA ||| contentFlagAAAA)) &&
    !asked p.hostReplyMask contentFlagA

/-- `_writeMDNSMsgHeader`, in the second pass. -/
def Pass.writeMDNSMsgHeader (st : Pass) : Sequence → Pass
  | .count => st
  | .send => ⟨st.header, st.out.map fun out => out.append st.header.bytes⟩

/-- The body of the loop of `_prepareMDNSMessage`. -/
def Pass.body (cfg : Names) (p : SendParameter) (ip : IPAddress) (sequence : Sequence)
    (st : Pass) : Pass :=
  let st := st.writeMDNSMsgHeader sequence
  let st := p.questions.foldl
    (fun st question => st.item sequence .qd (writeMDNSQuestion question)) st
  let st := st.itemIf (asked p.hostReplyMask contentFlagA) sequence p.answers
    (writeMDNSAnswer_A cfg p ip)
  let st := st.itemIf (asked p.hostReplyMask contentFlagPTR_IP4) sequence p.answers
    (writeMDNSAnswer_PTR_IP4 cfg p ip)
  let st := cfg.services.zipIdx.foldl (Pass.serviceAnswers cfg p sequence) st
  let st := cfg.services.zipIdx.foldl (Pass.serviceAdditional cfg p sequence) st
  st.itemIf (needsAdditionalAnswerA cfg p) sequence .ar (writeMDNSAnswer_A cfg p ip)

/-- `_prepareMDNSMessage`: the message, as long as nothing fails. -/
def prepareMDNSMessage (cfg : Names) (p : SendParameter) (ip : IPAddress) : Option Out :=
  let header : MsgHeader := ⟨p.id, p.response, p.authorative, 0, 0, 0, 0⟩
  let counted := Pass.body cfg p ip .count ⟨header, some Out.init⟩
  (Pass.body cfg p ip .send counted).out

end Mdns
