import RalioFirmware.Mdns.Compose

/-!
# What a composed message says

A message is its header, the questions, the answers and the additional answers, each record
with the length of its data in front of them.  A name is written out, or it is a pointer to an
earlier place where it stands.

`composed_iff` says that this is what `prepareMDNSMessage` writes, as long as the message is a
datagram and no pointer has to go further than its 14 bits reach; the check for that lets
everything through.
-/

namespace Mdns

open Runs List
open Option (bind_eq_some_iff bind_some getD_some map_eq_some_iff map_some some.inj)

/-! ## What is to be written -/

/-- A name in a record: one that the cache may hold, or one that is written out each time. -/
inductive Named where
  | domain (key : DomainKey) (compress : Bool)
  | exact (name : Option (List UInt8))

/-- The data of a record: bytes, and maybe a name behind them. -/
structure Data where
  lead : List UInt8
  target : Option Named

structure Record where
  name : Named
  attributes : RRAttributes
  ttl : Nat
  data : Data

inductive Item where
  | question (q : RRQuestion)
  | record (r : Record)

/-- The bytes between the name and the length of the data. -/
def Record.fixed (r : Record) : List UInt8 :=
  be16 r.attributes.rrType ++ be16 r.attributes.rrClass ++ be32 r.ttl

def pointer (pos : Nat) : List UInt8 :=
  [UInt8.ofNat ((pos >>> 8) ||| 0xC0), UInt8.ofNat (pos &&& 0xFF)]

/-- The bytes spell the name, behind `front`: they are it, or they point to it. -/
def Spelled (cfg : Names) (front : List UInt8) : Named → List UInt8 → Prop
  | .exact name, bytes => name = some bytes
  | .domain key _, bytes => ∃ name, buildDomain cfg key = some name ∧
      (bytes = name ∨ ∃ pos < 16384, bytes = pointer pos ∧ name <+: front.drop pos)

def DataWritten (cfg : Names) (front : List UInt8) (d : Data) (bytes : List UInt8) : Prop :=
  ∃ target, bytes = d.lead ++ target ∧
    (d.target = none → target = []) ∧
    ∀ n, d.target = some n → Spelled cfg (front ++ d.lead) n target

/-- The bytes are the record: the length that they give is the length of the data. -/
def RecordWritten (cfg : Names) (front : List UInt8) (r : Record) (bytes : List UInt8) : Prop :=
  ∃ name data, Spelled cfg front r.name name ∧ data.length < 65536 ∧
    DataWritten cfg (front ++ name ++ r.fixed ++ be16 data.length) r.data data ∧
    bytes = name ++ (r.fixed ++ (be16 data.length ++ data))

def ItemWritten (cfg : Names) (front : List UInt8) : Item → List UInt8 → Prop
  | .question q, bytes =>
    bytes = q.domain ++ (be16 q.attributes.rrType ++ be16 q.attributes.rrClass)
  | .record r, bytes => RecordWritten cfg front r bytes

/-- Behind `front` come the items, one after the other, and nothing else. -/
def Laid (cfg : Names) : List UInt8 → List Item → List UInt8 → Prop
  | front, [], message => message = front
  | front, it :: rest, message =>
    ∃ bytes, ItemWritten cfg front it bytes ∧ Laid cfg (front ++ bytes) rest message

theorem Laid.start {cfg : Names} {front : List UInt8} {l : List Item} {message : List UInt8}
    (h : Laid cfg front l message) : front <+: message := by
  induction l generalizing front with
  | nil => exact (show message = front from h) ▸ prefix_refl _
  | cons it rest ih =>
    obtain ⟨bytes, -, hrest⟩ := h
    exact (prefix_append _ _).trans (ih hrest)

/-! ## What is asked for -/

def recordA (p : SendParameter) (ip : IPAddress) : Record :=
  ⟨.domain .host true, p.flushing rrTypeA, p.ttl hostTTL, ip.bytes, none⟩

def recordPTR_IP4 (p : SendParameter) (ip : IPAddress) : Record :=
  ⟨.exact (buildDomainForReverseIP4 ip), p.flushing rrTypePTR, p.ttl hostTTL, [],
    some (.domain .host true)⟩

def recordPTR_TYPE (p : SendParameter) (i : Nat) : Record :=
  ⟨.exact buildDomainForDNSSD, ⟨rrTypePTR, rrClassIN⟩, p.ttl serviceTTL, [],
    some (.domain (.service i false) true)⟩

def recordPTR_NAME (p : SendParameter) (i : Nat) : Record :=
  ⟨.domain (.service i false) true, ⟨rrTypePTR, rrClassIN⟩, p.ttl serviceTTL, [],
    some (.domain (.service i true) true)⟩

def recordTXT (p : SendParameter) (i : Nat) (s : Service) : Record :=
  ⟨.domain (.service i true) true, p.flushing rrTypeTXT, p.ttl serviceTTL,
    writeTxts s.collected, none⟩

def recordSRV (p : SendParameter) (i : Nat) (s : Service) : Record :=
  ⟨.domain (.service i true) true, p.flushing rrTypeSRV, p.ttl serviceTTL,
    be16 0 ++ be16 0 ++ be16 s.port, some (.domain .host (!p.legacyQuery))⟩

def recordIf (cond : Bool) (r : Record) : List Item := if cond then [.record r] else []

def questionItems (p : SendParameter) : List Item := p.questions.map .question

def serviceItems (p : SendParameter) (e : Service × Nat) : List Item :=
  recordIf (asked e.1.replyMask contentFlagPTR_TYPE) (recordPTR_TYPE p e.2) ++
  recordIf (asked e.1.replyMask contentFlagPTR_NAME) (recordPTR_NAME p e.2) ++
  recordIf (asked e.1.replyMask contentFlagSRV) (recordSRV p e.2 e.1) ++
  recordIf (asked e.1.replyMask contentFlagTXT) (recordTXT p e.2 e.1)

/-- The answers, or the records that are to be authoritative in a query. -/
def answerItems (cfg : Names) (p : SendParameter) (ip : IPAddress) : List Item :=
  recordIf (asked p.hostReplyMask contentFlagA) (recordA p ip) ++
  recordIf (asked p.hostReplyMask contentFlagPTR_IP4) (recordPTR_IP4 p ip) ++
  cfg.services.zipIdx.flatMap (serviceItems p)

def serviceMore (p : SendParameter) (e : Service × Nat) : List Item :=
  recordIf (asked e.1.replyMask contentFlagPTR_NAME && !asked e.1.replyMask contentFlagSRV)
    (recordSRV p e.2 e.1) ++
  recordIf (asked e.1.replyMask contentFlagPTR_NAME && !asked e.1.replyMask contentFlagTXT)
    (recordTXT p e.2 e.1)

def additionalItems (cfg : Names) (p : SendParameter) (ip : IPAddress) : List Item :=
  cfg.services.zipIdx.flatMap (serviceMore p) ++
  recordIf (needsAdditionalAnswerA cfg p) (recordA p ip)

/-- The header over so many questions, answers and additional answers. -/
def headerOver (p : SendParameter) (questions answers additional : Nat) : MsgHeader :=
  ⟨p.id, p.response, p.authorative, questions, if p.response then answers else 0,
    if p.response then 0 else answers, additional⟩

/-- **What composing is for.**  The counts of the header are those of the questions and records
behind it, each of which is written with the right length and right pointers, and the offset is
the number of bytes. -/
structure Composed (cfg : Names) (p : SendParameter) (ip : IPAddress) (out : Out) : Prop where
  laid : Laid cfg (headerOver p (questionItems p).length (answerItems cfg p ip).length
      (additionalItems cfg p ip).length).bytes
    (questionItems p ++ answerItems cfg p ip ++ additionalItems cfg p ip) out.bytes
  counts : (questionItems p).length < 65536 ∧ (answerItems cfg p ip).length < 65536 ∧
    (additionalItems cfg p ip).length < 65536
  offset : out.offset = out.bytes.length

/-! ## Writing an item -/

def Named.cached : Named → Out → Nat
  | .domain key true, out => out.findCachedDomainOffset key
  | .domain _ false, _ => 0
  | .exact _, _ => 0

def Named.full (cfg : Names) : Named → Option (List UInt8)
  | .domain key _ => buildDomain cfg key
  | .exact name => name

def Named.size (cfg : Names) (n : Named) (out : Out) : Nat :=
  if n.cached out ≠ 0 then 2 else ((n.full cfg).getD []).length

def Named.write (cfg : Names) : Named → Out → Option Out
  | .domain key compress, out => out.writeDomain cfg key false compress
  | .exact name, out => name.bind out.writeRRDomain

def Data.head (cfg : Names) (d : Data) (out : Out) : Out :=
  (out.write16 (d.lead.length + (d.target.map (Named.size cfg · out)).getD 0)).append d.lead

def Data.write (cfg : Names) (d : Data) (out : Out) : Option Out :=
  match d.target with
  | none => some (d.head cfg out)
  | some n => n.write cfg (d.head cfg out)

def Record.attributed (r : Record) (out : Out) : Out :=
  (out.writeRRAttributes r.attributes).write32 r.ttl

def Record.write (cfg : Names) (r : Record) (out : Out) : Option Out :=
  (r.name.write cfg out).bind fun mid => r.data.write cfg (r.attributed mid)

def Item.write (cfg : Names) : Item → Out → Option Out
  | .question q, out => writeMDNSQuestion q out
  | .record r, out => r.write cfg out

def Item.step (cfg : Names) (it : Item) (out : Option Out) : Option Out := out.bind (it.write cfg)

theorem Out.append_nil {out : Out} (h : out.offset < 65536) : out.append [] = out := by
  obtain ⟨bytes, offset, cache⟩ := out
  simp [append, Nat.mod_eq_of_lt h]

theorem Out.append_offset_lt (out : Out) (bytes : List UInt8) :
    (out.append bytes).offset < 65536 := Nat.mod_lt _ (by decide)

theorem be16_mod (n : Nat) : be16 (n % 65536) = be16 n := by
  have hhigh : UInt8.ofNat (n % 65536 / 256) = UInt8.ofNat (n / 256) :=
    UInt8.toNat_inj.mp (by simp only [UInt8.toNat_ofNat']; omega)
  have hlow : UInt8.ofNat (n % 65536) = UInt8.ofNat n :=
    UInt8.toNat_inj.mp (by simp only [UInt8.toNat_ofNat']; omega)
  rw [be16, be16, hhigh, hlow]

theorem Out.writeDomain_prepend (cfg : Names) (key : DomainKey) (out : Out) :
    out.writeDomain cfg key true true =
      Data.write cfg ⟨[], some (.domain key true)⟩ out := by
  have hhead : (Data.mk [] (some (.domain key true))).head cfg out =
      out.write16 ((Named.domain key true).size cfg out) := by
    rw [Data.head]
    simp only [length_nil, Nat.zero_add, map_some, getD_some]
    exact Out.append_nil (Out.append_offset_lt _ _)
  have hcache : ∀ n, (out.write16 n).findCachedDomainOffset key =
      out.findCachedDomainOffset key := fun _ => rfl
  rw [Data.write]
  show _ = (Named.domain key true).write cfg _
  rw [hhead, Named.write]
  unfold writeDomain Named.size Named.cached
  simp only [if_true, hcache]
  by_cases h : out.findCachedDomainOffset key ≠ 0
  · simp only [if_pos h]
    rfl
  · simp only [if_neg h, Bool.false_eq_true, if_false, Named.full]
    cases hname : buildDomain cfg key with
    | none => rfl
    | some name => rfl

variable {out' : Out}

section

variable (cfg : Names) (p : SendParameter) (ip : IPAddress)

theorem writeAnswer_eq {name data : Out → Option Out} {r : Record}
    (hname : ∀ out, name out = r.name.write cfg out)
    (hdata : ∀ out, data out = r.data.write cfg out) (out : Out) :
    writeAnswer name r.attributes r.ttl data out = r.write cfg out := by
  rw [writeAnswer, Record.write, hname]
  exact congrArg _ (funext fun mid => hdata _)

theorem writeMDNSAnswer_A_eq (out : Out) :
    writeMDNSAnswer_A cfg p ip out = (recordA p ip).write cfg out :=
  @writeAnswer_eq cfg _ _ (recordA p ip) (fun _ => rfl) (fun _ => rfl) out

theorem writeMDNSAnswer_PTR_IP4_eq (out : Out) :
    writeMDNSAnswer_PTR_IP4 cfg p ip out = (recordPTR_IP4 p ip).write cfg out :=
  @writeAnswer_eq cfg _ _ (recordPTR_IP4 p ip) (fun _ => rfl)
    (Out.writeDomain_prepend cfg .host) out

theorem writeMDNSAnswer_PTR_TYPE_eq (i : Nat) (out : Out) :
    writeMDNSAnswer_PTR_TYPE cfg p i out = (recordPTR_TYPE p i).write cfg out :=
  @writeAnswer_eq cfg _ _ (recordPTR_TYPE p i) (fun _ => rfl)
    (Out.writeDomain_prepend cfg (.service i false)) out

theorem writeMDNSAnswer_PTR_NAME_eq (i : Nat) (out : Out) :
    writeMDNSAnswer_PTR_NAME cfg p i out = (recordPTR_NAME p i).write cfg out :=
  @writeAnswer_eq cfg _ _ (recordPTR_NAME p i) (fun _ => rfl)
    (Out.writeDomain_prepend cfg (.service i true)) out

theorem txtsLength_eq_mod (txts : List ServiceTxt) :
    txtsLength txts = (writeTxts txts).length % 65536 := by
  have hfold : ∀ n, txts.foldl (fun n txt => (n + 1 + txt.length) % 65536) n % 65536 =
      (n + (writeTxts txts).length) % 65536 := by
    induction txts with
    | nil => intro n; simp [writeTxts]
    | cons txt rest ih =>
      intro n
      rw [foldl_cons, ih]
      have hlen : txt.length = txt.bytes.length := by
        simp only [ServiceTxt.length, ServiceTxt.bytes, CString.strlen, length_append,
          length_cons]
        omega
      simp only [writeTxts, length_cons, length_append, hlen]
      omega
  have hlt : txtsLength txts < 65536 := by
    unfold txtsLength
    cases hrev : txts.reverse with
    | nil => simp [reverse_eq_nil_iff.mp hrev]
    | cons txt rest =>
      rw [reverse_eq_cons_iff.mp hrev, foldl_append]
      exact Nat.mod_lt _ (by decide)
  have hzero := hfold 0
  rw [Nat.zero_add] at hzero
  exact (Nat.mod_eq_of_lt hlt).symm.trans hzero

theorem writeMDNSAnswer_TXT_eq (i : Nat) (s : Service) (out : Out) :
    writeMDNSAnswer_TXT cfg p i s out = (recordTXT p i s).write cfg out := by
  refine @writeAnswer_eq cfg _ _ (recordTXT p i s) (fun _ => rfl) (fun mid => ?_) out
  show some ((mid.append (be16 (txtsLength s.collected))).append _) =
    some ((mid.append (be16 (writeTxts s.collected).length)).append _)
  rw [txtsLength_eq_mod, be16_mod]
  rfl

theorem Out.append_append (out : Out) (a b : List UInt8) :
    (out.append a).append b = out.append (a ++ b) := by
  simp only [append, append_assoc, length_append, Nat.mod_add_mod, Nat.add_assoc]

theorem Out.writePointer_eq (out : Out) (cached : Nat) :
    out.writePointer cached = some (out.append (pointer cached)) := by
  have hle : (cached >>> 8) &&& 0x3F ≤ 0x3F := Nat.and_le_right
  rw [writePointer, if_pos (by omega)]
  exact congrArg some (Out.append_append out _ _)

def Out.addDomain (out : Out) (key : DomainKey) (name : List UInt8) : Out :=
  Out.append { out with cache := (key, out.offset) :: out.cache } name

theorem Out.addCached_eq (out : Out) (key : DomainKey) (name : List UInt8) :
    ((out.addDomainCacheItem key out.offset).bind fun out => out.writeRRDomain name) =
      if out.offset = 0 ∨ name.length = 0 then none else some (out.addDomain key name) := by
  unfold addDomainCacheItem
  by_cases h : out.offset = 0
  · simp [h]
  · rw [if_neg h, bind_some, writeRRDomain]
    simp only [h, false_or]
    rfl

theorem Out.writeDomain_eq (cfg : Names) (key : DomainKey) (compress : Bool) (out : Out) :
    out.writeDomain cfg key false compress =
      if (Named.domain key compress).cached out ≠ 0 then
        some (out.append (pointer ((Named.domain key compress).cached out)))
      else (buildDomain cfg key).bind fun name =>
        if out.offset = 0 ∨ name.length = 0 then none else some (out.addDomain key name) := by
  have hcached : (Named.domain key compress).cached out =
      if compress then out.findCachedDomainOffset key else 0 := by
    cases compress <;> rfl
  rw [hcached]
  unfold writeDomain
  simp only [Bool.false_eq_true, if_false, writePointer_eq, addCached_eq]

theorem Out.writeDomain_other {cfg : Names} {key other : DomainKey} {compress : Bool}
    {out : Out} (hne : key ≠ other)
    (h : out.writeDomain cfg key false compress = some out') :
    out'.findCachedDomainOffset other = out.findCachedDomainOffset other := by
  rw [writeDomain_eq] at h
  split at h
  · obtain rfl := some.inj h
    rfl
  · obtain ⟨name, -, h⟩ := bind_eq_some_iff.mp h
    split at h
    · cases h
    · obtain rfl := some.inj h
      simp [findCachedDomainOffset, addDomain, append, hne]

theorem srvData_eq (compress : Bool) (port : Nat) (out : Out) :
    (if (Named.domain .host compress).cached out = 0 then
        (buildDomain cfg .host).bind fun name =>
          let out := (((out.write16 (6 + name.length)).write16 0).write16 0).write16 port
          (out.addDomainCacheItem .host out.offset).bind fun out => out.writeRRDomain name
      else if 0xC0 > (((Named.domain .host compress).cached out >>> 8) &&& 0x3F) then
        let out' := (((out.write16 8).write16 0).write16 0).write16 port
        some ((out'.write8 (((Named.domain .host compress).cached out >>> 8) ||| 0xC0)).write8
          ((Named.domain .host compress).cached out &&& 0xFF))
      else none) =
    Data.write cfg ⟨be16 0 ++ be16 0 ++ be16 port, some (.domain .host compress)⟩ out := by
  have hlead : ∀ n, (((out.write16 n).write16 0).write16 0).write16 port =
      (out.write16 n).append (be16 0 ++ be16 0 ++ be16 port) := by
    intro n
    show (((out.write16 n).append (be16 0)).append (be16 0)).append (be16 port) = _
    rw [Out.append_append, Out.append_append]
    rfl
  have hcached : ∀ n lead, (Named.domain .host compress).cached ((out.write16 n).append lead) =
      (Named.domain .host compress).cached out := fun _ _ => by cases compress <;> rfl
  show _ = Out.writeDomain cfg .host false compress (Data.head cfg _ out)
  rw [Out.writeDomain_eq, Data.head, hcached]
  simp only [map_some, getD_some, Named.size, hlead, Named.full]
  by_cases h : (Named.domain .host compress).cached out = 0
  · simp only [h, if_true, ne_eq, not_true_eq_false, if_false]
    cases buildDomain cfg .host with
    | none => rfl
    | some name =>
      rw [bind_some, bind_some]
      exact Out.addCached_eq _ _ _
  · simp only [h, if_false, ne_eq, not_false_eq_true, if_true]
    exact Out.writePointer_eq _ _

theorem writeMDNSAnswer_SRV_eq (i : Nat) (s : Service) (out : Out) :
    writeMDNSAnswer_SRV cfg p i s out = (recordSRV p i s).write cfg out := by
  unfold writeMDNSAnswer_SRV
  dsimp only
  rw [writeAnswer, Record.write]
  show (out.writeDomain cfg (.service i true) false true).bind _ =
    (out.writeDomain cfg (.service i true) false true).bind _
  cases hname : out.writeDomain cfg (.service i true) false true with
  | none => rfl
  | some mid =>
    rw [bind_some, bind_some]
    have hother : mid.findCachedDomainOffset .host = out.findCachedDomainOffset .host :=
      Out.writeDomain_other (fun h => by cases h) hname
    have hsame : (if p.legacyQuery then 0 else out.findCachedDomainOffset .host) =
        (Named.domain .host (!p.legacyQuery)).cached ((recordSRV p i s).attributed mid) := by
      cases p.legacyQuery with
      | true => rfl
      | false => exact hother.symm
    rw [hsame]
    exact srvData_eq cfg _ s.port _

/-! ## The passes as runs -/

def Pass.items (sequence : Sequence) (part : Section) (l : List Item) (st : Pass) : Pass :=
  l.foldl (fun st it => st.item sequence part (it.write cfg)) st

variable {cfg p ip} {sequence : Sequence} {part : Section}

theorem Pass.itemIf_eq {cond : Bool} {write : Out → Option Out} {r : Record}
    (h : ∀ out, write out = r.write cfg out) (st : Pass) :
    st.itemIf cond sequence part write = Pass.items cfg sequence part (recordIf cond r) st := by
  rw [funext h]
  cases cond <;> rfl

theorem Pass.items_append (l m : List Item) (st : Pass) :
    Pass.items cfg sequence part (l ++ m) st =
      Pass.items cfg sequence part m (Pass.items cfg sequence part l st) := foldl_append

theorem Pass.items_flatMap {α : Type} (l : List α) (f : α → List Item) (st : Pass) :
    Pass.items cfg sequence part (l.flatMap f) st =
      l.foldl (fun st e => Pass.items cfg sequence part (f e) st) st := by
  induction l generalizing st with
  | nil => rfl
  | cons e rest ih => rw [flatMap_cons, Pass.items_append, ih, foldl_cons]

theorem Pass.serviceAnswers_eq (st : Pass) (e : Service × Nat) :
    Pass.serviceAnswers cfg p sequence st e =
      Pass.items cfg sequence p.answers (serviceItems p e) st := by
  unfold serviceAnswers serviceItems
  simp only [Pass.items_append]
  rw [Pass.itemIf_eq (writeMDNSAnswer_PTR_TYPE_eq cfg p e.2),
    Pass.itemIf_eq (writeMDNSAnswer_PTR_NAME_eq cfg p e.2),
    Pass.itemIf_eq (writeMDNSAnswer_SRV_eq cfg p e.2 e.1),
    Pass.itemIf_eq (writeMDNSAnswer_TXT_eq cfg p e.2 e.1)]

theorem Pass.serviceAdditional_eq (st : Pass) (e : Service × Nat) :
    Pass.serviceAdditional cfg p sequence st e =
      Pass.items cfg sequence .ar (serviceMore p e) st := by
  unfold serviceAdditional serviceMore
  dsimp only
  rw [Pass.items_append, Pass.itemIf_eq (writeMDNSAnswer_SRV_eq cfg p e.2 e.1),
    Pass.itemIf_eq (writeMDNSAnswer_TXT_eq cfg p e.2 e.1)]

theorem Pass.body_eq (st : Pass) :
    Pass.body cfg p ip sequence st =
      Pass.items cfg sequence .ar (additionalItems cfg p ip)
        (Pass.items cfg sequence p.answers (answerItems cfg p ip)
          (Pass.items cfg sequence .qd (questionItems p)
            (st.writeMDNSMsgHeader sequence))) := by
  unfold body additionalItems answerItems
  simp only [Pass.items_append, Pass.items_flatMap]
  rw [Pass.itemIf_eq (writeMDNSAnswer_A_eq cfg p ip),
    Pass.itemIf_eq (writeMDNSAnswer_PTR_IP4_eq cfg p ip),
    Pass.itemIf_eq (writeMDNSAnswer_A_eq cfg p ip),
    funext fun st => funext fun e => @Pass.serviceAnswers_eq cfg p sequence st e,
    funext fun st => funext fun e => @Pass.serviceAdditional_eq cfg p sequence st e]
  have hquestions : Pass.items cfg sequence .qd (questionItems p)
      (st.writeMDNSMsgHeader sequence) =
        p.questions.foldl (fun st question => st.item sequence .qd (writeMDNSQuestion question))
        (st.writeMDNSMsgHeader sequence) := foldl_map
  rw [hquestions]

theorem Pass.items_send (l : List Item) (st : Pass) :
    Pass.items cfg .send part l st = ⟨st.header, after (Item.step cfg) l st.out⟩ := by
  induction l generalizing st with
  | nil => rfl
  | cons it rest ih =>
    have hitem : st.item .send part (it.write cfg) = ⟨st.header, it.step cfg st.out⟩ := by
      obtain ⟨header, out⟩ := st
      cases out <;> rfl
    rw [Pass.items, foldl_cons, hitem]
    exact ih _

def MsgHeader.plus (header : MsgHeader) (n : Nat) : Section → MsgHeader
  | .qd => { header with qdCount := (header.qdCount + n) % 65536 }
  | .an => { header with anCount := (header.anCount + n) % 65536 }
  | .ns => { header with nsCount := (header.nsCount + n) % 65536 }
  | .ar => { header with arCount := (header.arCount + n) % 65536 }

structure MsgHeader.Small (header : MsgHeader) : Prop where
  qd : header.qdCount < 65536
  an : header.anCount < 65536
  ns : header.nsCount < 65536
  ar : header.arCount < 65536

theorem MsgHeader.Small.plus {header : MsgHeader} (h : header.Small) (n : Nat) (part : Section) :
    (header.plus n part).Small := by
  have hmod : ∀ m, m % 65536 < 65536 := fun m => Nat.mod_lt m (by decide)
  cases part
  · exact ⟨hmod _, h.an, h.ns, h.ar⟩
  · exact ⟨h.qd, hmod _, h.ns, h.ar⟩
  · exact ⟨h.qd, h.an, hmod _, h.ar⟩
  · exact ⟨h.qd, h.an, h.ns, hmod _⟩

theorem MsgHeader.plus_zero {header : MsgHeader} (h : header.Small) (part : Section) :
    header.plus 0 part = header := by
  obtain ⟨hqd, han, hns, har⟩ := h
  cases part <;>
    simp [plus, Nat.mod_eq_of_lt hqd, Nat.mod_eq_of_lt han, Nat.mod_eq_of_lt hns,
      Nat.mod_eq_of_lt har]

theorem MsgHeader.count_plus (header : MsgHeader) (n : Nat) (part : Section) :
    (header.count part).plus n part = header.plus (n + 1) part := by
  cases part <;> simp [plus, count, Nat.add_assoc, Nat.add_comm 1]

theorem MsgHeader.count_small {header : MsgHeader} (h : header.Small) (part : Section) :
    (header.count part).Small := by
  have hplus := h.plus 1 part
  cases part <;> exact hplus

theorem Pass.items_count {header : MsgHeader} (h : header.Small) (l : List Item) (out : Out) :
    Pass.items cfg .count part l ⟨header, some out⟩ = ⟨header.plus l.length part, some out⟩ := by
  induction l generalizing header with
  | nil => rw [length_nil, MsgHeader.plus_zero h]; rfl
  | cons it rest ih =>
    show Pass.items cfg .count part rest ⟨header.count part, some out⟩ = _
    rw [ih (MsgHeader.count_small h part), MsgHeader.count_plus, length_cons]

/-- **A message is a run** over its items, behind the header with their counts. -/
theorem prepareMDNSMessage_eq :
    prepareMDNSMessage cfg p ip =
      after (Item.step cfg) (questionItems p ++ answerItems cfg p ip ++ additionalItems cfg p ip)
        (some (Out.init.append (headerOver p (questionItems p).length (answerItems cfg p ip).length
          (additionalItems cfg p ip).length).bytes)) := by
  have hzero : 0 < 65536 := by decide
  have hsmall : (MsgHeader.mk p.id p.response p.authorative 0 0 0 0).Small :=
    ⟨hzero, hzero, hzero, hzero⟩
  unfold prepareMDNSMessage
  dsimp only
  rw [Pass.body_eq, Pass.body_eq, Pass.items_send, Pass.items_send, Pass.items_send]
  simp only [Pass.writeMDNSMsgHeader]
  rw [Pass.items_count hsmall, Pass.items_count (hsmall.plus _ _),
    Pass.items_count ((hsmall.plus _ _).plus _ _), after_append, after_append]
  have hbytes : ∀ a b c, ((((MsgHeader.mk p.id p.response p.authorative 0 0 0 0).plus a .qd).plus b
      p.answers).plus c .ar).bytes = (headerOver p a b c).bytes := by
    intro a b c
    unfold SendParameter.answers headerOver
    cases p.response <;> simp [MsgHeader.plus, MsgHeader.bytes, be16_mod]
  rw [hbytes]
  rfl

end

/-! ## Pointers -/

theorem pointer_mod {pos : Nat} (h : pos < 65536) : pointer pos = pointer (pos % 16384) := by
  have hhigh : ∀ a < 256, UInt8.ofNat (a ||| 0xC0) = UInt8.ofNat (a % 64 ||| 0xC0) := by
    decide +kernel
  have hshift : pos >>> 8 = pos / 256 := Nat.shiftRight_eq_div_pow pos 8
  have hshift' : (pos % 16384) >>> 8 = pos / 256 % 64 := by
    rw [Nat.shiftRight_eq_div_pow]
    omega
  have hlow : pos &&& 0xFF = (pos % 16384) &&& 0xFF := by
    have hmask : ∀ n : Nat, n &&& 0xFF = n % 256 := fun n => Nat.and_two_pow_sub_one_eq_mod n 8
    rw [hmask, hmask]
    omega
  rw [pointer, pointer, hshift, hshift', hhigh (pos / 256) (by omega), hlow]

theorem pointer_head {pos : Nat} (h : pos < 65536) :
    ∃ a b, pointer pos = [a, b] ∧ isLabel a = false := by
  rw [pointer_mod h]
  exact ⟨_, _, rfl, (pointer_bytes (Nat.mod_lt pos (by decide))).1⟩

theorem pointer_inj {pos pos' : Nat} (h : pos < 16384) (h' : pos' < 16384)
    (heq : pointer pos = pointer pos') : pos = pos' := by
  obtain ⟨hfirst, hsecond⟩ := cons.inj heq
  obtain ⟨hsecond, -⟩ := cons.inj hsecond
  rw [← (pointer_bytes h).2, ← (pointer_bytes h').2, hfirst, hsecond]

theorem buildDomain_head {cfg : Names} {key : DomainKey} {name : List UInt8}
    (h : buildDomain cfg key = some name) : ∃ a rest, name = a :: rest ∧ isLabel a = true := by
  obtain ⟨heq, h63, -⟩ := buildDomain_some h
  cases hlabels : domainLabels cfg key with
  | nil => exact ⟨0, [], by rw [heq, hlabels]; rfl, by decide⟩
  | cons label rest =>
    have hle : label.length ≤ 63 := h63 label (by rw [hlabels]; exact mem_cons_self)
    refine ⟨UInt8.ofNat label.length, label ++ encodeLabels rest ++ [0], ?_, isLabel_ofNat hle⟩
    rw [heq, hlabels, encodeLabels_cons]
    simp

/-! ## What a name takes -/

/-- The offset counts the bytes, and each cached domain stands where its item says. -/
structure Out.Placed (cfg : Names) (out : Out) : Prop where
  offset : out.offset = out.bytes.length
  cached : ∀ item ∈ out.cache, ∃ name, buildDomain cfg item.1 = some name ∧
    name <+: out.bytes.drop item.2

namespace Out.Placed

variable {cfg : Names} {out : Out}

theorem append (h : out.Placed cfg) {bytes : List UInt8}
    (hshort : out.bytes.length + bytes.length < 65536) : (out.append bytes).Placed cfg where
  offset := by
    show (out.offset + bytes.length) % 65536 = (out.bytes ++ bytes).length
    rw [h.offset, length_append, Nat.mod_eq_of_lt hshort]
  cached item hitem := by
    obtain ⟨name, hname, hplace⟩ := h.cached item hitem
    refine ⟨name, hname, ?_⟩
    show name <+: (out.bytes ++ bytes).drop item.2
    rw [drop_append]
    exact hplace.trans (prefix_append _ _)

theorem addDomain (h : out.Placed cfg) {key : DomainKey} {name : List UInt8}
    (hname : buildDomain cfg key = some name)
    (hshort : out.bytes.length + name.length < 65536) : (out.addDomain key name).Placed cfg where
  offset := (h.append hshort).offset
  cached item hitem := by
    rcases mem_cons.mp hitem with rfl | hitem
    · refine ⟨name, hname, [], ?_⟩
      show name ++ [] = (out.bytes ++ name).drop out.offset
      rw [h.offset, List.drop_left, List.append_nil]
    · exact (h.append hshort).cached item hitem

theorem cached_lt (h : out.Placed cfg) {n : Named} (hne : n.cached out ≠ 0) :
    ∃ name, n.full cfg = some name ∧ name <+: out.bytes.drop (n.cached out) ∧
      n.cached out < out.bytes.length ∧ ∃ key compress, n = .domain key compress := by
  cases n with
  | exact name => exact absurd rfl hne
  | domain key compress =>
    cases compress with
    | false => exact absurd rfl hne
    | true =>
      obtain ⟨name, hname, hplace⟩ := h.cached _ (Out.find_cached hne)
      refine ⟨name, hname, hplace, ?_, key, true, rfl⟩
      obtain ⟨a, rest, rfl, -⟩ := buildDomain_head hname
      have hlen := hplace.length_le
      rw [length_cons, length_drop] at hlen
      show out.findCachedDomainOffset key < _
      dsimp only at hlen
      omega

end Out.Placed

def Named.text (cfg : Names) (n : Named) (out : Out) : List UInt8 :=
  if n.cached out ≠ 0 then pointer (n.cached out) else (n.full cfg).getD []

theorem Named.text_length (cfg : Names) (n : Named) (out : Out) :
    (n.text cfg out).length = n.size cfg out := by
  unfold text size
  split <;> rfl

/-- The pointer reaches, or the 14 bits that are left of it happen to lead to the name too. -/
def Named.Points (cfg : Names) (n : Named) (out : Out) : Prop :=
  n.cached out < 16384 ∨
    ∃ name, n.full cfg = some name ∧ name <+: out.bytes.drop (n.cached out % 16384)

instance (cfg : Names) (n : Named) (out : Out) : Decidable (n.Points cfg out) :=
  decidable_of_iff (n.cached out < 16384 ∨
      ((n.full cfg).any fun name => name.isPrefixOf (out.bytes.drop (n.cached out % 16384))) = true)
    (or_congr_right (by cases n.full cfg <;> simp))

theorem Named.write_some {cfg : Names} {n : Named} {out : Out}
    (h : n.write cfg out = some out') :
    out'.bytes = out.bytes ++ n.text cfg out ∧ (n.cached out = 0 → (n.full cfg).isSome) ∧
      (out.Placed cfg → out'.bytes.length < 65536 → out'.Placed cfg) := by
  cases n with
  | exact name =>
    obtain ⟨name, rfl, h⟩ := bind_eq_some_iff.mp h
    change out.writeRRDomain name = some out' at h
    unfold Out.writeRRDomain at h
    split at h
    · cases h
    · obtain rfl := some.inj h
      refine ⟨rfl, fun _ => rfl, fun hplaced hshort => hplaced.append ?_⟩
      rw [← length_append]
      exact hshort
  | domain key compress =>
    change out.writeDomain cfg key false compress = some out' at h
    rw [Out.writeDomain_eq] at h
    split at h
    · next hne =>
        obtain rfl := some.inj h
        refine ⟨by rw [text, if_pos hne]; rfl, fun hzero => absurd hzero hne,
          fun hplaced hshort => hplaced.append ?_⟩
        rw [← length_append]
        exact hshort
    · next hzero =>
        obtain ⟨name, hname, h⟩ := bind_eq_some_iff.mp h
        split at h
        · cases h
        · obtain rfl := some.inj h
          have hfull : (Named.domain key compress).full cfg = some name := hname
          refine ⟨by rw [text, if_neg hzero, hfull]; rfl, fun _ => by rw [hfull]; rfl,
            fun hplaced hshort => hplaced.addDomain hname ?_⟩
          rw [← length_append]
          exact hshort

/-- **The bytes of a name spell it** just if they point right, and no others do. -/
theorem Named.spelled_iff {cfg : Names} {n : Named} {out : Out} (hplaced : out.Placed cfg)
    (hshort : out.bytes.length < 65536) (hsome : n.cached out = 0 → (n.full cfg).isSome)
    {b t t' : List UInt8} (heq : b ++ t = n.text cfg out ++ t') :
    Spelled cfg out.bytes n b ↔ b = n.text cfg out ∧ n.Points cfg out := by
  by_cases hne : n.cached out ≠ 0
  · obtain ⟨name, hfull, hplace, hlt, key, compress, rfl⟩ := hplaced.cached_lt hne
    obtain ⟨x, y, hptr, hx⟩ := pointer_head (Nat.lt_trans hlt hshort)
    have htext : (Named.domain key compress).text cfg out = [x, y] := by
      rw [text, if_pos hne, hptr]
    have hmod := pointer_mod (Nat.lt_trans hlt hshort)
    have hbelow : (Named.domain key compress).cached out % 16384 < 16384 :=
      Nat.mod_lt _ (by decide)
    constructor
    · rintro ⟨name', hname', rfl | ⟨pos, hpos, rfl, hstands⟩⟩
      · obtain ⟨a, rest, rfl, ha⟩ := buildDomain_head hname'
        rw [htext] at heq
        obtain ⟨rfl, -⟩ := cons.inj heq
        rw [hx] at ha
        cases ha
      · obtain ⟨u, v, huv, -⟩ := pointer_head (Nat.lt_trans hpos (by decide))
        have hsame : pointer pos = (Named.domain key compress).text cfg out := by
          rw [htext, huv] at heq
          obtain ⟨hu, heq⟩ := cons.inj heq
          obtain ⟨hv, -⟩ := cons.inj heq
          rw [htext, huv, hu, hv]
        refine ⟨hsame, Or.inr ⟨name', hname', ?_⟩⟩
        rw [text, if_pos hne, hmod] at hsame
        rw [← pointer_inj hpos hbelow hsame]
        exact hstands
    · rintro ⟨rfl, hpoints⟩
      rw [text, if_pos hne]
      rcases hpoints with hreach | ⟨name', hname', hstands⟩
      · exact ⟨name, hfull, Or.inr ⟨_, hreach, rfl, hplace⟩⟩
      · exact ⟨name', hname', Or.inr ⟨_, hbelow, hmod, hstands⟩⟩
  · have hzero : n.cached out = 0 := not_not.mp hne
    obtain ⟨name, hfull⟩ := Option.isSome_iff_exists.mp (hsome hzero)
    have htext : n.text cfg out = name := by rw [text, if_neg hne, hfull]; rfl
    have hpoints : n.Points cfg out := Or.inl (by rw [hzero]; decide)
    rw [htext] at heq ⊢
    cases n with
    | exact name' =>
      obtain rfl : name' = some name := hfull
      show some name = some b ↔ _
      rw [Option.some.injEq]
      exact ⟨fun h => ⟨h.symm, hpoints⟩, fun h => h.1.symm⟩
    | domain key compress =>
      change buildDomain cfg key = some name at hfull
      constructor
      · rintro ⟨name', hname', rfl | ⟨pos, hpos, rfl, -⟩⟩
        · exact ⟨some.inj (hname'.symm.trans hfull), hpoints⟩
        · obtain ⟨x, y, hptr, hx⟩ := pointer_head (Nat.lt_trans hpos (by decide))
          obtain ⟨a, rest, rfl, ha⟩ := buildDomain_head hfull
          rw [hptr] at heq
          obtain ⟨rfl, -⟩ := cons.inj heq
          rw [hx] at ha
          cases ha
      · rintro ⟨rfl, -⟩
        exact ⟨b, hfull, Or.inl rfl⟩

/-! ## What the data take -/

def Data.size (cfg : Names) (d : Data) (out : Out) : Nat :=
  d.lead.length + (d.target.map (Named.size cfg · out)).getD 0

def Data.text (cfg : Names) (d : Data) (out : Out) : List UInt8 :=
  d.lead ++ (d.target.map (Named.text cfg · out)).getD []

def Data.Points (cfg : Names) (d : Data) (out : Out) : Prop :=
  ∀ n, d.target = some n → n.Points cfg (d.head cfg out)

instance (cfg : Names) : ∀ (d : Data) (out : Out), Decidable (d.Points cfg out)
  | ⟨_, none⟩, _ => isTrue fun _ h => by cases h
  | ⟨lead, some n⟩, out =>
    decidable_of_iff (n.Points cfg (Data.head cfg ⟨lead, some n⟩ out))
      ⟨fun h _ hm => Option.some.inj hm ▸ h, fun h => h n rfl⟩

/-- **The length of the data** is the number of their bytes. -/
theorem Data.text_length (cfg : Names) (d : Data) (out : Out) :
    (d.text cfg out).length = d.size cfg out := by
  unfold text size
  rw [length_append]
  cases d.target with
  | none => rfl
  | some n => exact congrArg _ (n.text_length cfg out)

theorem Data.head_bytes (cfg : Names) (d : Data) (out : Out) :
    (d.head cfg out).bytes = out.bytes ++ be16 (d.size cfg out) ++ d.lead := rfl

theorem Named.cached_head (cfg : Names) (n : Named) (d : Data) (out : Out) :
    n.cached (d.head cfg out) = n.cached out := by
  cases n with
  | exact name => rfl
  | domain key compress => cases compress <;> rfl

theorem Named.text_head (cfg : Names) (n : Named) (d : Data) (out : Out) :
    n.text cfg (d.head cfg out) = n.text cfg out := by
  rw [text, text, cached_head]

theorem Out.Placed.head {cfg : Names} {out : Out} (h : out.Placed cfg) (d : Data)
    (hshort : (d.head cfg out).bytes.length < 65536) : (d.head cfg out).Placed cfg := by
  rw [Data.head_bytes, length_append, length_append] at hshort
  refine (h.append ?_).append ?_
  · exact Nat.lt_of_le_of_lt (Nat.le_add_right _ _) hshort
  · show (out.bytes ++ _).length + _ < _
    rw [length_append]
    exact hshort

theorem Data.write_some {cfg : Names} {d : Data} {out : Out}
    (h : d.write cfg out = some out') :
    out'.bytes = out.bytes ++ (be16 (d.size cfg out) ++ d.text cfg out) ∧
      (d.head cfg out).bytes <+: out'.bytes ∧
      (out.Placed cfg → out'.bytes.length < 65536 → out'.Placed cfg) := by
  unfold write at h
  split at h
  · next hnone =>
      obtain rfl := some.inj h
      refine ⟨?_, prefix_refl _, fun hplaced => hplaced.head d⟩
      rw [head_bytes, text, hnone]
      simp
  · next n hn =>
      obtain ⟨hbytes, -, hplaced'⟩ := Named.write_some h
      have hpre : (d.head cfg out).bytes <+: out'.bytes := hbytes ▸ prefix_append _ _
      refine ⟨?_, hpre, fun hplaced hshort =>
        hplaced' (hplaced.head d (Nat.lt_of_le_of_lt hpre.length_le hshort)) hshort⟩
      rw [hbytes, head_bytes, Named.text_head, text, hn]
      simp

theorem Data.written_iff {cfg : Names} {d : Data} {out : Out} (hplaced : out.Placed cfg)
    (hwrite : d.write cfg out = some out') (hshort : out'.bytes.length < 65536)
    {b t t' : List UInt8} (heq : b ++ t = d.text cfg out ++ t') :
    DataWritten cfg (out.bytes ++ be16 (d.size cfg out)) d b ↔
      b = d.text cfg out ∧ d.Points cfg out := by
  unfold DataWritten
  rw [← head_bytes]
  obtain ⟨-, hpre, -⟩ := write_some hwrite
  have hshort' := Nat.lt_of_le_of_lt hpre.length_le hshort
  unfold write at hwrite
  cases hn : d.target with
  | none =>
    have htext : d.text cfg out = d.lead := by rw [text, hn]; exact append_nil _
    have hpoints : d.Points cfg out := fun n h => by rw [hn] at h; cases h
    rw [htext]
    constructor
    · grind
    · grind
  | some n =>
    rw [hn] at hwrite
    have htext : d.text cfg out = d.lead ++ n.text cfg (d.head cfg out) := by
      rw [text, hn, Named.text_head]
      rfl
    have hpoints : d.Points cfg out ↔ n.Points cfg (d.head cfg out) :=
      ⟨fun h => h n hn, fun h m hm => some.inj (hn.symm.trans hm) ▸ h⟩
    rw [htext] at heq ⊢
    rw [hpoints]
    have hspelled := @Named.spelled_iff cfg n (d.head cfg out) (hplaced.head d hshort') hshort'
      (Named.write_some hwrite).2.1
    constructor
    · rintro ⟨target, rfl, -, htarget⟩
      rw [append_assoc, append_assoc] at heq
      obtain ⟨rfl, hpt⟩ := (hspelled (append_cancel_left heq)).mp (htarget n rfl)
      exact ⟨rfl, hpt⟩
    · rintro ⟨rfl, hpt⟩
      refine ⟨_, rfl, fun h => (by cases h), fun m hm => ?_⟩
      obtain rfl := some.inj hm
      exact (@hspelled _ [] [] rfl).mpr ⟨rfl, hpt⟩

/-! ## What an item takes -/

def Record.size (cfg : Names) (r : Record) (out : Out) : Nat :=
  (r.name.write cfg out).elim 0 fun mid =>
    r.name.size cfg out + (8 + (2 + r.data.size cfg (r.attributed mid)))

def Record.Points (cfg : Names) (r : Record) (out : Out) : Prop :=
  r.name.Points cfg out ∧
    ∀ mid, r.name.write cfg out = some mid → r.data.Points cfg (r.attributed mid)

instance (cfg : Names) (r : Record) (out : Out) : Decidable (r.Points cfg out) :=
  match hmid : r.name.write cfg out with
  | none => decidable_of_iff (r.name.Points cfg out)
      (by simp [Record.Points, hmid])
  | some mid => decidable_of_iff
      (r.name.Points cfg out ∧ r.data.Points cfg (r.attributed mid))
      (by simp [Record.Points, hmid])

theorem Record.fixed_length (r : Record) : r.fixed.length = 8 := rfl

theorem Record.attributed_eq (r : Record) (out : Out) : r.attributed out = out.append r.fixed := by
  show ((out.append _).append _).append _ = _
  rw [Out.append_append, Out.append_append, fixed, append_assoc]
  rfl

theorem Record.written_iff {cfg : Names} {r : Record} {out : Out} (hplaced : out.Placed cfg)
    (hwrite : r.write cfg out = some out') (hshort : out'.bytes.length < 65536) :
    ∃ piece, out'.bytes = out.bytes ++ piece ∧ out'.Placed cfg ∧
      ∀ b t t', b ++ t = piece ++ t' →
        (RecordWritten cfg out.bytes r b ↔ b = piece ∧ r.Points cfg out) := by
  obtain ⟨mid, hmid, hdata⟩ := bind_eq_some_iff.mp hwrite
  obtain ⟨hmidbytes, hsome, hmidplaced⟩ := Named.write_some hmid
  obtain ⟨hbytes, -, hplaced'⟩ := Data.write_some hdata
  have hat : (r.attributed mid).bytes = out.bytes ++ r.name.text cfg out ++ r.fixed := by
    rw [attributed_eq]
    show mid.bytes ++ r.fixed = _
    rw [hmidbytes]
  have hatshort : (r.attributed mid).bytes.length < 65536 := by grind
  have hatplaced : (r.attributed mid).Placed cfg := by
    rw [hat, length_append, ← hmidbytes] at hatshort
    rw [attributed_eq]
    exact (hmidplaced hplaced (by omega)).append hatshort
  have hlength := Data.text_length cfg r.data (r.attributed mid)
  have hsmall : (r.data.text cfg (r.attributed mid)).length < 65536 := by grind
  have houtshort : out.bytes.length < 65536 := by grind
  have hpoints : r.Points cfg out ↔
      r.name.Points cfg out ∧ r.data.Points cfg (r.attributed mid) :=
    and_congr_right fun _ =>
      ⟨fun h => h mid hmid, fun h m hm => some.inj (hmid.symm.trans hm) ▸ h⟩
  refine ⟨r.name.text cfg out ++ (r.fixed ++ (be16 (r.data.size cfg (r.attributed mid)) ++
    r.data.text cfg (r.attributed mid))), ?_, hplaced' hatplaced hshort, ?_⟩
  · rw [hbytes, hat]
    simp
  · intro b t t' heq
    rw [hpoints]
    constructor
    · rintro ⟨name, data, hname, -, hwritten, rfl⟩
      simp only [append_assoc] at heq
      obtain ⟨rfl, hnamepoints⟩ := (Named.spelled_iff hplaced houtshort hsome heq).mp hname
      have hrest := append_cancel_left (append_cancel_left heq)
      obtain ⟨hlen, hrest⟩ := append_inj hrest rfl
      rw [hlen, ← hat] at hwritten
      obtain ⟨rfl, hdatapoints⟩ :=
        (Data.written_iff hatplaced hdata hshort hrest).mp hwritten
      exact ⟨by rw [hlen], hnamepoints, hdatapoints⟩
    · rintro ⟨rfl, hnamepoints, hdatapoints⟩
      refine ⟨_, _, (Named.spelled_iff hplaced houtshort hsome (@rfl _ (_ ++ []))).mpr
        ⟨rfl, hnamepoints⟩, hsmall, ?_, by rw [hlength]⟩
      rw [hlength, ← hat]
      exact (Data.written_iff hatplaced hdata hshort (@rfl _ (_ ++ []))).mpr ⟨rfl, hdatapoints⟩

def Item.size (cfg : Names) : Item → Out → Nat
  | .question q, _ => q.domain.length + 4
  | .record r, out => r.size cfg out

def Item.Points (cfg : Names) : Item → Out → Prop
  | .question _, _ => True
  | .record r, out => r.Points cfg out

instance (cfg : Names) : ∀ (it : Item) (out : Out), Decidable (it.Points cfg out)
  | .question _, _ => isTrue trivial
  | .record r, out => inferInstanceAs (Decidable (r.Points cfg out))

variable {it : Item}

theorem Item.write_length {cfg : Names} {out : Out}
    (h : it.write cfg out = some out') :
    out.bytes <+: out'.bytes ∧ out'.bytes.length = out.bytes.length + it.size cfg out := by
  cases it with
  | question q =>
    obtain ⟨mid, hmid, rfl⟩ := map_eq_some_iff.mp h
    unfold Out.writeRRDomain at hmid
    split at hmid
    · cases hmid
    · obtain rfl := some.inj hmid
      have hbytes : ((out.append q.domain).writeRRAttributes q.attributes).bytes =
          out.bytes ++ (q.domain ++ (be16 q.attributes.rrType ++ be16 q.attributes.rrClass)) := by
        simp [Out.writeRRAttributes, Out.write16, Out.append, be16]
      refine ⟨hbytes ▸ prefix_append _ _, ?_⟩
      rw [hbytes, length_append, length_append]
      rfl
  | record r =>
    obtain ⟨mid, hmid, hdata⟩ := bind_eq_some_iff.mp h
    obtain ⟨hmidbytes, -, -⟩ := Named.write_some hmid
    obtain ⟨hbytes, -, -⟩ := Data.write_some hdata
    rw [Record.attributed_eq] at hbytes
    change out'.bytes = mid.bytes ++ r.fixed ++ _ at hbytes
    rw [← Record.attributed_eq] at hbytes
    have hall : out'.bytes = out.bytes ++ (r.name.text cfg out ++ (r.fixed ++
        (be16 (r.data.size cfg (r.attributed mid)) ++ r.data.text cfg (r.attributed mid)))) := by
      rw [hbytes, hmidbytes]
      simp
    refine ⟨hall ▸ prefix_append _ _, ?_⟩
    have hsize : (Item.record r).size cfg out =
        r.name.size cfg out + (8 + (2 + r.data.size cfg (r.attributed mid))) := by
      show (r.name.write cfg out).elim 0 _ = _
      rw [hmid]
      rfl
    rw [hall, hsize]
    simp only [length_append, Named.text_length, Data.text_length, Record.fixed_length]
    rfl

theorem Item.size_pos {cfg : Names} {out : Out}
    (h : it.write cfg out = some out') : 0 < it.size cfg out := by
  cases it with
  | question q => exact Nat.succ_pos _
  | record r =>
    obtain ⟨mid, hmid, -⟩ := bind_eq_some_iff.mp h
    show 0 < (r.name.write cfg out).elim 0 _
    rw [hmid]
    show 0 < r.name.size cfg out + (8 + (2 + r.data.size cfg (r.attributed mid)))
    omega

theorem Item.written_iff {cfg : Names} {out : Out} (hplaced : out.Placed cfg)
    (hwrite : it.write cfg out = some out') (hshort : out'.bytes.length < 65536) :
    ∃ piece, out'.bytes = out.bytes ++ piece ∧ out'.Placed cfg ∧
      ∀ b t t', b ++ t = piece ++ t' →
        (ItemWritten cfg out.bytes it b ↔ b = piece ∧ it.Points cfg out) := by
  cases it with
  | record r => exact Record.written_iff hplaced hwrite hshort
  | question q =>
    obtain ⟨mid, hmid, rfl⟩ := map_eq_some_iff.mp hwrite
    unfold Out.writeRRDomain at hmid
    split at hmid
    · cases hmid
    · obtain rfl := some.inj hmid
      have heq : (out.append q.domain).writeRRAttributes q.attributes =
          out.append (q.domain ++ (be16 q.attributes.rrType ++ be16 q.attributes.rrClass)) := by
        show ((out.append q.domain).append _).append _ = _
        rw [Out.append_append, Out.append_append]
        rfl
      rw [heq] at hshort ⊢
      refine ⟨_, rfl, hplaced.append ?_, fun b t t' _ => ⟨fun h => ⟨h, trivial⟩, fun h => h.1⟩⟩
      rw [← length_append]
      exact hshort

/-! ## Messages -/

/-- The items that come out right.  The message stays a datagram, and no pointer has to go
further than it reaches, or else it leads to the same name by chance. -/
def ItemFits (cfg : Names) (it : Item) : Option Out → Prop
  | none => True
  | some out => out.bytes.length + it.size cfg out < 65536 ∧ it.Points cfg out

instance (cfg : Names) : ∀ (it : Item) (out : Option Out), Decidable (ItemFits cfg it out)
  | _, none => isTrue trivial
  | it, some out => inferInstanceAs
      (Decidable (out.bytes.length + it.size cfg out < 65536 ∧ it.Points cfg out))

def ItemPoints (cfg : Names) (it : Item) : Option Out → Prop
  | none => True
  | some out => it.Points cfg out

instance (cfg : Names) : ∀ (it : Item) (out : Option Out), Decidable (ItemPoints cfg it out)
  | _, none => isTrue trivial
  | it, some out => inferInstanceAs (Decidable (it.Points cfg out))

theorem Item.after_none {cfg : Names} (l : List Item) : after (Item.step cfg) l none = none :=
  after_of_fixed fun _ _ => rfl

variable {final : Out}

theorem Item.after_cons {cfg : Names} {rest : List Item} {out : Out}
    (h : after (Item.step cfg) (it :: rest) (some out) = some final) :
    ∃ out', it.write cfg out = some out' ∧
      after (Item.step cfg) rest (some out') = some final := by
  change after (Item.step cfg) rest (it.write cfg out) = some final at h
  cases hwrite : it.write cfg out with
  | none =>
    rw [hwrite, Item.after_none] at h
    cases h
  | some out' => exact ⟨out', rfl, hwrite ▸ h⟩

variable {l : List Item}

theorem Item.after_length {cfg : Names} {out : Out}
    (h : after (Item.step cfg) l (some out) = some final) :
    out.bytes <+: final.bytes ∧ out.bytes.length + l.length ≤ final.bytes.length := by
  induction l generalizing out with
  | nil =>
    obtain rfl := some.inj h
    exact ⟨prefix_refl _, Nat.le_refl _⟩
  | cons it rest ih =>
    obtain ⟨out', hwrite, hrest⟩ := Item.after_cons h
    obtain ⟨hpre, hlen⟩ := Item.write_length hwrite
    obtain ⟨hpre', hlen'⟩ := ih hrest
    have hpos := Item.size_pos hwrite
    rw [length_cons]
    exact ⟨hpre.trans hpre', by omega⟩

/-- **Behind what is written come the items**, just if all of them point right. -/
theorem laid_iff {cfg : Names} {out : Out} (hplaced : out.Placed cfg)
    (h : after (Item.step cfg) l (some out) = some final) (hshort : final.bytes.length < 65536) :
    final.Placed cfg ∧ (Laid cfg out.bytes l final.bytes ↔
      AllFit (Item.step cfg) (ItemPoints cfg) l (some out)) := by
  induction l generalizing out with
  | nil =>
    obtain rfl := some.inj h
    exact ⟨hplaced, iff_of_true rfl trivial⟩
  | cons it rest ih =>
    obtain ⟨out', hwrite, hrest⟩ := Item.after_cons h
    have hshort' := Nat.lt_of_le_of_lt (Item.after_length hrest).1.length_le hshort
    obtain ⟨piece, hbytes, hplaced', hiff⟩ := Item.written_iff hplaced hwrite hshort'
    obtain ⟨hfinal, hlaid⟩ := ih hplaced' hrest
    refine ⟨hfinal, ?_⟩
    have hstep : AllFit (Item.step cfg) (ItemPoints cfg) (it :: rest) (some out) ↔
        it.Points cfg out ∧ AllFit (Item.step cfg) (ItemPoints cfg) rest (some out') := by
      rw [← hwrite]
      rfl
    rw [hstep, ← hlaid, hbytes]
    obtain ⟨tail, htail⟩ := (Item.after_length hrest).1
    constructor
    · rintro ⟨b, hwritten, hmore⟩
      obtain ⟨more, hmore'⟩ := hmore.start
      have heq : b ++ more = piece ++ tail := by
        refine @append_cancel_left _ out.bytes _ _ ?_
        rw [← append_assoc, ← append_assoc, hmore', ← hbytes, htail]
      obtain ⟨rfl, hpoints⟩ := (hiff b more tail heq).mp hwritten
      exact ⟨hpoints, hmore⟩
    · rintro ⟨hpoints, hmore⟩
      exact ⟨piece, (hiff piece [] [] rfl).mpr ⟨rfl, hpoints⟩, hmore⟩

theorem fits_iff {cfg : Names} {out : Out}
    (h : after (Item.step cfg) l (some out) = some final) (hout : out.bytes.length < 65536) :
    AllFit (Item.step cfg) (ItemFits cfg) l (some out) ↔
      final.bytes.length < 65536 ∧ AllFit (Item.step cfg) (ItemPoints cfg) l (some out) := by
  induction l generalizing out with
  | nil =>
    obtain rfl := some.inj h
    exact ⟨fun _ => ⟨hout, trivial⟩, fun _ => trivial⟩
  | cons it rest ih =>
    obtain ⟨out', hwrite, hrest⟩ := Item.after_cons h
    obtain ⟨-, hlen⟩ := Item.write_length hwrite
    have hle := (Item.after_length hrest).1.length_le
    have hstep : it.step cfg (some out) = some out' := hwrite
    simp only [AllFit, hstep, ItemFits, ItemPoints]
    rw [← hlen]
    constructor
    · rintro ⟨⟨hshort, hpoints⟩, hfits⟩
      obtain ⟨hfinal, hmore⟩ := (ih hrest hshort).mp hfits
      exact ⟨hfinal, hpoints, hmore⟩
    · rintro ⟨hfinal, hpoints, hmore⟩
      have hshort := Nat.lt_of_le_of_lt hle hfinal
      exact ⟨⟨hshort, hpoints⟩, (ih hrest hshort).mpr ⟨hfinal, hmore⟩⟩

def headed (cfg : Names) (p : SendParameter) (ip : IPAddress) : Out :=
  Out.init.append (headerOver p (questionItems p).length (answerItems cfg p ip).length
    (additionalItems cfg p ip).length).bytes

theorem headed_length (cfg : Names) (p : SendParameter) (ip : IPAddress) :
    (headed cfg p ip).bytes.length = 12 := rfl

theorem headed_placed (cfg : Names) (p : SendParameter) (ip : IPAddress) :
    (headed cfg p ip).Placed cfg where
  offset := rfl
  cached := by simp [headed, Out.append, Out.init]

theorem Item.offset_lt {cfg : Names} {out : Out}
    (h : it.write cfg out = some out') : out'.offset < 65536 := by
  have hname : ∀ {n : Named} {out out' : Out}, n.write cfg out = some out' →
      out'.offset < 65536 := by
    intro n out out' h
    cases n with
    | exact name =>
      obtain ⟨name, -, h⟩ := bind_eq_some_iff.mp h
      change out.writeRRDomain name = some out' at h
      unfold Out.writeRRDomain at h
      split at h
      · cases h
      · obtain rfl := some.inj h
        exact Out.append_offset_lt _ _
    | domain key compress =>
      change out.writeDomain cfg key false compress = some out' at h
      rw [Out.writeDomain_eq] at h
      split at h
      · obtain rfl := some.inj h
        exact Out.append_offset_lt _ _
      · obtain ⟨name, -, h⟩ := bind_eq_some_iff.mp h
        split at h
        · cases h
        · obtain rfl := some.inj h
          exact Out.append_offset_lt _ _
  cases it with
  | question q =>
    obtain ⟨mid, -, rfl⟩ := map_eq_some_iff.mp h
    exact Out.append_offset_lt _ _
  | record r =>
    obtain ⟨mid, -, hdata⟩ := bind_eq_some_iff.mp h
    unfold Data.write at hdata
    split at hdata
    · obtain rfl := some.inj hdata
      exact Out.append_offset_lt _ _
    · exact hname hdata

theorem Item.after_offset_lt {cfg : Names} {out : Out}
    (h : after (Item.step cfg) l (some out) = some final) (hout : out.offset < 65536) :
    final.offset < 65536 := by
  induction l generalizing out with
  | nil =>
    obtain rfl := some.inj h
    exact hout
  | cons it rest ih =>
    obtain ⟨out', hwrite, hrest⟩ := Item.after_cons h
    exact ih hrest (Item.offset_lt hwrite)

def allItems (cfg : Names) (p : SendParameter) (ip : IPAddress) : List Item :=
  questionItems p ++ answerItems cfg p ip ++ additionalItems cfg p ip

/-- **A message says what it should** just if each of its items fits. -/
theorem composed_iff {cfg : Names} {p : SendParameter} {ip : IPAddress} {out : Out}
    (h : prepareMDNSMessage cfg p ip = some out) :
    Composed cfg p ip out ↔
      AllFit (Item.step cfg) (ItemFits cfg) (allItems cfg p ip) (some (headed cfg p ip)) := by
  have hrun : after (Item.step cfg) (allItems cfg p ip) (some (headed cfg p ip)) = some out :=
    prepareMDNSMessage_eq.symm.trans h
  have hhead : (headed cfg p ip).bytes.length < 65536 := by
    rw [headed_length]
    decide
  rw [fits_iff hrun hhead]
  constructor
  · rintro ⟨hlaid, -, hoffset⟩
    have hshort : out.bytes.length < 65536 :=
      hoffset ▸ Item.after_offset_lt hrun (Out.append_offset_lt _ _)
    exact ⟨hshort, (laid_iff (headed_placed cfg p ip) hrun hshort).2.mp hlaid⟩
  · rintro ⟨hshort, hpoints⟩
    obtain ⟨hplaced, hiff⟩ := laid_iff (headed_placed cfg p ip) hrun hshort
    refine ⟨hiff.mpr hpoints, ?_, hplaced.offset⟩
    have hlen := (Item.after_length hrun).2
    unfold allItems at hlen
    rw [List.length_append, List.length_append] at hlen
    omega

def composedNames : Names :=
  ⟨some [101, 115, 112], [⟨some [97], some [104, 116, 116, 112], some [116, 99, 112], 80,
    [⟨[99], some [49], false⟩], [], 0x20⟩]⟩

def composedReply : SendParameter :=
  ⟨7, 0, true, true, true, false, false, [⟨[4, 95, 116, 99, 112, 0], ⟨12, 1⟩⟩]⟩

theorem composed_iff_sample :
    ∃ out, prepareMDNSMessage composedNames composedReply (fun _ => 10) = some out ∧
      Composed composedNames composedReply (fun _ => 10) out := by
  have hsome : (prepareMDNSMessage composedNames composedReply fun _ => 10).isSome := by
    decide +kernel
  obtain ⟨out, hout⟩ := Option.isSome_iff_exists.mp hsome
  exact ⟨out, hout, (composed_iff hout).mpr (by decide +kernel)⟩

def longTxts : List ServiceTxt :=
  (range 5).map fun k => ⟨[UInt8.ofNat (107 + k)], some (replicate 250 118), false⟩

def manyNames : Names :=
  ⟨some [101, 115, 112], (range 14).map fun i => ⟨some [UInt8.ofNat (97 + i)],
    some [104, 116, 116, 112], some [116, 99, 112], 80, longTxts, [],
    if i < 13 then contentFlagTXT else contentFlagPTR_TYPE ||| contentFlagPTR_NAME⟩⟩

def manyReply : SendParameter := ⟨0, 0, false, true, true, false, true, []⟩

theorem manyItems_astray :
    ¬ItemPoints manyNames (.record (recordPTR_NAME manyReply 13))
      (after (Item.step manyNames) ((allItems manyNames manyReply fun _ => 10).take 14)
        (some (headed manyNames manyReply fun _ => 10))) := by
  decide +kernel

/-- A long message with a pointer that leads astray. -/
theorem not_composed :
    ¬∀ cfg p ip out, prepareMDNSMessage cfg p ip = some out → Composed cfg p ip out := by
  intro h
  have hsome : (prepareMDNSMessage manyNames manyReply fun _ => 10).isSome := by
    decide +kernel
  obtain ⟨out, hout⟩ := Option.isSome_iff_exists.mp hsome
  obtain ⟨hlaid, -, hoffset⟩ := h manyNames manyReply (fun _ => 10) out hout
  have hrun : after (Item.step manyNames) (allItems manyNames manyReply fun _ => 10)
      (some (headed manyNames manyReply fun _ => 10)) = some out :=
    prepareMDNSMessage_eq.symm.trans hout
  have hshort : out.bytes.length < 65536 :=
    hoffset ▸ Item.after_offset_lt hrun (Out.append_offset_lt _ _)
  have hpoints := (laid_iff (headed_placed _ _ _) hrun hshort).2.mp hlaid
  -- The items before the one whose name is a pointer.
  have hsplit : allItems manyNames manyReply (fun _ => 10) =
      (allItems manyNames manyReply fun _ => 10).take 14 ++
        .record (recordPTR_NAME manyReply 13) ::
          (allItems manyNames manyReply fun _ => 10).drop 15 := rfl
  refine manyItems_astray ?_
  refine @AllFit.behind _ _ _ _ _ ((allItems manyNames manyReply fun _ => 10).drop 15) _ _ ?_
  rw [← hsplit]
  exact hpoints

end Mdns
