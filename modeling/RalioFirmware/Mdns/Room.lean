import RalioFirmware.Mdns.Composed

/-!
# Messages that can be composed

Composing fails where a domain cannot be built, and where the offset of 16 bits wraps to zero.
`Names.Composable` is a bound for both on the configuration alone: whatever is asked of such
names, `prepare_composable` says, there is a message.
-/

namespace Mdns

open Runs List
open Option (bind_some some.inj)

/-! ## Items with room for them -/

def Named.Sound (cfg : Names) (n : Named) : Prop :=
  ∃ name, n.full cfg = some name ∧ name ≠ [] ∧ name.length ≤ domainMaxLength

structure Record.Sound (cfg : Names) (r : Record) : Prop where
  name : r.name.Sound cfg
  target : ∀ n, r.data.target = some n → n.Sound cfg

def Item.Sound (cfg : Names) : Item → Prop
  | .question q => q.domain ≠ [] ∧ q.domain.length ≤ domainMaxLength
  | .record r => r.Sound cfg

/-- The most bytes of an item: two domains, ten bytes between them, and the data. -/
def Item.room : Item → Nat
  | .question _ => domainMaxLength + 4
  | .record r => domainMaxLength + (10 + r.data.lead.length + domainMaxLength)

def roomOf : List Item → Nat
  | [] => 0
  | it :: rest => it.room + roomOf rest

theorem roomOf_append (l m : List Item) : roomOf (l ++ m) = roomOf l + roomOf m := by
  induction l with
  | nil => simp [roomOf]
  | cons it l ih => simp only [cons_append, roomOf, ih, Nat.add_assoc]

structure Out.Counted (out : Out) : Prop where
  offset : out.offset = out.bytes.length
  nonempty : 0 < out.bytes.length

variable {out : Out}

theorem Out.Counted.append (h : out.Counted) {bytes : List UInt8}
    (hroom : out.bytes.length + bytes.length < 65536) : (out.append bytes).Counted where
  offset := by
    show (out.offset + bytes.length) % 65536 = (out.bytes ++ bytes).length
    rw [h.offset, length_append, Nat.mod_eq_of_lt hroom]
  nonempty := by
    show 0 < (out.bytes ++ bytes).length
    rw [length_append]
    exact Nat.lt_add_right _ h.nonempty

theorem Out.length_append (out : Out) (bytes : List UInt8) :
    (out.append bytes).bytes.length = out.bytes.length + bytes.length :=
  List.length_append

/-- What follows `out` with no more than `room` bytes. -/
def Out.Follows (out : Out) (room : Nat) (written : Option Out) : Prop :=
  ∃ out', written = some out' ∧ out'.Counted ∧ out'.bytes.length ≤ out.bytes.length + room

theorem Out.Counted.follows_append (h : out.Counted) {room : Nat}
    {bytes : List UInt8} (hle : bytes.length ≤ room) (hroom : out.bytes.length + room < 65536) :
    out.Follows room (some (out.append bytes)) := by
  refine ⟨_, rfl, h.append (by omega), ?_⟩
  rw [Out.length_append]
  omega

theorem Named.write_follows {cfg : Names} {n : Named} (hsound : n.Sound cfg)
    (h : out.Counted) (hroom : out.bytes.length + domainMaxLength < 65536) :
    out.Follows domainMaxLength (n.write cfg out) := by
  obtain ⟨name, hfull, hne, hle⟩ := hsound
  have hlen : name.length ≠ 0 := fun hzero => hne (length_eq_zero_iff.mp hzero)
  cases n with
  | exact built =>
    have hwrite : Named.write cfg (.exact built) out = some (out.append name) := by
      change built = some name at hfull
      subst hfull
      show out.writeRRDomain name = _
      rw [Out.writeRRDomain, if_neg hlen]
    rw [hwrite]
    exact h.follows_append hle hroom
  | domain key compress =>
    show out.Follows _ (out.writeDomain cfg key false compress)
    rw [Out.writeDomain_eq]
    split
    · exact h.follows_append (show 2 ≤ domainMaxLength by decide) hroom
    · have hoffset : out.offset ≠ 0 := by
        rw [h.offset]
        exact Nat.pos_iff_ne_zero.mp h.nonempty
      change buildDomain cfg key = some name at hfull
      rw [hfull, bind_some, if_neg (not_or.mpr ⟨hoffset, hlen⟩)]
      obtain ⟨_, heq, hcounted, hbound⟩ := h.follows_append hle hroom
      obtain rfl := some.inj heq
      exact ⟨_, rfl, ⟨hcounted.offset, hcounted.nonempty⟩, hbound⟩

theorem Out.Follows.bind {out : Out} {room more : Nat} {written : Option Out}
    {next : Out → Option Out} (h : out.Follows room written)
    (hnext : ∀ out' : Out, out'.Counted → out'.bytes.length ≤ out.bytes.length + room →
      out'.Follows more (next out')) : out.Follows (room + more) (written.bind next) := by
  obtain ⟨out', rfl, hcounted, hle⟩ := h
  obtain ⟨out'', heq, hcounted', hle'⟩ := hnext out' hcounted hle
  exact ⟨out'', heq, hcounted', by omega⟩

theorem Data.write_follows {cfg : Names} {d : Data}
    (hsound : ∀ n, d.target = some n → n.Sound cfg) (h : out.Counted)
    (hroom : out.bytes.length + (2 + d.lead.length + domainMaxLength) < 65536) :
    out.Follows (2 + d.lead.length + domainMaxLength) (d.write cfg out) := by
  have hhead : out.Follows (2 + d.lead.length) (some (d.head cfg out)) := by
    have heq : d.head cfg out = out.append (be16 (d.size cfg out) ++ d.lead) :=
      Out.append_append out _ _
    rw [heq]
    refine h.follows_append ?_ (by omega)
    rw [length_append]
    exact Nat.le_refl _
  unfold write
  split
  · obtain ⟨out', heq, hcounted, hle⟩ := hhead
    exact ⟨out', heq, hcounted, by omega⟩
  · next n hn =>
      refine @Out.Follows.bind _ _ _ _ (n.write cfg) hhead fun out' hcounted hle => ?_
      exact Named.write_follows (hsound n hn) hcounted (by omega)

theorem Item.write_follows {cfg : Names} {it : Item} (hsound : it.Sound cfg)
    (h : out.Counted) (hroom : out.bytes.length + it.room < 65536) :
    out.Follows it.room (it.write cfg out) := by
  cases it with
  | question q =>
    have hlen : q.domain.length ≠ 0 := fun hzero => hsound.1 (length_eq_zero_iff.mp hzero)
    change out.bytes.length + (domainMaxLength + 4) < 65536 at hroom
    have hwrite : Item.write cfg (.question q) out = some (out.append
        (q.domain ++ (be16 q.attributes.rrType ++ be16 q.attributes.rrClass))) := by
      show (out.writeRRDomain q.domain).map _ = _
      rw [Out.writeRRDomain, if_neg hlen]
      show some (((out.append q.domain).append _).append _) = _
      rw [Out.append_append, Out.append_append]
      rfl
    rw [hwrite]
    refine h.follows_append ?_ hroom
    rw [length_append]
    exact Nat.add_le_add_right hsound.2 4
  | record r =>
    change out.bytes.length + (domainMaxLength + (10 + r.data.lead.length + domainMaxLength)) <
      65536 at hroom
    have hname := Named.write_follows hsound.name h (by omega)
    refine hname.bind fun mid hcounted hle => ?_
    have hfixed : mid.Follows 8 (some (r.attributed mid)) := by
      rw [Record.attributed_eq]
      exact hcounted.follows_append (Nat.le_refl 8) (by omega)
    have hdata := hfixed.bind fun out' hcounted' hle' =>
      Data.write_follows hsound.target hcounted' (by omega)
    obtain ⟨out', heq, hcounted', hle'⟩ := hdata
    exact ⟨out', heq, hcounted', by omega⟩

theorem Item.after_follows {cfg : Names} {l : List Item}
    (hsound : ∀ it ∈ l, it.Sound cfg) (h : out.Counted)
    (hroom : out.bytes.length + roomOf l < 65536) :
    out.Follows (roomOf l) (after (Item.step cfg) l (some out)) := by
  induction l generalizing out with
  | nil => exact ⟨out, rfl, h, Nat.le_refl _⟩
  | cons it rest ih =>
    rw [roomOf] at hroom
    obtain ⟨hit, hrest⟩ := forall_mem_cons.mp hsound
    obtain ⟨out', hwrite, hcounted, hle⟩ := Item.write_follows hit h (by omega)
    obtain ⟨final, hafter, hcounted', hle'⟩ := @ih out' hrest hcounted (by omega)
    refine ⟨final, ?_, hcounted', by rw [roomOf]; omega⟩
    show after (Item.step cfg) rest (it.write cfg out) = some final
    rw [hwrite]
    exact hafter

/-! ## Names that can be composed -/

/-- The most bytes of the records of a service: four answers and two additional ones. -/
def servicesRoom : List Service → Nat
  | [] => 0
  | s :: rest => 6 * (2 * domainMaxLength + 16) + 2 * (writeTxts s.collected).length +
      servicesRoom rest

/-- All domains can be built, and all that can be asked for fits into a datagram: a header, a
question, three records of the host, and those of the services. -/
structure Names.Composable (cfg : Names) : Prop where
  host : (buildDomainForHost cfg.hostname).isSome
  services : ∀ s ∈ cfg.services, ∀ includeName, (buildDomainForService s includeName).isSome
  room : 12 + (domainMaxLength + 4) + 3 * (2 * domainMaxLength + 14) + servicesRoom cfg.services <
    65536

def Names.bare (cfg : Names) : Names :=
  { cfg with services := cfg.services.map fun s => { s with replyMask := 0 } }

theorem servicesRoom_bare (l : List Service) :
    servicesRoom (l.map fun s => { s with replyMask := 0 }) = servicesRoom l := by
  induction l with
  | nil => rfl
  | cons s rest ih =>
    rw [map_cons, servicesRoom, servicesRoom, ih]
    rfl

theorem Names.composable_bare {cfg : Names} : cfg.bare.Composable ↔ cfg.Composable := by
  have hroom := servicesRoom_bare cfg.services
  constructor
  · intro h
    refine ⟨h.host, fun s hs => ?_, ?_⟩
    · exact h.services { s with replyMask := 0 } (mem_map.mpr ⟨s, hs, rfl⟩)
    · have hbound := h.room
      change _ + servicesRoom (map _ cfg.services) < 65536 at hbound
      rw [hroom] at hbound
      exact hbound
  · intro h
    refine ⟨h.host, fun s hs => ?_, ?_⟩
    · obtain ⟨old, hold, rfl⟩ := mem_map.mp hs
      exact h.services old hold
    · change _ + servicesRoom (map _ cfg.services) < 65536
      rw [hroom]
      exact h.room

structure SendParameter.Brief (p : SendParameter) : Prop where
  one : p.questions.length ≤ 1
  domain : ∀ q ∈ p.questions, q.domain ≠ [] ∧ q.domain.length ≤ domainMaxLength

theorem addLabel_isSome {name : List UInt8} {label : Option (List UInt8)} {underline : Bool}
    {n : Nat} (h63 : (labelText label underline).length ≤ 63) (hname : name.length ≤ n)
    (hn : n + 64 ≤ domainMaxLength) :
    ∃ name', addLabel name label underline = some name' ∧
      name'.length ≤ n + (1 + (labelText label underline).length) ∧ name' ≠ [] := by
  refine ⟨_, if_pos ⟨h63, by omega⟩, ?_, by simp⟩
  rw [length_append, length_cons]
  omega

theorem itoa_length (value : UInt8) : (labelText (some (itoa value)) false).length ≤ 3 := by
  have hall : ∀ n : Fin 256, (labelText (some (itoa (UInt8.ofNat n.val))) false).length ≤ 3 := by
    decide +kernel
  have hvalue := hall ⟨value.toNat, value.toNat_lt⟩
  rwa [UInt8.ofNat_toNat] at hvalue

theorem buildDomainForReverseIP4_some (ip : IPAddress) :
    ∃ name, buildDomainForReverseIP4 ip = some name ∧ name ≠ [] ∧
      name.length ≤ domainMaxLength := by
  have hdigits := fun i => itoa_length (ip i)
  have hlong := fun i => Nat.le_trans (hdigits i) (by decide : 3 ≤ 63)
  obtain ⟨n1, h1, hl1, -⟩ := @addLabel_isSome [] _ _ 0 (hlong 3) (Nat.le_refl _) (by decide)
  obtain ⟨n2, h2, hl2, -⟩ := @addLabel_isSome n1 _ _ 4 (hlong 2)
    (by have := hdigits 3; omega) (by decide)
  obtain ⟨n3, h3, hl3, -⟩ := @addLabel_isSome n2 _ _ 8 (hlong 1)
    (by have := hdigits 2; omega) (by decide)
  obtain ⟨n4, h4, hl4, -⟩ := @addLabel_isSome n3 _ _ 12 (hlong 0)
    (by have := hdigits 1; omega) (by decide)
  obtain ⟨n5, h5, hl5, -⟩ := @addLabel_isSome n4 (some scpcReverseIP4Domain) false 16
    (by decide) (by have := hdigits 0; omega) (by decide)
  have h7 : (labelText (some scpcReverseIP4Domain) false).length = 7 := by decide
  obtain ⟨n6, h6, hl6, -⟩ := @addLabel_isSome n5 (some scpcReverseTopDomain) false 24
    (by decide) (by omega) (by decide)
  have h4' : (labelText (some scpcReverseTopDomain) false).length = 4 := by decide
  obtain ⟨n7, h7', hl7, hne⟩ := @addLabel_isSome n6 none false 29 (by decide) (by omega)
    (by decide)
  have h0 : (labelText none false).length = 0 := by decide
  refine ⟨n7, ?_, hne, ?_⟩
  · unfold buildDomainForReverseIP4
    rw [h1, bind_some, h2, bind_some, h3, bind_some, h4, bind_some,
      h5, bind_some, h6, bind_some, h7']
  · have h256 : domainMaxLength = 256 := rfl
    omega

theorem Named.sound_of_build {cfg : Names} {key : DomainKey} {compress : Bool}
    (h : (buildDomain cfg key).isSome) : (Named.domain key compress).Sound cfg := by
  obtain ⟨name, hname⟩ := Option.isSome_iff_exists.mp h
  obtain ⟨a, rest, hcons, -⟩ := buildDomain_head hname
  exact ⟨name, hname, by simp [hcons], (buildDomain_some hname).2.2⟩

namespace Names.Composable

variable {cfg : Names} (h : cfg.Composable)
include h

theorem host_sound (compress : Bool) : (Named.domain .host compress).Sound cfg :=
  Named.sound_of_build h.host

variable {e : Service × Nat}

theorem service_sound (he : e ∈ cfg.services.zipIdx) (includeName : Bool) :
    (Named.domain (.service e.2 includeName) true).Sound cfg := by
  have hget := (mem_zipIdx' he).2
  refine Named.sound_of_build ?_
  show (cfg.services[e.2]?.bind _).isSome
  rw [getElem?_eq_getElem (mem_zipIdx' he).1, ← hget, bind_some]
  exact h.services _ (fst_mem_of_mem_zipIdx he) includeName

theorem recordA_sound (p : SendParameter) (ip : IPAddress) : (recordA p ip).Sound cfg :=
  ⟨h.host_sound true, fun _ hn => by cases hn⟩

theorem recordPTR_IP4_sound (p : SendParameter) (ip : IPAddress) :
    (recordPTR_IP4 p ip).Sound cfg :=
  ⟨buildDomainForReverseIP4_some ip, fun _ hn => some.inj hn ▸ h.host_sound true⟩

theorem recordSRV_sound (p : SendParameter) (he : e ∈ cfg.services.zipIdx) :
    (recordSRV p e.2 e.1).Sound cfg :=
  ⟨h.service_sound he true, fun _ hn => some.inj hn ▸ h.host_sound _⟩

theorem recordTXT_sound (p : SendParameter) (he : e ∈ cfg.services.zipIdx) :
    (recordTXT p e.2 e.1).Sound cfg :=
  ⟨h.service_sound he true, fun _ hn => by cases hn⟩

theorem recordPTR_NAME_sound (p : SendParameter)
    (he : e ∈ cfg.services.zipIdx) : (recordPTR_NAME p e.2).Sound cfg :=
  ⟨h.service_sound he false, fun _ hn => some.inj hn ▸ h.service_sound he true⟩

theorem recordPTR_TYPE_sound (p : SendParameter)
    (he : e ∈ cfg.services.zipIdx) : (recordPTR_TYPE p e.2).Sound cfg := by
  have hbuilt : ∃ name, buildDomainForDNSSD = some name ∧ name ≠ [] ∧
      name.length ≤ domainMaxLength := ⟨_, rfl, by decide, by decide⟩
  exact ⟨hbuilt, fun _ hn => some.inj hn ▸ h.service_sound he false⟩

end Names.Composable

theorem recordIf_sound {cfg : Names} {cond : Bool} {r : Record} (h : r.Sound cfg) :
    ∀ it ∈ recordIf cond r, it.Sound cfg := by
  unfold recordIf
  split
  · exact forall_mem_singleton.mpr h
  · exact fun _ hit => by cases hit

theorem forall_append {P : Item → Prop} {l m : List Item} (hl : ∀ it ∈ l, P it)
    (hm : ∀ it ∈ m, P it) : ∀ it ∈ l ++ m, P it :=
  forall_mem_append.mpr ⟨hl, hm⟩

/-- **All items of a message can be written.** -/
theorem allItems_sound {cfg : Names} (h : cfg.Composable) {p : SendParameter} (hp : p.Brief)
    (ip : IPAddress) : ∀ it ∈ allItems cfg p ip, it.Sound cfg := by
  refine forall_append (forall_append ?_ (forall_append (forall_append ?_ ?_) ?_))
    (forall_append ?_ ?_)
  · intro it hit
    obtain ⟨q, hq, rfl⟩ := mem_map.mp hit
    exact hp.domain q hq
  · exact recordIf_sound (h.recordA_sound p ip)
  · exact recordIf_sound (h.recordPTR_IP4_sound p ip)
  · intro it hit
    obtain ⟨e, he, hit⟩ := mem_flatMap.mp hit
    exact forall_append (forall_append (forall_append
      (recordIf_sound (h.recordPTR_TYPE_sound p he)) (recordIf_sound (h.recordPTR_NAME_sound p he)))
      (recordIf_sound (h.recordSRV_sound p he))) (recordIf_sound (h.recordTXT_sound p he)) it hit
  · intro it hit
    obtain ⟨e, he, hit⟩ := mem_flatMap.mp hit
    exact forall_append (recordIf_sound (h.recordSRV_sound p he))
      (recordIf_sound (h.recordTXT_sound p he)) it hit
  · exact recordIf_sound (h.recordA_sound p ip)

theorem roomOf_recordIf (cond : Bool) (r : Record) :
    roomOf (recordIf cond r) ≤ 2 * domainMaxLength + 10 + r.data.lead.length := by
  unfold recordIf
  split
  · simp only [roomOf, Item.room]
    omega
  · exact Nat.zero_le _

theorem roomOf_services (p : SendParameter) (l : List Service) (n : Nat) :
    roomOf ((l.zipIdx n).flatMap (serviceItems p)) +
      roomOf ((l.zipIdx n).flatMap (serviceMore p)) ≤ servicesRoom l := by
  induction l generalizing n with
  | nil => exact Nat.le_refl 0
  | cons s rest ih =>
    have hrest := ih (n + 1)
    have htype := roomOf_recordIf (asked s.replyMask contentFlagPTR_TYPE) (recordPTR_TYPE p n)
    have hname := roomOf_recordIf (asked s.replyMask contentFlagPTR_NAME) (recordPTR_NAME p n)
    have hsrv := fun cond => roomOf_recordIf cond (recordSRV p n s)
    have htxt := fun cond => roomOf_recordIf cond (recordTXT p n s)
    have hsrv1 := hsrv (asked s.replyMask contentFlagSRV)
    have hsrv2 := hsrv (asked s.replyMask contentFlagPTR_NAME && !asked s.replyMask contentFlagSRV)
    have htxt1 := htxt (asked s.replyMask contentFlagTXT)
    have htxt2 := htxt (asked s.replyMask contentFlagPTR_NAME && !asked s.replyMask contentFlagTXT)
    have hlead : (recordPTR_TYPE p n).data.lead.length = 0 ∧
        (recordPTR_NAME p n).data.lead.length = 0 ∧ (recordSRV p n s).data.lead.length = 6 ∧
        (recordTXT p n s).data.lead.length = (writeTxts s.collected).length :=
      ⟨rfl, rfl, rfl, rfl⟩
    simp only [zipIdx_cons, flatMap_cons, roomOf_append, serviceItems, serviceMore,
      servicesRoom]
    omega

theorem roomOf_allItems {cfg : Names} {p : SendParameter} (hp : p.Brief) (ip : IPAddress) :
    roomOf (allItems cfg p ip) ≤ (domainMaxLength + 4) + 3 * (2 * domainMaxLength + 14) +
      servicesRoom cfg.services := by
  have hquestions : roomOf (questionItems p) ≤ domainMaxLength + 4 := by
    have hone := hp.one
    unfold questionItems
    generalize p.questions = l at hone ⊢
    rcases l with _ | ⟨q, _ | ⟨q', rest⟩⟩
    · exact Nat.zero_le _
    · exact Nat.le_refl _
    · grind
  have hservices := roomOf_services p cfg.services 0
  have ha := fun cond => roomOf_recordIf cond (recordA p ip)
  have ha1 := ha (asked p.hostReplyMask contentFlagA)
  have ha2 := ha (needsAdditionalAnswerA cfg p)
  have hptr := roomOf_recordIf (asked p.hostReplyMask contentFlagPTR_IP4) (recordPTR_IP4 p ip)
  have hlead : (recordA p ip).data.lead.length = 4 ∧
      (recordPTR_IP4 p ip).data.lead.length = 0 := ⟨rfl, rfl⟩
  simp only [allItems, answerItems, additionalItems, roomOf_append]
  omega

/-- **A message can be composed** for such names, whatever is asked of them. -/
theorem prepare_composable {cfg : Names} (h : cfg.Composable) {p : SendParameter} (hp : p.Brief)
    (ip : IPAddress) : ∃ out, prepareMDNSMessage cfg p ip = some out := by
  have hcounted : (headed cfg p ip).Counted := by
    have hlen := headed_length cfg p ip
    exact ⟨(headed_placed cfg p ip).offset, by omega⟩
  have hroom : 12 + roomOf (allItems cfg p ip) < 65536 :=
    Nat.lt_of_le_of_lt (Nat.add_le_add_left (roomOf_allItems hp ip) 12)
      (by rw [← Nat.add_assoc, ← Nat.add_assoc]; exact h.room)
  rw [← headed_length cfg p ip] at hroom
  obtain ⟨out, hout, -⟩ := Item.after_follows (allItems_sound h hp ip) hcounted hroom
  exact ⟨out, prepareMDNSMessage_eq.trans hout⟩

end Mdns
