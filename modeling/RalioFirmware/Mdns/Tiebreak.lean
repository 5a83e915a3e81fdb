import RalioFirmware.Mdns.Residue

/-!
# Two responders probe for the same name

A probe asks for the name and carries, as records for known answers, what its sender would say
of it.  Who hears the probe of another while it probes itself settles the race: for a host name
by the addresses, for a service by the host names in the records SRV.

The addresses have an order.  For the names, `operator>` of a domain says no more than that
they differ; `tiebreak_iff` says that this leaves no race for a service with just one loser. -/

namespace Mdns

open CString List
open Option (bind_eq_some_iff bind_some isSome_iff_exists map_eq_some_iff map_some some.inj)

/-! ## Comparing domains -/

theorem tolower_eq_zero (x : UInt8) : tolower x = 0 ↔ x = 0 := by
  have hall : ∀ n : Fin 256, tolower (UInt8.ofNat n.val) = 0 ↔ UInt8.ofNat n.val = 0 := by
    decide +kernel
  have hx := hall ⟨x.toNat, x.toNat_lt⟩
  rwa [UInt8.ofNat_toNat] at hx

theorem sameText_comm (n : Nat) (a b : List UInt8) : sameText n a b = sameText n b a := by
  induction n generalizing a b with
  | zero => cases a <;> cases b <;> rfl
  | succ n ih =>
    cases a with
    | nil => cases b <;> rfl
    | cons x a =>
      cases b with
      | nil => rfl
      | cons y b =>
        simp only [sameText, ih a b]
        by_cases h : tolower x = tolower y
        · have hzero : x = 0 ↔ y = 0 := by
            rw [← tolower_eq_zero x, h, tolower_eq_zero]
          simp only [h, hzero]
        · simp only [h, Ne.symm h, decide_false, Bool.false_and]

theorem sameLabels_cons {a b : UInt8} {as bs : List UInt8} :
    sameLabels (a :: as) (b :: bs) = true ↔ a = b ∧ sameText a.toNat as bs = true ∧
      (a = 0 ∨ sameLabels (as.drop a.toNat) (bs.drop a.toNat) = true) := by
  rw [sameLabels]
  by_cases h : a = b <;> by_cases ht : sameText a.toNat as bs = true <;> simp [h, ht]

theorem sameLabels_comm (a b : List UInt8) : sameLabels a b = sameLabels b a := by
  induction hn : a.length using Nat.strong_induction_on generalizing a b with
  | _ n ih =>
    subst hn
    cases a with
    | nil =>
      cases b with
      | nil => rfl
      | cons y b => rw [sameLabels, sameLabels] <;> simp
    | cons x a =>
      cases b with
      | nil => rw [sameLabels, sameLabels] <;> simp
      | cons y b =>
        rw [sameLabels, sameLabels]
        by_cases h : x = y
        · subst h
          have hshort : (a.drop x.toNat).length < (x :: a).length := by grind
          rw [sameText_comm x.toNat a b, ih _ hshort _ _ rfl]
        · simp only [h, Ne.symm h, decide_false, Bool.false_and, Bool.false_eq_true, if_false]

theorem domainEq_comm (a b : List UInt8) : domainEq a b = domainEq b a := by
  unfold domainEq
  rw [sameLabels_comm, decide_eq_decide.mpr eq_comm]

variable {host : List UInt8}

theorem service_ne_host {s : Service} {hostname : Option (List UInt8)} {name : List UInt8}
    (hname : buildDomainForService s true = some name)
    (hhost : buildDomainForHost hostname = some host) : domainEq name host = false := by
  obtain ⟨hnameEq, hname63, -⟩ := @buildDomain_some ⟨hostname, [s]⟩ (.service 0 true) name hname
  obtain ⟨hhostEq, hhost63, -⟩ := @buildDomain_some ⟨hostname, [s]⟩ .host host hhost
  have hne : labelText hostname false ≠ [] := by
    cases hostname with
    | none => cases hhost
    | some hostname =>
      intro hnil
      change cstr hostname = [] at hnil
      change (if cstr hostname = [] then none else _) = some host at hhost
      rw [if_pos hnil] at hhost
      cases hhost
  have hinst63 : (labelText s.name false).length ≤ 63 := hname63 _ (by simp [domainLabels])
  have hlabel63 : (labelText hostname false).length ≤ 63 := hhost63 _ (by simp [domainLabels])
  have hnat : ∀ {n : Nat}, n ≤ 63 → (UInt8.ofNat n).toNat = n := fun h =>
    UInt8.toNat_ofNat_of_lt' (show _ < 256 by omega)
  have hunder : labelText s.service true = [] ∨ ∃ rest, labelText s.service true = 95 :: rest := by
    cases s.service with
    | none => exact .inl rfl
    | some label => exact .inr ⟨_, rfl⟩
  unfold domainEq
  refine Bool.and_eq_false_iff.mpr (.inr (Bool.eq_false_iff.mpr fun hsame => ?_))
  simp only [hnameEq, hhostEq, domainLabels, getElem?_cons_zero, if_true,
    encodeLabels_cons, cons_append, append_assoc] at hsame
  obtain ⟨hlen, -, hrest⟩ := sameLabels_cons.mp hsame
  have hlen' : (labelText s.name false).length = (labelText hostname false).length := by
    rw [← hnat hinst63, ← hnat hlabel63, hlen]
  rcases hrest with hzero | hrest
  · have hnil := hnat hinst63
    rw [hzero, hlen'] at hnil
    exact hne (length_eq_zero_iff.mp hnil.symm)
  · rw [hnat hinst63, drop_left, hlen', drop_left] at hrest
    obtain ⟨hfive, htext, -⟩ := sameLabels_cons.mp hrest
    rcases hunder with hnil | ⟨rest, hcons⟩
    · rw [hnil] at hfive
      exact absurd hfive (by decide)
    · rw [hfive, hcons] at htext
      have hfirst : tolower 95 = tolower 108 :=
        of_decide_eq_true (Bool.and_eq_true_iff.mp htext).1
      exact absurd hfirst (by decide)

/-! ## Probes -/

inductive Stake where
  | host
  | service (i : Nat)

namespace Responder

def domain (r : Responder) : Stake → Option (List UInt8)
  | .host => buildDomainForHost r.hostname
  | .service i => r.services[i]?.bind (buildDomainForService ·.service true)

def status (r : Responder) : Stake → Option ProbingStatus
  | .host => some r.probing
  | .service i => r.services[i]?.map ServiceState.probing

/-- What `_sendHostProbe` and `_sendServiceProbe` send: the names and the parameters. -/
def probe (r : Responder) (stake : Stake) : Option (Names × SendParameter) :=
  (r.domain stake).map fun domain =>
    let questions : List RRQuestion := [⟨domain, ⟨rrTypeANY, 0x8000 ||| rrClassIN⟩⟩]
    match stake with
    | .host => (r.names, ⟨0, contentFlagA, false, false, false, false, false, questions⟩)
    | .service i =>
      ((r.one i fun s => s.withMask (contentFlagSRV ||| contentFlagPTR_NAME)).names,
        ⟨0, 0, false, false, false, false, false, questions⟩)

end Responder

/-- A question as `_readRRQuestion` gives it. -/
def RRQuestion.asRead (q : RRQuestion) : RRHeader × Bool :=
  (⟨q.domain, q.attributes.rrType, q.attributes.rrClass &&& 0x7FFF⟩,
    q.attributes.rrClass &&& 0x8000 ≠ 0)

/-- The data of a record as they are read; what is made of the items of a record TXT is left
open. -/
def Record.dataAsRead (cfg : Names) (txts : List UInt8 → List ServiceTxt) (r : Record) :
    Option RRData :=
  let lead := r.data.lead
  let target := r.data.target.bind (Named.full cfg)
  let word := fun i => (lead.getD i 0).toNat * 256 + (lead.getD (i + 1) 0).toNat
  if r.attributes.rrType = rrTypeA then some (.a fun i => lead.getD i 0)
  else if r.attributes.rrType = rrTypePTR then target.map .ptr
  else if r.attributes.rrType = rrTypeSRV then target.map (.srv (word 0) (word 2) (word 4))
  else if r.attributes.rrType = rrTypeTXT then some (.txt (txts lead))
  else some .generic

/-- A record as `_readRRAnswer` gives it. -/
def Record.asRead (cfg : Names) (txts : List UInt8 → List ServiceTxt) (r : Record) :
    Option RRAnswer :=
  (r.name.full cfg).bind fun name => (r.dataAsRead cfg txts).map fun data =>
    ⟨⟨name, r.attributes⟩, r.ttl, data⟩

def Item.answer (cfg : Names) (txts : List UInt8 → List ServiceTxt) : Item → Option RRAnswer
  | .question _ => none
  | .record r => r.asRead cfg txts

def answers (cfg : Names) (p : SendParameter) (ip : IPAddress)
    (txts : List UInt8 → List ServiceTxt) : List RRAnswer :=
  (answerItems cfg p ip ++ additionalItems cfg p ip).filterMap (Item.answer cfg txts)

/-- The loops of `_parseQuery`, over questions and records that are read. -/
def Parse.hear (pkt : Packet) (header : MsgHeader) (questions : List (RRHeader × Bool))
    (known : List RRAnswer) (st : Parse) : Parse :=
  known.foldl (fun st known => st.answer pkt known)
    (questions.foldl (fun st q => (st.question pkt header q).2) st)

/-! ## Packets that are such messages -/

def answersRead (behind : List UInt8) : Nat → Rx → Option (List RRAnswer)
  | 0, _ => some []
  | n + 1, rx => (readRRAnswer behind rx).bind fun known =>
    (answersRead behind n known.2).map fun rest => known.1 :: rest

/-! ## Races -/

structure Contender where
  responder : Responder
  context : Packet

/-- What two responders race for: a host name, or the instances at these places. -/
inductive Race where
  | host
  | service (i j : Nat)

def Race.left : Race → Stake
  | .host => .host
  | .service i _ => .service i

def Race.right : Race → Stake
  | .host => .host
  | .service _ j => .service j

def Contender.hears (c : Contender) (txts : List UInt8 → List ServiceTxt) (other : Contender)
    (stake : Stake) : Option Responder :=
  (other.responder.probe stake).map fun probe =>
    let known := answers probe.1 probe.2 other.context.input txts
    let header : MsgHeader := ⟨0, false, false, 1, 0, known.length, 0⟩
    ((Parse.start c.responder).hear c.context header (probe.2.questions.map RRQuestion.asRead)
      known).responder.resetTiebreaks

/-- Both probe for what they race for, with names that can be built, and nothing is left of
earlier messages. -/
structure Contender.Probes (c : Contender) (stake : Stake) : Prop where
  clean : c.responder.Clean
  probing : c.responder.status stake = some .inProgress
  host : (buildDomainForHost c.responder.hostname).isSome
  domain : (c.responder.domain stake).isSome
  port : c.context.remotePort = mqueryPort

structure Racing (race : Race) (a b : Contender) : Prop where
  left : a.Probes race.left
  right : b.Probes race.right
  same : ∀ name name', a.responder.domain race.left = some name →
    b.responder.domain race.right = some name' → domainEq name name' = true

def SameHost (a b : Contender) : Prop :=
  isDomain ((buildDomainForHost a.responder.hostname).getD [])
    (buildDomainForHost b.responder.hostname) = true

def SameData (a b : Contender) : Race → Prop
  | .host => a.context.input.bytes = b.context.input.bytes
  | .service _ _ => SameHost a b

instance (a b : Contender) : Decidable (SameHost a b) := inferInstanceAs (Decidable (_ = true))

/-- **Just one loses.**  After each has heard the other, one has cancelled its probing and the
other goes on; with the same data both go on. -/
def OneLoser (txts : List UInt8 → List ServiceTxt) (race : Race) (a b : Contender) : Prop :=
  ∃ a' b', a.hears txts b race.right = some a' ∧ b.hears txts a race.left = some b' ∧
    ((SameData a b race ∧ a'.status race.left = some .inProgress ∧
        b'.status race.right = some .inProgress) ∨
      (¬SameData a b race ∧
        ((a'.status race.left = some .waitingForData ∧
            b'.status race.right = some .inProgress) ∨
          (a'.status race.left = some .inProgress ∧
            b'.status race.right = some .waitingForData))))

/-! ## What is heard -/

theorem Parse.answer_services {st : Parse} (h : st.responder.tiebreakNeeded = false)
    (pkt : Packet) (known : RRAnswer) : (st.answer pkt known).responder =
      if known.header.attributes.rrType ≠ rrTypeANY ∧
          known.header.attributes.rrClass ≠ rrClassANY then
        st.responder.each fun s =>
          (s.known st.responder.hostname known).tiebreak st.responder.hostname known
      else st.responder := by
  have htie : st.responder.hostTiebreak pkt known = st.responder := by
    unfold Responder.hostTiebreak
    rw [h, if_neg fun hand => Bool.false_ne_true hand.1]
  unfold answer
  split
  · show ((st.responder.hostTiebreak pkt known).each fun s =>
        (s.known (st.responder.hostTiebreak pkt known).hostname known).tiebreak
          (st.responder.hostTiebreak pkt known).hostname known) = _
    rw [htie]
  · rfl

theorem ServiceState.known_states (hostname : Option (List UInt8)) (known : RRAnswer)
    (s : ServiceState) : (s.known hostname known).probing = s.probing ∧
      (s.known hostname known).tiebreakNeeded = s.tiebreakNeeded := by
  unfold ServiceState.known
  dsimp only
  split
  · split <;> exact ⟨rfl, rfl⟩
  · exact ⟨rfl, rfl⟩

variable {s : ServiceState}

theorem SameService.build {s' : ServiceState} (h : SameService s s') (includeName : Bool) :
    buildDomainForService s'.service includeName = buildDomainForService s.service includeName := by
  show buildDomainForService (s'.withMask 0).service includeName =
    buildDomainForService (s.withMask 0).service includeName
  exact congrArg (buildDomainForService · includeName) h

/-- How the race for a service stands in the middle of a message. -/
structure Held (hostname : Option (List UInt8)) (i : Nat) (name : Option (List UInt8))
    (race : Bool) (status : ProbingStatus) (r : Responder) : Prop where
  host : r.tiebreakNeeded = false
  hostname : r.hostname = hostname
  service : ∃ s, r.services[i]? = some s ∧ buildDomainForService s.service true = name ∧
    s.tiebreakNeeded = race ∧ s.probing = status

section Answers

variable {hostname : Option (List UInt8)} {i : Nat} {name : Option (List UInt8)} {race : Bool}
  {status : ProbingStatus} {st : Parse}

theorem Held.answer (h : Held hostname i name race status st.responder) (pkt : Packet)
    {known : RRAnswer} {race' : Bool} {status' : ProbingStatus}
    (hstep : ∀ s : ServiceState, buildDomainForService s.service true = name →
      s.tiebreakNeeded = race →
      s.probing = status → (s.tiebreak hostname known).tiebreakNeeded = race' ∧
        (s.tiebreak hostname known).probing = status')
    (hskip : known.header.attributes.rrType = rrTypeANY ∨
      known.header.attributes.rrClass = rrClassANY → race' = race ∧ status' = status) :
    Held hostname i name race' status' (st.answer pkt known).responder := by
  obtain ⟨s, hs, hname, hrace, hstatus⟩ := h.service
  rw [Parse.answer_services h.host, h.hostname]
  split
  · refine ⟨h.host, h.hostname, (s.known hostname known).tiebreak hostname known, ?_, ?_, ?_⟩
    · show (st.responder.services.map _)[i]? = _
      rw [getElem?_map, hs]
      rfl
    · rw [ServiceState.tiebreak_service, (s.known_same hostname known).build]
      exact hname
    · obtain ⟨hsame, hsame'⟩ := s.known_states hostname known
      exact hstep _ (((s.known_same hostname known).build true).trans hname)
        (hsame'.trans hrace) (hsame.trans hstatus)
  · next hany =>
      obtain ⟨rfl, rfl⟩ := hskip (Decidable.not_and_iff_not_or_not.mp hany |>.imp
        Decidable.not_not.mp Decidable.not_not.mp)
      exact h

theorem Held.answers_settled (h : Held hostname i name false status st.responder) (pkt : Packet)
    (known : List RRAnswer) : Held hostname i name false status
      (known.foldl (fun st known => st.answer pkt known) st).responder := by
  induction known generalizing st with
  | nil => exact h
  | cons first rest ih =>
    refine ih (h.answer pkt (fun s _ hrace hstatus => ?_) fun _ => ⟨rfl, rfl⟩)
    unfold ServiceState.tiebreak
    rw [hrace, if_neg fun hand => Bool.false_ne_true hand.1]
    exact ⟨hrace, hstatus⟩

def RRAnswer.isSRV (known : RRAnswer) : Bool :=
  match known.data with
  | .srv .. => true
  | _ => false

theorem Held.answers_other (h : Held hostname i name race status st.responder) (pkt : Packet)
    {known : List RRAnswer} (hother : ∀ k ∈ known, k.isSRV = false) :
    Held hostname i name race status
      (known.foldl (fun st known => st.answer pkt known) st).responder := by
  induction known generalizing st with
  | nil => exact h
  | cons first rest ih =>
    obtain ⟨hfirst, hrest⟩ := forall_mem_cons.mp hother
    refine ih (h.answer pkt (fun s _ hrace hstatus => ?_) fun _ => ⟨rfl, rfl⟩) hrest
    unfold ServiceState.tiebreak
    unfold RRAnswer.isSRV at hfirst
    split
    · grind
    · exact ⟨hrace, hstatus⟩

end Answers

/-! ## What a probe says -/

variable {p : SendParameter}

theorem serviceItems_nil {s : Service} {i : Nat} (h : s.replyMask = 0) :
    serviceItems p (s, i) = [] ∧ serviceMore p (s, i) = [] := by
  have hasked : ∀ flags, asked s.replyMask flags = false := by
    intro flags
    rw [h]
    exact decide_eq_false fun hne => hne BitVec.zero_and
  unfold serviceItems serviceMore recordIf
  simp [hasked]

theorem flatMap_none {l : List Service} {f : Service × Nat → List Item} {n : Nat}
    (h : ∀ j s, l[j]? = some s → f (s, n + j) = []) : (l.zipIdx n).flatMap f = [] := by
  induction l generalizing n with
  | nil => rfl
  | cons s rest ih =>
    have hfirst := h 0 s rfl
    rw [Nat.add_zero] at hfirst
    rw [zipIdx_cons, flatMap_cons, hfirst, nil_append]
    refine ih fun j s' hs' => ?_
    rw [Nat.add_assoc, Nat.add_comm 1 j]
    exact h (j + 1) s' hs'

theorem flatMap_only {l : List Service} {f : Service × Nat → List Item} {n i : Nat} {s : Service}
    (hs : l[i]? = some s) (h : ∀ j s, l[j]? = some s → j ≠ i → f (s, n + j) = []) :
    (l.zipIdx n).flatMap f = f (s, n + i) := by
  induction l generalizing n i with
  | nil => cases hs
  | cons first rest ih =>
    rw [zipIdx_cons, flatMap_cons]
    cases i with
    | zero =>
      obtain rfl := some.inj hs
      rw [flatMap_none fun j s' hs' => ?_, append_nil, Nat.add_zero]
      rw [Nat.add_assoc, Nat.add_comm 1 j]
      exact h (j + 1) s' hs' (Nat.succ_ne_zero j)
    | succ i =>
      have hfirst := h 0 first rfl (Nat.succ_ne_zero i).symm
      rw [Nat.add_zero] at hfirst
      rw [hfirst, nil_append, @ih (n + 1) i hs fun j s' hs' hj => ?_, Nat.add_assoc,
        Nat.add_comm 1 i]
      rw [Nat.add_assoc, Nat.add_comm 1 j]
      exact h (j + 1) s' hs' fun heq => hj (Nat.succ.inj heq)

theorem flushing_probe (h : p.cacheFlush = false) (rrType : Nat) :
    p.flushing rrType = ⟨rrType, rrClassIN⟩ := by
  have hclass : (0 ||| rrClassIN) = rrClassIN := by decide
  unfold SendParameter.flushing
  rw [h, if_neg Bool.false_ne_true, hclass]

variable {r : Responder}

/-- **The probe for a host** says its address. -/
theorem answers_host (hr : r.Clean) {name : List UInt8}
    (hname : buildDomainForHost r.hostname = some name) (questions : List RRQuestion)
    (ip : IPAddress) (txts : List UInt8 → List ServiceTxt) :
    answers r.names ⟨0, contentFlagA, false, false, false, false, false, questions⟩ ip txts =
      [⟨⟨name, ⟨rrTypeA, rrClassIN⟩⟩, hostTTL, .a ip⟩] := by
  have hzero : ∀ (j : Nat) (s : Service), r.names.services[j]? = some s → s.replyMask = 0 := by
    intro j s hs
    obtain ⟨old, hold, rfl⟩ := mem_map.mp (mem_of_getElem? hs)
    exact hr.masks old hold
  have hitems : r.names.services.zipIdx.flatMap (serviceItems
      ⟨0, contentFlagA, false, false, false, false, false, questions⟩) = [] :=
    flatMap_none fun j s hs => (serviceItems_nil (hzero j s hs)).1
  have hmore : r.names.services.zipIdx.flatMap (serviceMore
      ⟨0, contentFlagA, false, false, false, false, false, questions⟩) = [] :=
    flatMap_none fun j s hs => (serviceItems_nil (hzero j s hs)).2
  have haskedA : asked contentFlagA contentFlagA = true := by decide
  have haskedPTR : asked contentFlagA contentFlagPTR_IP4 = false := by decide
  have hneeds : needsAdditionalAnswerA r.names
      ⟨0, contentFlagA, false, false, false, false, false, questions⟩ = false := by
    refine any_eq_false.mpr fun s _ => ?_
    rw [haskedA, Bool.not_true, Bool.and_false]
    exact Bool.false_ne_true
  unfold answers answerItems additionalItems
  rw [hitems, hmore, hneeds, haskedA, haskedPTR]
  have hfull : (Named.domain .host true).full r.names = some name := hname
  have hread : Item.answer r.names txts (.record (recordA
      ⟨0, contentFlagA, false, false, false, false, false, questions⟩ ip)) =
      some ⟨⟨name, ⟨rrTypeA, rrClassIN⟩⟩, hostTTL, .a ip⟩ := by
    have hip : (fun i : Fin 4 => [ip 0, ip 1, ip 2, ip 3].getD i.val 0) = ip := by grind
    show ((Named.domain .host true).full r.names).bind _ = _
    rw [hfull, bind_some]
    show (some (RRData.a fun i => [ip 0, ip 1, ip 2, ip 3].getD i.val 0)).map _ = _
    rw [hip, map_some]
    show some (RRAnswer.mk ⟨name, SendParameter.flushing _ rrTypeA⟩ hostTTL (.a ip)) = _
    rw [flushing_probe rfl]
  show [Item.record (recordA _ ip)].filterMap _ = _
  rw [filterMap_cons_some hread]
  rfl

theorem services_one (hr : r.Clean) {i : Nat}
    (hs : r.services[i]? = some s) (mask : BitVec 8) :
    (r.one i fun s => s.withMask mask).names.services[i]? = some (s.withMask mask).service ∧
      ∀ j e, (r.one i fun s => s.withMask mask).names.services[j]? = some e → j ≠ i →
        e.replyMask = 0 := by
  have hget : ∀ j, (r.one i fun s => s.withMask mask).names.services[j]? =
      (r.services[j]?.map fun s => if i = j then s.withMask mask else s).map
        ServiceState.service := by
    intro j
    show ((r.services.modify i _).map ServiceState.service)[j]? = _
    rw [getElem?_map, getElem?_modify]
    split <;> rfl
  constructor
  · rw [hget, hs, map_some, if_pos rfl, map_some]
  · intro j e he hj
    rw [hget] at he
    obtain ⟨old, hold, rfl⟩ := map_eq_some_iff.mp he
    obtain ⟨old', hold', rfl⟩ := map_eq_some_iff.mp hold
    rw [if_neg (Ne.symm hj)]
    exact hr.masks old' (mem_of_getElem? hold')

variable {cfg : Names}

theorem recordSRV_asRead {i : Nat} {service : Service}
    {name : List UInt8} (hi : cfg.services[i]? = some service)
    (hname : buildDomainForService service true = some name)
    (hhost : buildDomainForHost cfg.hostname = some host) (hflush : p.cacheFlush = false)
    (httl : p.unannounce = false) (txts : List UInt8 → List ServiceTxt) :
    ∃ priority weight port, (recordSRV p i service).asRead cfg txts =
      some ⟨⟨name, ⟨rrTypeSRV, rrClassIN⟩⟩, serviceTTL, .srv priority weight port host⟩ := by
  have hfull : (Named.domain (.service i true) true).full cfg = some name := by
    show cfg.services[i]?.bind _ = _
    rw [hi]
    exact hname
  have htarget : (recordSRV p i service).data.target.bind (Named.full cfg) = some host := hhost
  obtain ⟨priority, weight, port, hdata⟩ : ∃ priority weight port,
      (recordSRV p i service).dataAsRead cfg txts = some (.srv priority weight port host) := by
    unfold Record.dataAsRead
    dsimp only
    rw [htarget]
    exact ⟨_, _, _, rfl⟩
  refine ⟨priority, weight, port, ?_⟩
  unfold Record.asRead
  rw [hdata]
  show ((Named.domain (.service i true) true).full cfg).bind _ = _
  rw [hfull, bind_some, map_some]
  show some (RRAnswer.mk ⟨name, p.flushing rrTypeSRV⟩ (p.ttl serviceTTL) _) = _
  rw [flushing_probe hflush, SendParameter.ttl, httl]
  rfl

variable {txts : List UInt8 → List ServiceTxt}

theorem recordPTR_NAME_isSRV {i : Nat} {k : RRAnswer}
    (hread : (recordPTR_NAME p i).asRead cfg txts = some k) : k.isSRV = false := by
  obtain ⟨_, -, hread⟩ := bind_eq_some_iff.mp hread
  obtain ⟨data, hdata, rfl⟩ := map_eq_some_iff.mp hread
  unfold Record.dataAsRead at hdata
  change (if rrTypePTR = rrTypeA then _ else if rrTypePTR = rrTypePTR then _ else _) =
    some data at hdata
  rw [if_neg (by decide), if_pos rfl] at hdata
  obtain ⟨domain, -, rfl⟩ := map_eq_some_iff.mp hdata
  rfl

/-- **The probe for an instance** says the host of it; a pointer comes in front. -/
theorem answers_service (hr : r.Clean) {i : Nat}
    (hs : r.services[i]? = some s) {name : List UInt8}
    (hname : buildDomainForService s.service true = some name)
    (hhost : buildDomainForHost r.hostname = some host) (questions : List RRQuestion)
    (ip : IPAddress) (txts : List UInt8 → List ServiceTxt) :
    ∃ pre post priority weight port,
      answers (r.one i fun s => s.withMask (contentFlagSRV ||| contentFlagPTR_NAME)).names
        ⟨0, 0, false, false, false, false, false, questions⟩ ip txts =
          pre ++ ⟨⟨name, ⟨rrTypeSRV, rrClassIN⟩⟩, serviceTTL, .srv priority weight port host⟩ ::
            post ∧
      ∀ k ∈ pre, k.isSRV = false := by
  obtain ⟨mask, hmask⟩ : ∃ mask, mask = contentFlagSRV ||| contentFlagPTR_NAME := ⟨_, rfl⟩
  obtain ⟨cfg, hcfg⟩ : ∃ cfg, cfg = (r.one i fun s => s.withMask mask).names := ⟨_, rfl⟩
  obtain ⟨p, hp⟩ : ∃ p : SendParameter, p = ⟨0, 0, false, false, false, false, false, questions⟩ :=
    ⟨_, rfl⟩
  obtain ⟨hi, hother⟩ := services_one hr hs mask
  rw [← hcfg] at hi hother
  have hitems : cfg.services.zipIdx.flatMap (serviceItems p) =
      [.record (recordPTR_NAME p i), .record (recordSRV p i (s.withMask mask).service)] := by
    rw [@flatMap_only _ (serviceItems p) 0 i _ hi fun j e he hj =>
      (serviceItems_nil (hother j e he hj)).1, Nat.zero_add]
    unfold serviceItems recordIf
    show (if asked mask _ = true then _ else _) ++ (if asked mask _ = true then _ else _) ++
      (if asked mask _ = true then _ else _) ++ (if asked mask _ = true then _ else _) = _
    rw [hmask, if_neg (by decide), if_pos (by decide), if_pos (by decide), if_neg (by decide)]
    rfl
  have hlist : ∃ more, answerItems cfg p ip ++ additionalItems cfg p ip =
      .record (recordPTR_NAME p i) :: .record (recordSRV p i (s.withMask mask).service) ::
          more := by
    refine ⟨additionalItems cfg p ip, ?_⟩
    have hnoA : recordIf (asked p.hostReplyMask contentFlagA) (recordA p ip) = [] := by
      rw [hp]
      exact if_neg (show ¬asked 0 contentFlagA = true by decide)
    have hnoPTR : recordIf (asked p.hostReplyMask contentFlagPTR_IP4) (recordPTR_IP4 p ip) =
        [] := by
      rw [hp]
      exact if_neg (show ¬asked 0 contentFlagPTR_IP4 = true by decide)
    unfold answerItems
    rw [hnoA, hnoPTR, hitems]
    rfl
  obtain ⟨more, hmore⟩ := hlist
  have hnames : buildDomainForHost cfg.hostname = some host := by
    rw [hcfg]
    exact hhost
  have hprobe : p.cacheFlush = false ∧ p.unannounce = false := by
    rw [hp]
    exact ⟨rfl, rfl⟩
  obtain ⟨priority, weight, port, hsrv⟩ :=
    recordSRV_asRead hi hname hnames hprobe.1 hprobe.2 txts
  have hanswers : answers cfg p ip txts =
      ((recordPTR_NAME p i).asRead cfg txts).toList ++
        ⟨⟨name, ⟨rrTypeSRV, rrClassIN⟩⟩, serviceTTL, .srv priority weight port host⟩ ::
          more.filterMap (Item.answer cfg txts) := by
    unfold answers
    rw [hmore]
    change Item.answer cfg txts (.record (recordSRV p i (s.withMask mask).service)) = _ at hsrv
    cases hptr : (recordPTR_NAME p i).asRead cfg txts with
    | none =>
      have hfirst : Item.answer cfg txts (.record (recordPTR_NAME p i)) = none := hptr
      rw [filterMap_cons_none hfirst, filterMap_cons_some hsrv]
      rfl
    | some k =>
      have hfirst : Item.answer cfg txts (.record (recordPTR_NAME p i)) = some k := hptr
      rw [filterMap_cons_some hfirst, filterMap_cons_some hsrv]
      rfl
  refine ⟨((recordPTR_NAME p i).asRead cfg txts).toList, more.filterMap (Item.answer cfg txts),
    priority, weight, port, ?_, fun k hk => ?_⟩
  · grind
  · exact recordPTR_NAME_isSRV (Option.mem_toList.mp hk)

/-! ## Who loses -/

theorem question_race {h : RRHeader} (hprobing : s.probing = .inProgress)
    (hdomain : isDomain h.domain (buildDomainForService s.service true) = true)
    (hasks : h.attributes = ⟨rrTypeANY, rrClassIN⟩) : (s.question h).tiebreakNeeded = true := by
  have hanswered : h.attributes.answered = true := by rw [hasks]; decide
  have hmask : replyMaskForService h s.service ≠ 0 := by
    intro hzero
    unfold replyMaskForService at hzero
    have hSRV : h.attributes.asks rrTypeSRV = true := by rw [hasks]; decide
    rw [if_pos hanswered, hdomain, hSRV] at hzero
    have hflag := (BitVec.or_eq_zero_iff.mp (BitVec.or_eq_zero_iff.mp hzero).1).2
    exact absurd hflag (by decide)
  have hmatch : fullNameMatchForService h s.service = true := by
    unfold fullNameMatchForService
    rw [hanswered, hdomain]
    rfl
  show (s.tiebreakNeeded || (decide (s.probing = .inProgress) &&
    decide (replyMaskForService h s.service ≠ 0) && fullNameMatchForService h s.service)) = true
  rw [hprobing, hmatch, decide_eq_true hmask, Bool.and_true, Bool.and_true]
  exact Bool.or_true _

theorem asRead_probe (name : List UInt8) :
    RRQuestion.asRead ⟨name, ⟨rrTypeANY, 0x8000 ||| rrClassIN⟩⟩ =
      (⟨name, ⟨rrTypeANY, rrClassIN⟩⟩, true) := by
  have hclass : ((0x8000 ||| rrClassIN) &&& 0x7FFF) = rrClassIN := by decide
  have hunicast : decide (((0x8000 ||| rrClassIN) &&& 0x8000) ≠ 0) = true := by decide
  show (_, _) = _
  rw [hclass, hunicast]

/-- What is left of a message with one question and these records. -/
def Contender.heard (c : Contender) (name : List UInt8) (known : List RRAnswer) : Responder :=
  ((Parse.start c.responder).hear c.context ⟨0, false, false, 1, 0, known.length, 0⟩
    [(⟨name, ⟨rrTypeANY, rrClassIN⟩⟩, true)] known).responder.resetTiebreaks

theorem Contender.hears_eq {c other : Contender}
    {stake : Stake} {names : Names} {name : List UInt8}
    (hprobe : other.responder.probe stake = some (names, p))
    (hquestions : p.questions = [⟨name, ⟨rrTypeANY, 0x8000 ||| rrClassIN⟩⟩]) :
    c.hears txts other stake =
      some (c.heard name (answers names p other.context.input txts)) := by
  unfold hears heard
  rw [hprobe, map_some]
  dsimp only
  rw [hquestions, map_singleton, asRead_probe]

/-- **The side that hears the probe for an instance** goes on just if the host is its own. -/
theorem hears_service {c other : Contender} {txts : List UInt8 → List ServiceTxt} {i j : Nat}
    (hc : c.Probes (.service i)) (ho : other.Probes (.service j))
    (hsame : ∀ name name', c.responder.domain (.service i) = some name →
      other.responder.domain (.service j) = some name' → domainEq name' name = true) :
    ∃ c', c.hears txts other (.service j) = some c' ∧ c'.status (.service i) =
      some (if SameHost other c then .inProgress else .waitingForData) := by
  obtain ⟨name, hname⟩ := isSome_iff_exists.mp hc.domain
  obtain ⟨name', hname'⟩ := isSome_iff_exists.mp ho.domain
  obtain ⟨own, hown⟩ := isSome_iff_exists.mp hc.host
  obtain ⟨host, hhost⟩ := isSome_iff_exists.mp ho.host
  have heq := hsame name name' hname hname'
  obtain ⟨s, hs, hbuilt⟩ := bind_eq_some_iff.mp hname
  obtain ⟨s', hs', hbuilt'⟩ := bind_eq_some_iff.mp hname'
  obtain ⟨old, hold, hprobing⟩ := map_eq_some_iff.mp hc.probing
  obtain rfl := some.inj (hs.symm.trans hold)
  obtain ⟨pre, post, priority, weight, port, hanswers, hpre⟩ := answers_service ho.clean hs'
    hbuilt' hhost [⟨name', ⟨rrTypeANY, 0x8000 ||| rrClassIN⟩⟩] other.context.input txts
  have hprobe : other.responder.probe (.service j) = some
      ((other.responder.one j fun s => s.withMask (contentFlagSRV ||| contentFlagPTR_NAME)).names,
        ⟨0, 0, false, false, false, false, false,
          [⟨name', ⟨rrTypeANY, 0x8000 ||| rrClassIN⟩⟩]⟩) := by
    unfold Responder.probe
    rw [hname']
    rfl
  refine ⟨_, Contender.hears_eq hprobe rfl, ?_⟩
  rw [hanswers]
  -- the question opens the race, and the host's own is none
  have hasked : ∀ header, Held c.responder.hostname i (some name) true .inProgress
      ((Parse.start c.responder).question c.context header
        (⟨name', ⟨rrTypeANY, rrClassIN⟩⟩, true)).2.responder := by
    intro header
    rw [Parse.question_responder]
    have hnohost : fullNameMatchForHost c.responder.hostname
        ⟨name', ⟨rrTypeANY, rrClassIN⟩⟩ = false := by
      unfold fullNameMatchForHost isDomain
      rw [hown]
      show (_ && domainEq name' own) = false
      rw [service_ne_host hbuilt' hown, Bool.and_false]
    refine ⟨?_, rfl, s.question ⟨name', ⟨rrTypeANY, rrClassIN⟩⟩, ?_, hbuilt, ?_, hprobing⟩
    · show (c.responder.tiebreakNeeded || (_ && fullNameMatchForHost c.responder.hostname _)) = _
      rw [hnohost, Bool.and_false, hc.clean.host]
      rfl
    · show (c.responder.services.map _)[i]? = _
      rw [getElem?_map, hs]
      rfl
    · refine question_race hprobing ?_ rfl
      unfold isDomain
      rw [hbuilt]
      exact heq
  unfold Contender.heard Parse.hear
  rw [foldl_cons, foldl_nil]
  generalize MsgHeader.mk _ _ _ _ _ _ _ = header
  specialize hasked header
  generalize (Parse.start c.responder).question c.context header _ = asked at hasked ⊢
  -- the record SRV settles it
  have hsrv : Held c.responder.hostname i (some name) false
      (if SameHost other c then .inProgress else .waitingForData)
      (((pre.foldl (fun st known => st.answer c.context known) asked.2).answer c.context
        ⟨⟨name', ⟨rrTypeSRV, rrClassIN⟩⟩, serviceTTL,
          .srv priority weight port host⟩).responder) := by
    refine (hasked.answers_other c.context hpre).answer c.context
        (fun s hbuilt hrace hprobing => ?_)
      fun hany => absurd hany (show ¬(rrTypeSRV = rrTypeANY ∨ rrClassIN = rrClassANY) by decide)
    have hours : isDomain name' (buildDomainForService s.service true) = true := by
      rw [hbuilt]
      exact heq
    have hsameHost : SameHost other c ↔
        isDomain host (buildDomainForHost c.responder.hostname) = true := by
      unfold SameHost
      rw [hhost]
      rfl
    have hgt : domainGt host ((buildDomainForHost c.responder.hostname).getD []) =
        !isDomain host (buildDomainForHost c.responder.hostname) := by
      rw [hown]
      rfl
    unfold ServiceState.tiebreak
    rw [if_pos ⟨hrace, hours⟩]
    dsimp only
    rw [hgt]
    by_cases hwon : SameHost other c
    · grind
    · have hlost := Bool.eq_false_iff.mpr (mt hsameHost.mpr hwon)
      rw [if_neg hwon, hlost, if_neg Bool.false_ne_true, if_pos (show (!false) = true from rfl)]
      exact ⟨rfl, rfl⟩
  obtain ⟨final, hfinal, -, -, hstatus⟩ := (hsrv.answers_settled c.context post).service
  show ((map _ (((pre ++ _ :: post).foldl _ asked.2).responder.services))[i]?).map _ = _
  rw [foldl_append, foldl_cons, getElem?_map, hfinal, ← hstatus]
  rfl

theorem sameHost_comm {a b : Contender} (ha : (buildDomainForHost a.responder.hostname).isSome)
    (hb : (buildDomainForHost b.responder.hostname).isSome) : SameHost a b ↔ SameHost b a := by
  obtain ⟨host, hhost⟩ := isSome_iff_exists.mp ha
  obtain ⟨host', hhost'⟩ := isSome_iff_exists.mp hb
  unfold SameHost isDomain
  rw [hhost, hhost']
  show domainEq host host' = true ↔ domainEq host' host = true
  rw [domainEq_comm]

theorem ipValue_inj {a b : IPAddress} : ipValue a = ipValue b ↔ a.bytes = b.bytes := by
  have hlt := fun (ip : IPAddress) i => (ip i).toNat_lt
  have ha := hlt a
  have hb := hlt b
  constructor
  · intro h
    simp only [ipValue, IPAddress.bytes, foldr] at h
    have h0 := ha 0; have h1 := ha 1; have h2 := ha 2; have h3 := ha 3
    have g0 := hb 0; have g1 := hb 1; have g2 := hb 2; have g3 := hb 3
    have heq : ∀ i, (a i).toNat = (b i).toNat := by
      intro i
      match i with
      | 0 => omega
      | 1 => omega
      | 2 => omega
      | 3 => omega
    unfold IPAddress.bytes
    rw [UInt8.toNat_inj.mp (heq 0), UInt8.toNat_inj.mp (heq 1), UInt8.toNat_inj.mp (heq 2),
      UInt8.toNat_inj.mp (heq 3)]
  · intro h
    unfold ipValue
    rw [h]

/-- **The side that hears the probe for a host** goes on just if the other address is not the
higher one. -/
theorem hears_host {c other : Contender} {txts : List UInt8 → List ServiceTxt}
    (hc : c.Probes .host) (ho : other.Probes .host)
    (hsame : ∀ name name', c.responder.domain .host = some name →
      other.responder.domain .host = some name' → domainEq name' name = true) :
    ∃ c', c.hears txts other .host = some c' ∧ c'.status .host =
      some (if ipValue other.context.input > ipValue c.context.input then .waitingForData
        else .inProgress) := by
  obtain ⟨name, hname⟩ := isSome_iff_exists.mp hc.domain
  obtain ⟨name', hname'⟩ := isSome_iff_exists.mp ho.domain
  have heq := hsame name name' hname hname'
  change buildDomainForHost c.responder.hostname = some name at hname
  have hprobing : c.responder.probing = .inProgress := some.inj hc.probing
  have hprobe : other.responder.probe .host = some (other.responder.names,
      ⟨0, contentFlagA, false, false, false, false, false,
        [⟨name', ⟨rrTypeANY, 0x8000 ||| rrClassIN⟩⟩]⟩) := by
    unfold Responder.probe
    rw [hname']
    rfl
  refine ⟨_, Contender.hears_eq hprobe rfl, ?_⟩
  rw [answers_host ho.clean hname']
  have hours : isDomain name' (buildDomainForHost c.responder.hostname) = true := by
    rw [hname]
    exact heq
  -- the question opens the race
  have hasked : ∀ header, ((Parse.start c.responder).question c.context header
        (⟨name', ⟨rrTypeANY, rrClassIN⟩⟩, true)).2.responder.tiebreakNeeded = true ∧
      ((Parse.start c.responder).question c.context header
        (⟨name', ⟨rrTypeANY, rrClassIN⟩⟩, true)).2.responder.hostname = c.responder.hostname ∧
      ((Parse.start c.responder).question c.context header
        (⟨name', ⟨rrTypeANY, rrClassIN⟩⟩, true)).2.responder.probing = .inProgress := by
    intro header
    rw [Parse.question_responder]
    have hanswered : RRAttributes.answered ⟨rrTypeANY, rrClassIN⟩ = true := by decide
    have hmatch : fullNameMatchForHost c.responder.hostname
        ⟨name', ⟨rrTypeANY, rrClassIN⟩⟩ = true := by
      unfold fullNameMatchForHost
      rw [hours, hanswered]
      rfl
    have hmask : replyMaskForHost c.context.netifs c.responder.hostname
        ⟨name', ⟨rrTypeANY, rrClassIN⟩⟩ ≠ 0 := by
      intro hzero
      unfold replyMaskForHost at hzero
      have hasksA : RRAttributes.asks ⟨rrTypeANY, rrClassIN⟩ rrTypeA = true := by decide
      rw [if_pos hanswered, hours, hasksA] at hzero
      exact absurd (BitVec.or_eq_zero_iff.mp hzero).2 (by decide)
    refine ⟨?_, rfl, hprobing⟩
    show (c.responder.tiebreakNeeded || (decide (c.responder.probing = .inProgress) &&
      decide (replyMaskForHost c.context.netifs c.responder.hostname _ ≠ 0) &&
        fullNameMatchForHost c.responder.hostname _)) = true
    rw [hprobing, hmatch, decide_eq_true hmask]
    exact Bool.or_true _
  unfold Contender.heard Parse.hear
  rw [foldl_cons, foldl_nil, foldl_cons, foldl_nil]
  generalize MsgHeader.mk _ _ _ _ _ _ _ = header
  specialize hasked header
  generalize (Parse.start c.responder).question c.context header _ = asked at hasked ⊢
  obtain ⟨hrace, hhostname, hstatus⟩ := hasked
  -- the record A settles it
  have hanswer : (asked.2.answer c.context ⟨⟨name', ⟨rrTypeA, rrClassIN⟩⟩, hostTTL,
      .a other.context.input⟩).responder.probing =
        if ipValue other.context.input > ipValue c.context.input then .waitingForData
          else .inProgress := by
    unfold Parse.answer
    rw [if_pos (show rrTypeA ≠ rrTypeANY ∧ rrClassIN ≠ rrClassANY by decide)]
    show (asked.2.responder.hostTiebreak c.context _).probing = _
    unfold Responder.hostTiebreak
    rw [if_pos ⟨hrace, by rw [hhostname]; exact hours⟩]
    dsimp only
    split
    · next hbytes =>
        rw [if_neg (Nat.not_lt.mpr (Nat.le_of_eq (ipValue_inj.mpr hbytes)))]
        exact hstatus
    · split
      · rfl
      · exact hstatus
  exact congrArg some hanswer

/-- **A race has just one loser** if it is for a host name, or if both sides name the same host
and nobody has to lose. -/
theorem tiebreak_iff {txts : List UInt8 → List ServiceTxt} {race : Race} {a b : Contender}
    (h : Racing race a b) : OneLoser txts race a b ↔ race = .host ∨ SameHost a b := by
  have hsame' : ∀ name name', b.responder.domain race.right = some name →
      a.responder.domain race.left = some name' → domainEq name' name = true :=
    fun name name' hb ha => h.same name' name ha hb
  have hsame : ∀ name name', a.responder.domain race.left = some name →
      b.responder.domain race.right = some name' → domainEq name' name = true := by
    intro name name' ha hb
    rw [domainEq_comm]
    exact h.same name name' ha hb
  cases race with
  | host =>
    obtain ⟨a', ha', hstatusA⟩ := @hears_host a b txts h.left h.right hsame
    obtain ⟨b', hb', hstatusB⟩ := @hears_host b a txts h.right h.left hsame'
    refine iff_of_true ⟨a', b', ha', hb', ?_⟩ (.inl rfl)
    have hdata : SameData a b .host ↔ ipValue a.context.input = ipValue b.context.input :=
      ipValue_inj.symm
    rcases Nat.lt_trichotomy (ipValue a.context.input) (ipValue b.context.input) with
      hlt | heq | hgt
    · rw [if_pos hlt] at hstatusA
      rw [if_neg (by omega)] at hstatusB
      exact .inr ⟨fun hd => absurd (hdata.mp hd) (by omega), .inl ⟨hstatusA, hstatusB⟩⟩
    · rw [if_neg (by omega)] at hstatusA hstatusB
      exact .inl ⟨hdata.mpr heq, hstatusA, hstatusB⟩
    · rw [if_neg (by omega)] at hstatusA
      rw [if_pos hgt] at hstatusB
      exact .inr ⟨fun hd => absurd (hdata.mp hd) (by omega), .inr ⟨hstatusA, hstatusB⟩⟩
  | service i j =>
    obtain ⟨a', ha', hstatusA⟩ := @hears_service a b txts i j h.left h.right hsame
    obtain ⟨b', hb', hstatusB⟩ := @hears_service b a txts j i h.right h.left hsame'
    have hcomm : SameHost b a ↔ SameHost a b := sameHost_comm h.right.host h.left.host
    by_cases hhost : SameHost a b
    · rw [if_pos (hcomm.mpr hhost)] at hstatusA
      rw [if_pos hhost] at hstatusB
      exact iff_of_true ⟨a', b', ha', hb', .inl ⟨hhost, hstatusA, hstatusB⟩⟩ (.inr hhost)
    · rw [if_neg (mt hcomm.mp hhost)] at hstatusA
      rw [if_neg hhost] at hstatusB
      refine iff_of_false ?_ (not_or.mpr ⟨by simp, hhost⟩)
      rintro ⟨a'', b'', ha'', hb'', hcases⟩
      obtain rfl := Option.some.inj (ha'.symm.trans ha'')
      obtain rfl := Option.some.inj (hb'.symm.trans hb'')
      rcases hcases with ⟨hdata, -⟩ | ⟨-, ⟨-, hgoes⟩ | ⟨hgoes, -⟩⟩
      · exact hhost hdata
      · exact absurd (hstatusB.symm.trans hgoes) (by simp)
      · exact absurd (hstatusA.symm.trans hgoes) (by simp)

def contender (hostname : List UInt8) (address : UInt8) : Contender :=
  ⟨⟨some hostname, .inProgress, false, true,
      [⟨⟨some [97], some [104, 116, 116, 112], some [116, 99, 112], 80, [], [], 0⟩, .inProgress,
        false, true⟩], []⟩,
    ⟨[], mqueryPort, true, fun _ => 9, fun _ => address, [], []⟩⟩

theorem contender_probes (hostname : List UInt8) (address : UInt8)
    (h : (buildDomainForHost (some hostname)).isSome) (race : Race)
    (hrace : race = .host ∨ race = .service 0 0) :
    (contender hostname address).Probes race.left ∧
      (contender hostname address).Probes race.right := by
  have hclean : (contender hostname address).responder.Clean :=
    ⟨rfl, forall_mem_singleton.mpr rfl, forall_mem_singleton.mpr rfl, rfl⟩
  rcases hrace with rfl | rfl
  · exact ⟨⟨hclean, rfl, h, h, rfl⟩, ⟨hclean, rfl, h, h, rfl⟩⟩
  · have hbuilt : (buildDomainForService ⟨some [97], some [104, 116, 116, 112],
        some [116, 99, 112], 80, [], [], 0⟩ true).isSome := by decide
    exact ⟨⟨hclean, rfl, h, hbuilt, rfl⟩, ⟨hclean, rfl, h, hbuilt, rfl⟩⟩

theorem contender_same (hostname hostname' : List UInt8) (address address' : UInt8) :
    ∀ name name', (contender hostname address).responder.domain (.service 0) = some name →
      (contender hostname' address').responder.domain (.service 0) = some name' →
        domainEq name name' = true := by
  intro name name' h h'
  obtain rfl := some.inj h
  obtain rfl := some.inj h'
  show domainEq [1, 97, 5, 95, 104, 116, 116, 112, 4, 95, 116, 99, 112, 5, 108, 111, 99, 97, 108, 0]
    [1, 97, 5, 95, 104, 116, 116, 112, 4, 95, 116, 99, 112, 5, 108, 111, 99, 97, 108, 0] = true
  simp [domainEq, sameLabels, sameText]

theorem tiebreak_iff_sample :
    OneLoser (fun _ => []) .host (contender [101] 1) (contender [101] 2) := by
  obtain ⟨hleft, -⟩ := contender_probes [101] 1 (by decide) .host (.inl rfl)
  obtain ⟨-, hright⟩ := contender_probes [101] 2 (by decide) .host (.inl rfl)
  refine (tiebreak_iff ⟨hleft, hright, fun name name' h h' => ?_⟩).mpr (.inl rfl)
  obtain rfl := Option.some.inj h
  obtain rfl := Option.some.inj h'
  show domainEq [1, 101, 5, 108, 111, 99, 97, 108, 0] [1, 101, 5, 108, 111, 99, 97, 108, 0] = true
  simp [domainEq, sameLabels, sameText]

/-- Two hosts that offer the same instance both give it up. -/
theorem not_oneLoser : ¬∀ txts race a b, Racing race a b → OneLoser txts race a b := by
  intro h
  obtain ⟨hleft, -⟩ := contender_probes [101] 1 (by decide) (.service 0 0) (.inr rfl)
  obtain ⟨-, hright⟩ := contender_probes [102] 2 (by decide) (.service 0 0) (.inr rfl)
  have hsame := contender_same [101] [102] 1 2
  obtain ⟨a', b', ha', hb', hcases⟩ := h (fun _ => []) _ _ _ ⟨hleft, hright, hsame⟩
  have hdiffer : ¬SameHost (contender [101] 1) (contender [102] 2) := by
    show ¬domainEq [1, 101, 5, 108, 111, 99, 97, 108, 0] [1, 102, 5, 108, 111, 99, 97, 108, 0] =
      true
    simp [domainEq, sameLabels, sameText, tolower]
  have hdiffer' : ¬SameHost (contender [102] 2) (contender [101] 1) :=
    mt (sameHost_comm hright.host hleft.host).mp hdiffer
  have hlostA := @hears_service _ _ (fun _ => []) 0 0 hleft hright fun name name' hn hn' => by
    rw [domainEq_comm]
    exact hsame name name' hn hn'
  have hlostB := @hears_service _ _ (fun _ => []) 0 0 hright hleft
    fun name name' hn hn' => hsame name' name hn' hn
  obtain ⟨a'', ha'', hstatusA⟩ := hlostA
  obtain ⟨b'', hb'', hstatusB⟩ := hlostB
  obtain rfl := Option.some.inj (ha'.symm.trans ha'')
  obtain rfl := Option.some.inj (hb'.symm.trans hb'')
  rw [if_neg hdiffer'] at hstatusA
  rw [if_neg hdiffer] at hstatusB
  rcases hcases with ⟨hdata, -⟩ | ⟨-, ⟨-, hgoes⟩ | ⟨hgoes, -⟩⟩
  · exact hdiffer hdata
  · exact absurd (hstatusB.symm.trans hgoes) (by simp)
  · exact absurd (hstatusA.symm.trans hgoes) (by simp)

end Mdns
