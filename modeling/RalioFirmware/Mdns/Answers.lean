import RalioFirmware.Basis.Rounds
import RalioFirmware.Mdns.Tiebreak

/-!
# Answers to our own queries

What a response says of the services that the application asked for is kept with the queries:
for each instance that a record PTR names an answer, with the host and port that a record SRV
gives it.  As a packet may hold its records in any order, `_processAnswers` passes over them
again and again, until one pass finds nothing new.

That a record SRV says something else than what is kept counts as new each time, and there may
be two of them for one instance.  `processAnswers_settles_iff` says that this is all that keeps
the loop from ending.  The application's callbacks are taken not to touch the queries.
-/

namespace Mdns

open List
open Option (isSome_iff_exists some.inj)

/-! ## What is kept of the answers -/

/-- `stcTTL`: the time to live, the level of it that the next timeout is for, and that timeout
in milliseconds. -/
structure TTL where
  ttl : Nat
  level : Nat
  timeout : Option Nat

namespace TTL

def levelUnset : Nat := 0
def levelBase : Nat := 80
def levelFinal : Nat := 100

def unset : TTL := ⟨0, levelUnset, none⟩

def set (ttl : Nat) : TTL :=
  if ttl ≠ 0 then ⟨ttl, levelBase, some (ttl * 800)⟩ else ⟨0, levelUnset, none⟩

def prepareDeletion (t : TTL) : TTL := { t with level := levelFinal, timeout := some (1 * 1000) }

end TTL

def serviceQueryAnswerServiceDomain : BitVec 32 := 1
def serviceQueryAnswerHostDomainAndPort : BitVec 32 := 2
def serviceQueryAnswerTxts : BitVec 32 := 4
def serviceQueryAnswerIP4Address : BitVec 32 := 8

/-- `stcAnswer`: what is known of one instance of a service. -/
structure Answer where
  serviceDomain : List UInt8
  ttlServiceDomain : TTL
  hostDomain : List UInt8
  port : Nat
  ttlHostDomainAndPort : TTL
  txts : List ServiceTxt
  ttlTxts : TTL
  ip4Addresses : List (IPAddress × TTL)
  contentFlags : BitVec 32

/-- `stcMDNSServiceQuery`. -/
structure ServiceQuery where
  serviceTypeDomain : List UInt8
  awaitingAnswers : Bool
  answers : List Answer

/-- A responder with the queries that the application installed. -/
structure Querying where
  queries : List ServiceQuery
  responder : Responder

/-! ## The handlers -/

/-- Change the first element of a list that has a property. -/
def changeFirst {α : Type} (p : α → Bool) (f : α → α) : List α → List α
  | [] => []
  | a :: rest => if p a then f a :: rest else a :: changeFirst p f rest

namespace ServiceQuery

/-- `findAnswerForServiceDomain`. -/
def findAnswer (q : ServiceQuery) (domain : List UInt8) : Option Answer :=
  q.answers.find? fun a => domainEq a.serviceDomain domain

/-- Change the answer that `findAnswerForServiceDomain` finds. -/
def changeAnswer (q : ServiceQuery) (domain : List UInt8) (f : Answer → Answer) : ServiceQuery :=
  { q with answers := changeFirst (fun a => domainEq a.serviceDomain domain) f q.answers }

/-- The query is for services of this type, and waits for answers. -/
def accepts (q : ServiceQuery) (domain : List UInt8) : Bool :=
  domainEq domain q.serviceTypeDomain && q.awaitingAnswers

/-- What `_processPTRAnswer` does for one query, and whether that is a new key answer. -/
def processPTRAnswer (header : RRHeader) (ttl : Nat) (ptrDomain : List UInt8) (q : ServiceQuery) :
    ServiceQuery × Bool :=
  if q.accepts header.domain then
    match q.findAnswer ptrDomain with
    | some _ =>
      (q.changeAnswer ptrDomain fun a => { a with
        ttlServiceDomain := if ttl ≠ 0 then .set ttl else a.ttlServiceDomain.prepareDeletion },
        false)
    | none =>
      if ttl ≠ 0 then
        ({ q with answers :=
          ⟨ptrDomain, .set ttl, [], 0, .unset, [], .unset, [],
            serviceQueryAnswerServiceDomain⟩ :: q.answers }, true)
      else (q, false)
  else (q, false)

/-- What `_processSRVAnswer` does for one query, and whether that is a new key answer. -/
def processSRVAnswer (header : RRHeader) (ttl port : Nat) (srvDomain : List UInt8)
    (q : ServiceQuery) : ServiceQuery × Bool :=
  match q.findAnswer header.domain with
  | some answer =>
    if ttl ≠ 0 then
      if !domainEq answer.hostDomain srvDomain || answer.port ≠ port then
        (q.changeAnswer header.domain fun a => { a with
          ttlHostDomainAndPort := .set ttl
          hostDomain := srvDomain
          port := port
          contentFlags := a.contentFlags ||| serviceQueryAnswerHostDomainAndPort }, true)
      else
        (q.changeAnswer header.domain fun a => { a with ttlHostDomainAndPort := .set ttl }, false)
    else
      (q.changeAnswer header.domain fun a => { a with
        ttlHostDomainAndPort := a.ttlHostDomainAndPort.prepareDeletion }, false)
  | none => (q, false)

/-- What `_processTXTAnswer` does for one query.  To assign items turns their order round. -/
def processTXTAnswer (header : RRHeader) (ttl : Nat) (txts : List ServiceTxt)
    (q : ServiceQuery) : ServiceQuery :=
  q.changeAnswer header.domain fun a =>
    if ttl ≠ 0 then
      if txtsEq a.txts txts then { a with ttlTxts := .set ttl }
      else { a with
        ttlTxts := .set ttl
        txts := txts.reverse
        contentFlags := a.contentFlags ||| serviceQueryAnswerTxts }
    else { a with ttlTxts := a.ttlTxts.prepareDeletion }

/-- What `_processAAnswer` does for one query. -/
def processAAnswer (header : RRHeader) (ttl : Nat) (ip : IPAddress) (q : ServiceQuery) :
    ServiceQuery :=
  { q with answers := changeFirst (fun a => domainEq a.hostDomain header.domain) (fun a =>
      if a.ip4Addresses.any fun known => known.1.bytes = ip.bytes then
        { a with
          ip4Addresses := changeFirst (fun known => known.1.bytes = ip.bytes)
            (fun known => (known.1, if ttl ≠ 0 then .set ttl else known.2.prepareDeletion))
            a.ip4Addresses }
      else if ttl ≠ 0 then
        { a with
          ip4Addresses := (ip, .set ttl) :: a.ip4Addresses
          contentFlags := a.contentFlags ||| serviceQueryAnswerIP4Address }
      else a) q.answers }

/-- What a record does to one query, and whether that is a new key answer. -/
def process (known : RRAnswer) (q : ServiceQuery) : ServiceQuery × Bool :=
  match known.data with
  | .ptr domain => q.processPTRAnswer known.header known.ttl domain
  | .srv _ _ port domain => q.processSRVAnswer known.header known.ttl port domain
  | .txt txts => (q.processTXTAnswer known.header known.ttl txts, false)
  | .a ip => (q.processAAnswer known.header known.ttl ip, false)
  | .generic => (q, false)

end ServiceQuery

/-- A record with an address for the host's name cancels its probing. -/
def Responder.hostConflict (known : RRAnswer) (r : Responder) : Responder :=
  match known.data with
  | .a _ =>
    if r.probing = .inProgress ∧ isDomain known.header.domain (buildDomainForHost r.hostname) then
      r.cancelProbing
    else r
  | _ => r

/-- A record TXT or SRV for the name of an instance cancels the probing of it. -/
def ServiceState.conflict (known : RRAnswer) (s : ServiceState) : ServiceState :=
  match known.data with
  | .txt _ | .srv _ _ _ _ =>
    if s.probing = .inProgress ∧
        isDomain known.header.domain (buildDomainForService s.service true) then
      s.cancelProbing
    else s
  | _ => s

/-- One round of the inner loop of `_processAnswers`, and whether it found a new key answer.  No
handler fails. -/
def Querying.process (known : RRAnswer) (st : Querying) : Querying × Bool :=
  (⟨st.queries.map fun q => (q.process known).1,
      (st.responder.hostConflict known).each fun s => s.conflict known⟩,
    st.queries.any fun q => (q.process known).2)

/-- `_processAnswers`, as long as the fuel lasts. -/
def processAnswers (answers : List RRAnswer) : Nat → Querying → Option Querying :=
  Rounds.settle Querying.process answers

/-! ## Names that were read -/

/-- A name in full: labels, and the empty one behind them. -/
def IsName (name : List UInt8) : Prop :=
  ∃ labels, Labels labels ∧ name = encodeLabels labels ++ [0]

theorem sameText_self (label more : List UInt8) :
    sameText label.length (label ++ more) (label ++ more) = true := by
  induction label with
  | nil =>
    cases more <;> rfl
  | cons a label ih =>
    rw [length_cons, cons_append, sameText, ih]
    simp

theorem IsName.refl {name : List UInt8} (h : IsName name) : domainEq name name = true := by
  obtain ⟨labels, hlabels, rfl⟩ := h
  have hsame : sameLabels (encodeLabels labels ++ [0]) (encodeLabels labels ++ [0]) = true := by
    induction labels with
    | nil => simp [encodeLabels, sameLabels, sameText]
    | cons label labels ih =>
      obtain ⟨⟨-, h63⟩, hrest⟩ := forall_mem_cons.mp hlabels
      have hnat : (UInt8.ofNat label.length).toNat = label.length :=
        UInt8.toNat_ofNat_of_lt' (show label.length < 256 by omega)
      rw [encodeLabels_cons, cons_append, append_assoc, sameLabels_cons, hnat,
        drop_left]
      exact ⟨rfl, sameText_self label _, .inr (ih hrest)⟩
  unfold domainEq
  rw [hsame, decide_eq_true rfl]
  rfl

variable {a b c : List UInt8}

theorem sameText_trans {n : Nat} (hab : sameText n a b = true)
    (hbc : sameText n b c = true) : sameText n a c = true := by
  induction n generalizing a b c with
  | zero =>
    cases a <;> cases c <;> rfl
  | succ n ih =>
    cases a with
    | nil => cases hab
    | cons x a =>
      cases b with
      | nil => cases hab
      | cons y b =>
        cases c with
        | nil => cases hbc
        | cons z c =>
          simp only [sameText, Bool.and_eq_true, Bool.or_eq_true, decide_eq_true_eq] at *
          refine ⟨hab.1.trans hbc.1, ?_⟩
          rcases hab.2 with hzero | hab'
          · exact .inl hzero
          · rcases hbc.2 with hzero | hbc'
            · left
              rw [← tolower_eq_zero, hab.1, tolower_eq_zero]
              exact hzero
            · exact .inr (ih hab' hbc')

theorem sameLabels_nil (b : List UInt8) : sameLabels [] b = false := by
  rw [sameLabels]
  simp

theorem sameLabels_trans (hab : sameLabels a b = true)
    (hbc : sameLabels b c = true) : sameLabels a c = true := by
  induction hn : a.length using Nat.strong_induction_on generalizing a b c with
  | _ n ih =>
    subst hn
    cases a with
    | nil =>
      rw [sameLabels_nil] at hab
      cases hab
    | cons x a =>
      cases b with
      | nil =>
        rw [sameLabels_comm, sameLabels_nil] at hab
        cases hab
      | cons y b =>
        cases c with
        | nil =>
          rw [sameLabels_comm, sameLabels_nil] at hbc
          cases hbc
        | cons z c =>
          obtain ⟨rfl, htext, hrest⟩ := sameLabels_cons.mp hab
          obtain ⟨rfl, htext', hrest'⟩ := sameLabels_cons.mp hbc
          refine sameLabels_cons.mpr ⟨rfl, sameText_trans htext htext', ?_⟩
          rcases hrest with hzero | hrest
          · exact .inl hzero
          · rcases hrest' with hzero | hrest'
            · exact .inl hzero
            · refine .inr (ih _ ?_ hrest hrest' rfl)
              rw [length_drop, length_cons]
              omega

theorem domainEq_trans (hab : domainEq a b = true)
    (hbc : domainEq b c = true) : domainEq a c = true := by
  simp only [domainEq, Bool.and_eq_true, decide_eq_true_eq] at *
  exact ⟨hab.1.trans hbc.1, sameLabels_trans hab.2 hbc.2⟩

def RRData.Named : RRData → Prop
  | .ptr domain | .srv _ _ _ domain => IsName domain
  | _ => True

/-! ## What the queries know -/

abbrev Location := List UInt8 × Nat

def sameLocation (a b : Location) : Bool := domainEq a.1 b.1 && a.2 = b.2

def Answer.location (a : Answer) : Location := (a.hostDomain, a.port)

def ServiceQuery.location (q : ServiceQuery) (domain : List UInt8) : Option Location :=
  (q.findAnswer domain).map Answer.location

/-- The instance that a record PTR names to a query, if it is no goodbye. -/
def ServiceQuery.named (q : ServiceQuery) (known : RRAnswer) : Option (List UInt8) :=
  match known.data with
  | .ptr domain => if known.ttl ≠ 0 ∧ q.accepts known.header.domain then some domain else none
  | _ => none

/-- The location that a record SRV gives, if it is no goodbye. -/
def RRAnswer.location (known : RRAnswer) : Option Location :=
  match known.data with
  | .srv _ _ port domain => if known.ttl ≠ 0 then some (domain, port) else none
  | _ => none

theorem sameLocation_self {a : Location} (h : IsName a.1) : sameLocation a a = true := by
  unfold sameLocation
  rw [h.refl, decide_eq_true rfl]
  rfl

theorem sameLocation_of_held {held a b : Location} (ha : sameLocation held a = true)
    (hb : sameLocation held b = true) : sameLocation a b = true := by
  simp only [sameLocation, Bool.and_eq_true, decide_eq_true_eq] at *
  exact ⟨domainEq_trans (domainEq_comm a.1 held.1 ▸ ha.1) hb.1, ha.2.symm.trans hb.2⟩

variable {loc : Location}

theorem RRData.Named.of_location {known : RRAnswer} (hnames : known.data.Named)
    (h : known.location = some loc) : IsName loc.1 := by
  rcases known with ⟨header, ttl, data⟩
  cases data with
  | srv priority weight port domain =>
    simp only [RRAnswer.location] at h
    split at h
    · obtain rfl := some.inj h
      exact hnames
    · cases h
  | a ip => cases h
  | ptr domain => cases h
  | txt txts => cases h
  | generic => cases h

section ChangeFirst

variable {α : Type} {p r : α → Bool} {f : α → α}

theorem find_changeFirst (hp : ∀ a, p (f a) = p a) (l : List α) :
    (changeFirst p f l).find? p = (l.find? p).map f := by
  induction l with
  | nil => rfl
  | cons a rest ih =>
    rw [changeFirst]
    by_cases h : p a = true
    · grind
    · rw [if_neg h, find?_cons_of_neg h, find?_cons_of_neg h, ih]

theorem find_changeFirst_other (hr : ∀ a, p a = true → r a = false ∧ r (f a) = false)
    (l : List α) : (changeFirst p f l).find? r = l.find? r := by
  induction l with
  | nil => rfl
  | cons a rest ih =>
    rw [changeFirst]
    by_cases h : p a = true
    · obtain ⟨hold, hnew⟩ := hr a h
      rw [if_pos h, find?_cons_of_neg (Bool.eq_false_iff.mp hold),
        find?_cons_of_neg (Bool.eq_false_iff.mp hnew)]
    · rw [if_neg h]
      by_cases hra : r a = true
      · rw [find?_cons_of_pos hra, find?_cons_of_pos hra]
      · rw [find?_cons_of_neg hra, find?_cons_of_neg hra, ih]

theorem map_changeFirst {β : Type} {view : α → β} (hview : ∀ a, view (f a) = view a)
    (l : List α) : (changeFirst p f l).map view = l.map view := by
  induction l with
  | nil => rfl
  | cons a rest ih =>
    rw [changeFirst]
    split
    · rw [map_cons, map_cons, hview]
    · rw [map_cons, map_cons, ih]

end ChangeFirst

namespace ServiceQuery

variable {d : List UInt8}

theorem location_congr {q : ServiceQuery} {e : List UInt8} (h : domainEq d e = true) :
    q.location d = q.location e := by
  have hsame : (fun a : Answer => domainEq a.serviceDomain d) =
      fun a : Answer => domainEq a.serviceDomain e := by
    funext a
    rw [Bool.eq_iff_iff]
    exact ⟨fun ha => domainEq_trans ha h, fun ha => domainEq_trans ha (domainEq_comm d e ▸ h)⟩
  unfold location findAnswer
  rw [hsame]

theorem domainEq_of_location {q : ServiceQuery} (h : (q.location d).isSome) :
    domainEq d d = true := by
  rw [location, Option.isSome_map, findAnswer, find?_isSome] at h
  obtain ⟨a, -, ha⟩ := h
  exact domainEq_trans (domainEq_comm a.serviceDomain d ▸ ha) ha

theorem location_of_keys {q : ServiceQuery} {answers : List Answer}
    (h : answers.map (fun a => (a.serviceDomain, a.location)) =
      q.answers.map fun a => (a.serviceDomain, a.location)) :
    ({ q with answers := answers } : ServiceQuery).location = q.location := by
  have hlookup : ∀ (l : List Answer) (d : List UInt8),
      (l.find? fun a => domainEq a.serviceDomain d).map Answer.location =
        ((l.map fun a => (a.serviceDomain, a.location)).find? fun k => domainEq k.1 d).map
          Prod.snd := by
    intro l d
    rw [find?_map, Option.map_map]
    rfl
  funext d
  unfold location findAnswer
  rw [hlookup, h, ← hlookup]

theorem location_changeAnswer {q : ServiceQuery} {domain : List UInt8} {f : Answer → Answer}
    (hname : ∀ a, (f a).serviceDomain = a.serviceDomain)
    (hlocation : ∀ a, (f a).location = a.location) :
    (q.changeAnswer domain f).location = q.location := by
  refine location_of_keys ?_
  exact map_changeFirst (fun a => by rw [hname, hlocation]) q.answers

theorem location_move {q : ServiceQuery} {domain : List UInt8} {a : Answer} {f : Answer → Answer}
    (hfind : q.findAnswer domain = some a)
    (hname : ∀ a, (f a).serviceDomain = a.serviceDomain) (e : List UInt8) :
    (q.changeAnswer domain f).location e =
      if domainEq domain e then some (f a).location else q.location e := by
  by_cases he : domainEq domain e = true
  · rw [if_pos he, ← location_congr he, location, findAnswer, changeAnswer]
    dsimp only
    unfold findAnswer at hfind
    rw [find_changeFirst (fun b => by rw [hname]), hfind]
    rfl
  · rw [if_neg he]
    unfold location findAnswer changeAnswer
    dsimp only
    rw [find_changeFirst_other]
    intro b hb
    have hother : domainEq b.serviceDomain e = false := Bool.eq_false_iff.mpr
      fun hbe => he (domainEq_trans (domainEq_comm _ _ ▸ hb) hbe)
    rw [hname]
    exact ⟨hother, hother⟩

theorem sameLocation_answer (a : Answer) (domain : List UInt8) (port : Nat) :
    sameLocation a.location (domain, port) =
      !(!domainEq a.hostDomain domain || decide (a.port ≠ port)) := by
  unfold sameLocation Answer.location
  by_cases hport : a.port = port <;> simp [hport]

/-- The record says nothing new: what it names is known, and where it is. -/
structure Quiet (known : RRAnswer) (q : ServiceQuery) : Prop where
  named : ∀ d, q.named known = some d → (q.location d).isSome
  located : ∀ loc held, known.location = some loc →
    q.location known.header.domain = some held → sameLocation held loc = true

theorem Quiet.of_other {known : RRAnswer} {q : ServiceQuery} (hnamed : q.named known = none)
    (hlocation : known.location = none) : q.Quiet known where
  named d hd := by
    rw [hnamed] at hd
    cases hd
  located loc held hloc := by
    rw [hlocation] at hloc
    cases hloc

/-- **What a record does to what a query knows.**  It changes nothing, or it names a new
instance, or it moves one. -/
theorem process_cases (known : RRAnswer) (q : ServiceQuery) :
    (q.process known).1.accepts = q.accepts ∧
      (((q.process known).2 = false ∧ q.Quiet known ∧ (q.process known).1.location = q.location) ∨
       ((q.process known).2 = true ∧ ∃ d, q.named known = some d ∧ q.location d = none ∧
          ∀ e, (q.process known).1.location e =
            if domainEq d e then some ([], 0) else q.location e) ∨
       ((q.process known).2 = true ∧ ∃ loc held, known.location = some loc ∧
          q.location known.header.domain = some held ∧ sameLocation held loc = false ∧
          ∀ e, (q.process known).1.location e =
            if domainEq known.header.domain e then some loc else q.location e)) := by
  rcases known with ⟨header, ttl, data⟩
  cases data with
  | a ip =>
    refine ⟨rfl, .inl ⟨rfl, .of_other rfl rfl, ?_⟩⟩
    refine location_of_keys (map_changeFirst (fun a => ?_) q.answers)
    split
    · rfl
    · split <;> rfl
  | generic => exact ⟨rfl, .inl ⟨rfl, .of_other rfl rfl, rfl⟩⟩
  | txt txts =>
    refine ⟨rfl, .inl ⟨rfl, .of_other rfl rfl, ?_⟩⟩
    refine location_changeAnswer (fun a => ?_) (fun a => ?_)
    · split
      · split <;> rfl
      · rfl
    · split
      · split <;> rfl
      · rfl
  | ptr domain =>
    simp only [process, processPTRAnswer, named, RRAnswer.location]
    by_cases haccepts : q.accepts header.domain = true
    · rw [if_pos haccepts]
      cases hfind : q.findAnswer domain with
      | some a =>
        dsimp only
        have hsome : (q.location domain).isSome := by
          rw [location, hfind]
          rfl
        refine ⟨rfl, .inl ⟨rfl, ⟨fun d hd => ?_, fun loc held hloc => (by cases hloc)⟩, ?_⟩⟩
        · simp only [named] at hd
          split at hd
          · obtain rfl := some.inj hd
            exact hsome
          · cases hd
        · exact location_changeAnswer (fun _ => rfl) (fun _ => rfl)
      | none =>
        dsimp only
        have hnone : q.location domain = none := by
          rw [location, hfind]
          rfl
        by_cases httl : ttl ≠ 0
        · rw [if_pos httl]
          refine ⟨rfl, .inr (.inl ⟨rfl, domain, if_pos ⟨httl, haccepts⟩, hnone, fun e => ?_⟩)⟩
          simp only [location, findAnswer, find?_cons]
          cases domainEq domain e <;> rfl
        · rw [if_neg httl]
          refine ⟨rfl, .inl ⟨rfl, .of_other (if_neg fun h => httl h.1) rfl, rfl⟩⟩
    · rw [if_neg haccepts]
      exact ⟨rfl, .inl ⟨rfl, .of_other (if_neg fun h => haccepts h.2) rfl, rfl⟩⟩
  | srv priority weight port domain =>
    simp only [process, processSRVAnswer, named, RRAnswer.location]
    cases hfind : q.findAnswer header.domain with
    | none =>
      refine ⟨rfl, .inl ⟨rfl, ⟨fun d hd => (by cases hd), fun loc held _ hheld => ?_⟩, rfl⟩⟩
      simp only [location, hfind, Option.map_none] at hheld
      cases hheld
    | some a =>
      have hheld : q.location header.domain = some a.location := by
        rw [location, hfind]
        rfl
      have hsame := sameLocation_answer a domain port
      dsimp only
      by_cases httl : ttl ≠ 0
      · rw [if_pos httl, if_pos httl]
        by_cases hnew : (!domainEq a.hostDomain domain || decide (a.port ≠ port)) = true
        · rw [if_pos hnew]
          refine ⟨rfl, .inr (.inr ⟨rfl, (domain, port), a.location, rfl, hheld, ?_, ?_⟩)⟩
          · rw [hsame, hnew]
            rfl
          · exact location_move hfind fun _ => rfl
        · rw [if_neg hnew]
          refine ⟨rfl, .inl ⟨rfl, ⟨fun d hd => (by cases hd), fun loc held hloc hh => ?_⟩, ?_⟩⟩
          · simp only [RRAnswer.location, if_pos httl] at hloc
            obtain rfl := some.inj hloc
            obtain rfl := some.inj (hheld.symm.trans hh)
            rw [hsame, Bool.eq_false_iff.mpr hnew]
            rfl
          · exact location_changeAnswer (fun _ => rfl) (fun _ => rfl)
      · rw [if_neg httl]
        refine ⟨rfl, .inl ⟨rfl, .of_other rfl (if_neg httl), ?_⟩⟩
        exact location_changeAnswer (fun _ => rfl) (fun _ => rfl)

/-! ## One pass over the records -/

/-- The query knows the instance, or a record of the list names it. -/
def Knows (answers : List RRAnswer) (q : ServiceQuery) (domain : List UInt8) : Prop :=
  (q.location domain).isSome ∨
    ∃ known ∈ answers, ∃ d, q.named known = some d ∧ domainEq d domain = true

/-- Two records of the list say different things of one instance that the query comes to know. -/
def Contended (answers : List RRAnswer) (q : ServiceQuery) : Prop :=
  ∃ known ∈ answers, ∃ other ∈ answers, ∃ loc loc',
    known.location = some loc ∧ other.location = some loc' ∧
      domainEq known.header.domain other.header.domain = true ∧ sameLocation loc loc' = false ∧
      q.Knows answers known.header.domain

/-- No record of the list names an instance that the query does not know. -/
def NamesKnown (answers : List RRAnswer) (q : ServiceQuery) : Prop :=
  ∀ known ∈ answers, ∀ d, q.named known = some d → (q.location d).isSome

variable {q' : ServiceQuery}

theorem named_congr {q : ServiceQuery} (h : q'.accepts = q.accepts) (known : RRAnswer) :
    q'.named known = q.named known := by
  unfold named
  rw [h]

theorem named_of_location {q : ServiceQuery} {known : RRAnswer}
    (h : known.location = some loc) : q.named known = none := by
  rcases known with ⟨header, ttl, data⟩
  cases data <;> first | rfl | cases h

section Steps

variable {known : RRAnswer} {q : ServiceQuery}

theorem process_named (other : RRAnswer) : (q.process known).1.named other = q.named other :=
  named_congr (process_cases known q).1 other

theorem process_keeps (h : (q.location d).isSome) :
    ((q.process known).1.location d).isSome := by
  obtain ⟨-, ⟨-, -, heq⟩ | ⟨-, d', -, -, heq⟩ | ⟨-, loc, held, -, -, -, heq⟩⟩ :=
    process_cases known q
  · rw [heq]
    exact h
  · rw [heq]
    split
    · rfl
    · exact h
  · rw [heq]
    split
    · rfl
    · exact h

theorem process_knows {answers : List RRAnswer} (hmem : known ∈ answers) (domain : List UInt8) :
    (q.process known).1.Knows answers domain ↔ q.Knows answers domain := by
  unfold Knows
  simp only [process_named]
  constructor
  · rintro (h | h)
    · obtain ⟨-, ⟨-, -, heq⟩ | ⟨-, d, hnamed, -, heq⟩ | ⟨-, loc, held, -, hheld, -, heq⟩⟩ :=
        process_cases known q
      · rw [heq] at h
        exact .inl h
      · rw [heq] at h
        by_cases hd : domainEq d domain = true
        · exact .inr ⟨known, hmem, d, hnamed, hd⟩
        · grind
      · rw [heq] at h
        by_cases hd : domainEq known.header.domain domain = true
        · rw [location_congr hd] at hheld
          exact .inl (isSome_iff_exists.mpr ⟨held, hheld⟩)
        · grind
    · exact .inr h
  · rintro (h | h)
    · exact .inl (process_keeps h)
    · exact .inr h

theorem process_contended {answers : List RRAnswer} (hmem : known ∈ answers) :
    (q.process known).1.Contended answers ↔ q.Contended answers := by
  unfold Contended
  simp only [process_knows hmem]

theorem process_names (hnames : known.data.Named)
    (h : q.named known = some d) : ((q.process known).1.location d).isSome := by
  have hd : IsName d := by
    rcases known with ⟨header, ttl, data⟩
    cases data with
    | ptr domain =>
      simp only [named] at h
      split at h
      · obtain rfl := some.inj h
        exact hnames
      · cases h
    | a ip => cases h
    | txt txts => cases h
    | srv priority weight port domain => cases h
    | generic => cases h
  obtain ⟨-, ⟨-, hquiet, heq⟩ | ⟨-, d', hnamed, -, heq⟩ | ⟨-, loc, held, hloc, -⟩⟩ :=
    process_cases known q
  · rw [heq]
    exact hquiet.named d h
  · obtain rfl := some.inj (hnamed.symm.trans h)
    rw [heq, if_pos hd.refl]
    rfl
  · rw [named_of_location hloc] at h
    cases h

theorem process_known {answers : List RRAnswer} (hmem : known ∈ answers)
    (hall : q.NamesKnown answers) :
    ((q.process known).2 = false ∧ q.Quiet known ∧ (q.process known).1.location = q.location) ∨
      ∃ loc held, known.location = some loc ∧ q.location known.header.domain = some held ∧
        sameLocation held loc = false ∧ ∀ e, (q.process known).1.location e =
          if domainEq known.header.domain e then some loc else q.location e := by
  obtain ⟨-, hsame | ⟨-, d, hnamed, hnone, -⟩ | ⟨-, hmoved⟩⟩ := process_cases known q
  · exact .inl hsame
  · have hsome := hall known hmem d hnamed
    rw [hnone] at hsome
    cases hsome
  · exact .inr hmoved

end Steps

section Passes

variable {answers : List RRAnswer} {q : ServiceQuery}

/-- **The first pass** makes all instances known that the records name. -/
theorem pass_namesKnown (hnames : ∀ known ∈ answers, known.data.Named) :
    (Rounds.pass process answers q).1.NamesKnown answers := by
  refine @Rounds.pass_establishes ServiceQuery RRAnswer process (fun _ => True)
    (fun known q => ∀ d, q.named known = some d → (q.location d).isSome) answers
    (fun _ _ _ _ => trivial) ?_ ?_ q trivial
  · intro known hmem q _ d hd
    rw [process_named] at hd
    exact process_names (hnames known hmem) hd
  · intro known _ other _ q _ hknown d hd
    rw [process_named] at hd
    exact process_keeps (hknown d hd)

theorem process_namesKnown {known : RRAnswer} (h : q.NamesKnown answers) :
    (q.process known).1.NamesKnown answers := by
  intro other hmem d hd
  rw [process_named] at hd
  exact process_keeps (h other hmem d hd)

theorem pass_contended :
    (Rounds.pass process answers q).1.Contended answers ↔ q.Contended answers :=
  @Rounds.pass_keeps ServiceQuery RRAnswer process
    (fun q' => q'.Contended answers ↔ q.Contended answers) answers
    (fun _ hmem _ h => (process_contended hmem).trans h) q Iff.rfl

theorem Quiet.congr {known : RRAnswer} (h : q.Quiet known)
    (haccepts : q'.accepts = q.accepts) (hlocation : q'.location = q.location) :
    q'.Quiet known where
  named d hd := by
    rw [named_congr haccepts] at hd
    rw [hlocation]
    exact h.named d hd
  located loc held hloc hheld := by
    rw [hlocation] at hheld
    exact h.located loc held hloc hheld

theorem process_quiet {known : RRAnswer} (hmem : known ∈ answers) (hnames : known.data.Named)
    (hknown : q.NamesKnown answers) : (q.process known).1.Quiet known := by
  rcases process_known hmem hknown with ⟨-, hquiet, heq⟩ | ⟨loc, held, hloc, hheld, -, heq⟩
  · exact hquiet.congr (process_cases known q).1 heq
  · refine ⟨process_namesKnown hknown known hmem, fun loc' held' hloc' hheld' => ?_⟩
    have hself : domainEq known.header.domain known.header.domain = true :=
      domainEq_of_location (isSome_iff_exists.mpr ⟨held, hheld⟩)
    rw [heq, if_pos hself] at hheld'
    obtain rfl := some.inj hheld'
    obtain rfl := some.inj (hloc.symm.trans hloc')
    exact sameLocation_self (hnames.of_location hloc)

theorem process_stays_quiet {known other : RRAnswer} (hmem : known ∈ answers)
    (hother : other ∈ answers) (hcontended : ¬q.Contended answers)
    (hknown : q.NamesKnown answers) (h : q.Quiet known) : (q.process other).1.Quiet known := by
  rcases process_known hother hknown with ⟨-, -, heq⟩ | ⟨loc, held, hloc, hheld, -, heq⟩
  · exact h.congr (process_cases other q).1 heq
  · refine ⟨process_namesKnown hknown known hmem, fun loc' held' hloc' hheld' => ?_⟩
    rw [heq] at hheld'
    by_cases hd : domainEq other.header.domain known.header.domain = true
    · rw [if_pos hd] at hheld'
      obtain rfl := some.inj hheld'
      by_contra hne
      exact hcontended ⟨other, hother, known, hmem, loc, loc', hloc, hloc', hd,
        Bool.eq_false_iff.mpr hne, .inl (isSome_iff_exists.mpr ⟨held, hheld⟩)⟩
    · rw [if_neg hd] at hheld'
      exact h.located loc' held' hloc' hheld'

/-- **The second pass** puts all instances where the records say that they are. -/
theorem pass_quiet (hnames : ∀ known ∈ answers, known.data.Named)
    (hcontended : ¬q.Contended answers) (hknown : q.NamesKnown answers) :
    ∀ known ∈ answers, (Rounds.pass process answers q).1.Quiet known := by
  refine @Rounds.pass_establishes ServiceQuery RRAnswer process
    (fun q => ¬q.Contended answers ∧ q.NamesKnown answers) (fun known q => q.Quiet known)
    answers ?_ ?_ ?_ q ⟨hcontended, hknown⟩
  · rintro known hmem q ⟨hcontended, hknown⟩
    exact ⟨(not_congr (process_contended hmem)).mpr hcontended, process_namesKnown hknown⟩
  · rintro known hmem q ⟨-, hknown⟩
    exact process_quiet hmem (hnames known hmem) hknown
  · rintro known hmem other hother q ⟨hcontended, hknown⟩ h
    exact process_stays_quiet hmem hother hcontended hknown h

theorem Quiet.process {known : RRAnswer} (h : q.Quiet known) :
    (q.process known).2 = false ∧ (q.process known).1.location = q.location := by
  obtain ⟨-, ⟨hnews, -, heq⟩ | ⟨-, d, hnamed, hnone, -⟩ | ⟨-, loc, held, hloc, hheld, hne, -⟩⟩ :=
    process_cases known q
  · exact ⟨hnews, heq⟩
  · have hsome := h.named d hnamed
    rw [hnone] at hsome
    cases hsome
  · rw [h.located loc held hloc hheld] at hne
    cases hne

/-- **The third pass** brings no news. -/
theorem pass_silent (h : ∀ known ∈ answers, q.Quiet known) :
    (Rounds.pass process answers q).2 = false := by
  refine @Rounds.pass_silent ServiceQuery RRAnswer process
    (fun q => ∀ known ∈ answers, q.Quiet known) answers ?_ ?_ q h
  · intro other hother q h known hmem
    exact (h known hmem).congr (process_cases other q).1 (h other hother).process.2
  · intro known hmem q h
    exact (h known hmem).process.1

theorem quiet_of_no_news {known : RRAnswer} (h : (q.process known).2 = false) :
    q.Quiet known ∧ ((q.process known).1.location, (q.process known).1.accepts) =
      (q.location, q.accepts) := by
  obtain ⟨haccepts, ⟨-, hquiet, heq⟩ | ⟨hnews, -⟩ | ⟨hnews, -⟩⟩ := process_cases known q
  · exact ⟨hquiet, Prod.ext heq haccepts⟩
  · rw [h] at hnews
    cases hnews
  · rw [h] at hnews
    cases hnews

theorem location_of_news {known : RRAnswer} (hnames : known.data.Named)
    (h : (q.process known).2 = true) : (q.process known).1.location ≠ q.location := by
  intro hsame
  obtain ⟨-, ⟨hnews, -⟩ | ⟨-, d, hnamed, hnone, -⟩ | ⟨-, loc, held, hloc, hheld, hne, heq⟩⟩ :=
    process_cases known q
  · rw [h] at hnews
    cases hnews
  · have hsome := process_names hnames hnamed
    rw [hsame, hnone] at hsome
    cases hsome
  · have hself : domainEq known.header.domain known.header.domain = true :=
      domainEq_of_location (isSome_iff_exists.mpr ⟨held, hheld⟩)
    have hnow := heq known.header.domain
    rw [if_pos hself, hsame, hheld] at hnow
    obtain rfl := some.inj hnow
    rw [sameLocation_self (hnames.of_location hloc)] at hne
    cases hne

/-- **No pass is the last** where two records contend. -/
theorem pass_news (h : q.Contended answers) : (Rounds.pass process answers q).2 = true := by
  rw [← Bool.not_eq_false]
  intro hquiet
  have hall : ∀ known ∈ answers, q.Quiet known := by
    intro known hmem
    obtain ⟨q', hview, hnews⟩ := @Rounds.pass_quiet ServiceQuery RRAnswer _ process
      (fun q => (q.location, q.accepts)) (fun known q h => (quiet_of_no_news h).2) answers q
      hquiet known hmem
    obtain ⟨hlocation, haccepts⟩ := Prod.mk.inj hview
    exact (quiet_of_no_news hnews).1.congr haccepts.symm hlocation.symm
  obtain ⟨known, hmem, other, hother, loc, loc', hloc, hloc', hd, hne, hknows⟩ := h
  have hsome : (q.location known.header.domain).isSome := by
    rcases hknows with hsome | ⟨ptr, hptr, d, hnamed, hdomain⟩
    · exact hsome
    · rw [← location_congr hdomain]
      exact (hall ptr hptr).named d hnamed
  obtain ⟨held, hheld⟩ := isSome_iff_exists.mp hsome
  have hsame := sameLocation_of_held ((hall known hmem).located loc held hloc hheld)
    ((hall other hother).located loc' held hloc' (location_congr hd ▸ hheld))
  rw [hne] at hsame
  cases hsame

end Passes

end ServiceQuery

/-! ## All queries -/

namespace Querying

variable {answers : List RRAnswer} {st : Querying}

theorem pass_queries : (Rounds.pass process answers st).1.queries =
      st.queries.map (fun q => (Rounds.pass ServiceQuery.process answers q).1) ∧
    (Rounds.pass process answers st).2 =
      st.queries.any fun q => (Rounds.pass ServiceQuery.process answers q).2 := by
  induction answers generalizing st with
  | nil => simp [Rounds.pass]
  | cons known rest ih =>
    obtain ⟨hqueries, hnews⟩ := @ih (st.process known).1
    refine ⟨?_, ?_⟩
    · rw [Rounds.pass, hqueries, process, map_map]
      rfl
    · rw [Rounds.pass, hnews, process]
      simp only [any_map, Rounds.pass]
      rw [Bool.eq_iff_iff]
      simp only [Bool.or_eq_true, any_eq_true, Function.comp]
      constructor
      · rintro (⟨q, hq, h⟩ | ⟨q, hq, h⟩)
        · exact ⟨q, hq, .inl h⟩
        · exact ⟨q, hq, .inr h⟩
      · rintro ⟨q, hq, h | h⟩
        · exact .inl ⟨q, hq, h⟩
        · exact .inr ⟨q, hq, h⟩

def locations (st : Querying) : List (List UInt8 → Option Location) :=
  st.queries.map ServiceQuery.location

theorem process_news {known : RRAnswer} (hnames : known.data.Named)
    (h : (st.process known).2 = true) : (st.process known).1.locations ≠ st.locations := by
  obtain ⟨q, hq, hnews⟩ := any_eq_true.mp h
  intro heq
  unfold locations process at heq
  rw [map_map] at heq
  exact ServiceQuery.location_of_news hnames hnews (map_inj_left.mp heq q hq)

end Querying

/-- **`_processAnswers` comes to an end**, and makes a pass again only where a record of the
last one changed what the queries know. -/
structure Settles (answers : List RRAnswer) (st : Querying) : Prop where
  returns : ∃ fuel, (processAnswers answers fuel st).isSome
  changed : ∀ n, (Rounds.pass Querying.process answers
      (Rounds.passes Querying.process answers n st)).2 = true →
    ∃ front known back, answers = front ++ known :: back ∧
      let st' := (Rounds.pass Querying.process front
        (Rounds.passes Querying.process answers n st)).1
      (st'.process known).1.locations ≠ st'.locations

namespace Querying

variable {answers : List RRAnswer} {st : Querying}

theorem passes_queries (n : Nat) : (Rounds.passes process answers n st).queries =
    st.queries.map fun q => Rounds.passes ServiceQuery.process answers n q := by
  induction n generalizing st with
  | zero => exact (map_id _).symm
  | succ n ih =>
    rw [Rounds.passes, ih, pass_queries.1, map_map]
    rfl

theorem processAnswers_none {q : ServiceQuery} (hq : q ∈ st.queries) (h : q.Contended answers)
    (fuel : Nat) : processAnswers answers fuel st = none := by
  refine @Rounds.settle_none Querying RRAnswer Querying.process
    (fun st => ∃ q ∈ st.queries, q.Contended answers) answers ?_ ?_ fuel st ⟨q, hq, h⟩
  · rintro st ⟨q, hq, h⟩
    refine ⟨_, ?_, ServiceQuery.pass_contended.mpr h⟩
    rw [pass_queries.1]
    exact mem_map_of_mem hq
  · rintro st ⟨q, hq, h⟩
    rw [pass_queries.2]
    exact any_eq_true.mpr ⟨q, hq, ServiceQuery.pass_news h⟩

end Querying

/-- **Exactly what keeps `_processAnswers` from ending.**  It comes to an end just if no query
comes to know an instance of which two records of the list say different things. -/
theorem processAnswers_settles_iff {answers : List RRAnswer} {st : Querying}
    (hnames : ∀ known ∈ answers, known.data.Named) :
    Settles answers st ↔ ∀ q ∈ st.queries, ¬q.Contended answers := by
  constructor
  · intro h q hq hcontended
    obtain ⟨fuel, hfuel⟩ := h.returns
    rw [Querying.processAnswers_none hq hcontended] at hfuel
    cases hfuel
  · intro h
    refine ⟨Rounds.settle_some 2 ?_, fun n hnews => ?_⟩
    · rw [Querying.pass_queries.2, Querying.passes_queries, any_map,
        any_eq_false]
      intro q hq
      rw [Bool.not_eq_true]
      -- The first pass makes all names known, and the second puts all instances in their places.
      exact ServiceQuery.pass_silent (ServiceQuery.pass_quiet hnames
        (mt ServiceQuery.pass_contended.mp (h q hq)) (ServiceQuery.pass_namesKnown hnames))
    · obtain ⟨front, known, back, hsplit, hx⟩ := Rounds.news_of_pass hnews
      refine ⟨front, known, back, hsplit, Querying.process_news (hnames known ?_) hx⟩
      rw [hsplit]
      exact mem_append_right front mem_cons_self

def sampleQuery : ServiceQuery := ⟨[1, 116, 0], true, []⟩

def samplePTR : RRAnswer := ⟨⟨[1, 116, 0], rrTypePTR, rrClassIN⟩, 120, .ptr [1, 105, 1, 116, 0]⟩

def sampleSRV (port : Nat) : RRAnswer :=
  ⟨⟨[1, 105, 1, 116, 0], rrTypeSRV, rrClassIN⟩, 120, .srv 0 0 port [1, 104, 0]⟩

theorem sample_host : IsName [1, 104, 0] := ⟨[[104]], by simp [Labels], rfl⟩

theorem sample_instance : IsName [1, 105, 1, 116, 0] := ⟨[[105], [116]], by simp [Labels], rfl⟩

theorem sample_named (port : Nat) : ∀ known ∈ [sampleSRV port, samplePTR, sampleSRV 80],
    known.data.Named := by
  intro known hmem
  simp only [mem_cons, not_mem_nil, or_false] at hmem
  rcases hmem with rfl | rfl | rfl
  · exact sample_host
  · exact sample_instance
  · exact sample_host

/-- Two records that agree are no reason to go on. -/
theorem processAnswers_settles_iff_sample :
    Settles [sampleSRV 80, samplePTR, sampleSRV 80]
      ⟨[sampleQuery], ⟨none, .done, false, false, [], []⟩⟩ := by
  refine (processAnswers_settles_iff (sample_named 80)).mpr ?_
  rintro q - ⟨known, hmem, other, hother, loc, loc', hloc, hloc', -, hne, -⟩
  have hport : ∀ known ∈ [sampleSRV 80, samplePTR, sampleSRV 80], ∀ loc,
      known.location = some loc → loc = ([1, 104, 0], 80) := by
    intro known hmem loc hloc
    simp only [mem_cons, not_mem_nil, or_false] at hmem
    rcases hmem with rfl | rfl | rfl
    · exact (Option.some.inj hloc).symm
    · cases hloc
    · exact (Option.some.inj hloc).symm
  rw [hport known hmem loc hloc, hport other hother loc' hloc',
    sameLocation_self sample_host] at hne
  cases hne

/-- A response that gives one instance two ports is passed over for ever. -/
theorem not_processAnswers_settles : ¬∀ (answers : List RRAnswer) (st : Querying),
    (∀ known ∈ answers, known.data.Named) → Settles answers st := by
  intro h
  obtain ⟨fuel, hfuel⟩ := (h _ ⟨[sampleQuery], ⟨none, .done, false, false, [], []⟩⟩
    (sample_named 81)).returns
  have htype : IsName [1, 116, 0] := ⟨[[116]], by simp [Labels], rfl⟩
  have haccepts : sampleQuery.accepts samplePTR.header.domain = true :=
    Bool.and_eq_true_iff.mpr ⟨htype.refl, rfl⟩
  have hcontended : sampleQuery.Contended [sampleSRV 81, samplePTR, sampleSRV 80] := by
    refine ⟨sampleSRV 81, by simp, sampleSRV 80, by simp, ([1, 104, 0], 81), ([1, 104, 0], 80),
      rfl, rfl, sample_instance.refl, by simp [sameLocation], ?_⟩
    exact .inr ⟨samplePTR, by simp, [1, 105, 1, 116, 0], if_pos ⟨by decide, haccepts⟩,
      sample_instance.refl⟩
  rw [Querying.processAnswers_none mem_cons_self hcontended] at hfuel
  cases hfuel

end Mdns
