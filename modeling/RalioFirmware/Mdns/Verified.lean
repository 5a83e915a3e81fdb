import Mathlib.Data.List.Forall2
import RalioFirmware.Mdns.Probing

/-!
# A response claims what was probed for

`run_claims_verified` is about every run of the responder.  What its responses claim was probed
for, unless a name is changed behind the announcements of the old one, whose counter is taken
over; a probe is not sent; a service answers, with the host's address added, while the host is
still probing; or answers are still marked for a service whose state changes. -/

namespace Mdns

open CString Runs List
open Option (map_eq_some_iff some.inj)

/-! ## States of probing -/

variable {α : Type}

theorem put_self (f : Stake → α) (stake : Stake) (value : α) :
    put f stake value stake = value := if_pos rfl

variable {stake : Stake}

theorem put_other (f : Stake → α) {other : Stake} (value : α)
    (h : other ≠ stake) : put f stake value other = f other := if_neg h

variable {s : ServiceState} {netifs : List IPAddress}

variable {i : Nat}

namespace Responder

theorem status_one {r : Responder} {f : ServiceState → ServiceState}
    (hf : ∀ s, (f s).probing = s.probing) : (r.one i f).status = r.status := by
  funext stake
  cases stake with
  | host => rfl
  | service j =>
    unfold status one
    dsimp only
    rw [getElem?_modify]
    cases r.services[j]? with
    | none => rfl
    | some s =>
      show some (if i = j then f s else s).probing = some s.probing
      split
      · rw [hf]
      · rfl

theorem status_each {r : Responder} {f : ServiceState → ServiceState}
    (hf : ∀ s, (f s).probing = s.probing) : (r.each f).status = r.status := by
  funext stake
  cases stake with
  | host => rfl
  | service j =>
    unfold status each
    dsimp only
    rw [getElem?_map]
    cases r.services[j]? with
    | none => rfl
    | some s => exact congrArg some (hf s)

theorem status_setStatus (r : Responder) (stake other : Stake) (status : ProbingStatus) :
    (r.setStatus stake status).status other =
      if other = stake then (r.status other).map fun _ => status else r.status other := by
  cases stake with
  | host =>
    cases other with
    | host => rfl
    | service j => rfl
  | service i =>
    cases other with
    | host => rfl
    | service j =>
      unfold setStatus Responder.status one
      dsimp only
      rw [getElem?_modify]
      by_cases h : i = j
      · subst h
        rw [if_pos rfl]
        cases r.services[i]? with
        | none => rfl
        | some s =>
          grind
      · rw [if_neg fun heq => h (Stake.service.inj heq).symm]
        cases r.services[j]? with
        | none => rfl
        | some s =>
          grind

theorem mem_setStatus {r : Responder} {status : ProbingStatus}
    (h : s ∈ (r.setStatus stake status).services) : ∃ old ∈ r.services,
      s.service = old.service ∧ s.tiebreakNeeded = old.tiebreakNeeded ∧
        (s.probing = old.probing ∨ ∃ i, stake = .service i ∧ r.services[i]? = some old) := by
  cases stake with
  | host => exact ⟨s, h, rfl, rfl, .inl rfl⟩
  | service i =>
    obtain ⟨j, old, hget, hold, ⟨rfl, rfl⟩ | ⟨-, rfl⟩⟩ := mem_one h
    · exact ⟨old, hold, rfl, rfl, .inr ⟨i, rfl, hget⟩⟩
    · exact ⟨s, hold, rfl, rfl, .inl rfl⟩

theorem sendMDNSMessage_eq (leftover : Leftover) (p : SendParameter)
    (unicast : Option (IPAddress × Destination)) (netifs : List IPAddress) (r : Responder) :
    ∃ buffer, (r.sendMDNSMessage leftover p unicast netifs).2 =
      { r with txBuffer := buffer }.each fun s => s.withMask 0 := by
  have htransmit : ∀ (ip : IPAddress) (destination : Destination) (r : Responder),
      ∃ buffer, (r.transmit leftover p ip destination).2 = { r with txBuffer := buffer } := by
    intro ip destination r
    unfold transmit
    split
    · exact ⟨[], rfl⟩
    · exact ⟨_, rfl⟩
  have hmulticast : ∀ (netifs : List IPAddress) (r : Responder),
      ∃ buffer, (r.multicast leftover p netifs).2 = { r with txBuffer := buffer } := by
    intro netifs
    induction netifs with
    | nil => exact fun r => ⟨r.txBuffer, rfl⟩
    | cons ip rest ih =>
      intro r
      obtain ⟨buffer, hfirst⟩ := htransmit ip (.multicast ip) r
      obtain ⟨buffer', hrest⟩ := ih { r with txBuffer := buffer }
      refine ⟨buffer', ?_⟩
      show ((r.transmit leftover p ip (.multicast ip)).2.multicast leftover p rest).2 = _
      rw [hfirst, hrest]
  cases unicast with
  | none =>
    obtain ⟨buffer, h⟩ := hmulticast netifs r
    exact ⟨buffer, congrArg (each · fun s => s.withMask 0) h⟩
  | some target =>
    obtain ⟨buffer, h⟩ := htransmit target.1 target.2 r
    exact ⟨buffer, congrArg (each · fun s => s.withMask 0) h⟩

theorem sendMDNSMessage_status (leftover : Leftover) (p : SendParameter)
    (unicast : Option (IPAddress × Destination)) (netifs : List IPAddress) (r : Responder) :
    (r.sendMDNSMessage leftover p unicast netifs).2.status = r.status := by
  obtain ⟨buffer, h⟩ := sendMDNSMessage_eq leftover p unicast netifs r
  rw [h]
  exact status_each fun _ => rfl

theorem mem_sendMDNSMessage {leftover : Leftover} {p : SendParameter}
    {unicast : Option (IPAddress × Destination)} {r : Responder}
        (h : s ∈ (r.sendMDNSMessage leftover p unicast netifs).2.services) :
    s.service.replyMask = 0 ∧ ∃ old ∈ r.services, s = old.withMask 0 := by
  obtain ⟨buffer, heq⟩ := sendMDNSMessage_eq leftover p unicast netifs r
  rw [heq] at h
  obtain ⟨old, hold, rfl⟩ := mem_map.mp h
  exact ⟨rfl, old, hold, rfl⟩

end Responder

/-! ## What is sound -/

/-- How a state of probing, the counter and what happened to the name go together. -/
def StateSound : ProbingStatus → ProbeCount → History → Prop
  | .waitingForData, count, _ => count.sentCount = 0
  | .readyToStart, count, history =>
    count.sentCount = 0 ∧ history.probes = 0 ∧ history.lost = false
  | .inProgress, count, history =>
    count.sentCount = history.probes ∧ history.lost = false
  | .done, _, history => probeCount ≤ history.probes ∧ history.lost = false

/-- The states are what happened to the names, and answers are marked for services that are
done. -/
structure Prober.Sound (st : Prober) : Prop where
  states : ∀ stake status, st.responder.status stake = some status →
    StateSound status (st.count stake) (st.history stake)
  masks : ∀ s ∈ st.responder.services, s.service.replyMask ≠ 0 → s.probing = .done

structure Responder.Calm (r : Responder) : Prop where
  host : r.tiebreakNeeded = false
  services : ∀ s ∈ r.services, s.tiebreakNeeded = false

/-! ## Who claims -/

theorem asked_ne_zero {mask flags : BitVec 8} (h : asked mask flags = true) : mask ≠ 0 := by
  rintro rfl
  simp [asked] at h

theorem mem_recordIf {cond : Bool} {r r' : Record} (h : Item.record r ∈ recordIf cond r') :
    cond = true ∧ r = r' := by
  unfold recordIf at h
  split at h
  · next hcond =>
      obtain rfl := Item.record.inj (mem_singleton.mp h)
      exact ⟨hcond, rfl⟩
  · cases h

theorem serviceItems_claimed {p : SendParameter} {e : Service × Nat} {r : Record}
    (h : Item.record r ∈ serviceItems p e ∨ Item.record r ∈ serviceMore p e)
    (hclaimed : r.claimed = some stake) : stake = .service e.2 ∧ e.1.replyMask ≠ 0 := by
  have hservice : ∀ r', r' = recordSRV p e.2 e.1 ∨ r' = recordTXT p e.2 e.1 →
      r'.claimed = some (.service e.2) := by
    rintro r' (rfl | rfl)
    · show (if rrTypeSRV = rrTypeSRV ∨ rrTypeSRV = rrTypeTXT then some (Stake.service e.2)
        else none) = _
      exact if_pos (Or.inl rfl)
    · show (if rrTypeTXT = rrTypeSRV ∨ rrTypeTXT = rrTypeTXT then some (Stake.service e.2)
        else none) = _
      exact if_pos (Or.inr rfl)
  have hnone : ∀ r', r' = recordPTR_TYPE p e.2 ∨ r' = recordPTR_NAME p e.2 →
      r'.claimed = none := by
    rintro r' (rfl | rfl) <;> rfl
  simp only [serviceItems, serviceMore, mem_append] at h
  rcases h with (((h | h) | h) | h) | (h | h)
  · rw [hnone r (.inl (mem_recordIf h).2)] at hclaimed
    cases hclaimed
  · rw [hnone r (.inr (mem_recordIf h).2)] at hclaimed
    cases hclaimed
  · rw [hservice r (.inl (mem_recordIf h).2)] at hclaimed
    exact ⟨(some.inj hclaimed).symm, asked_ne_zero (mem_recordIf h).1⟩
  · rw [hservice r (.inr (mem_recordIf h).2)] at hclaimed
    exact ⟨(some.inj hclaimed).symm, asked_ne_zero (mem_recordIf h).1⟩
  · rw [hservice r (.inl (mem_recordIf h).2)] at hclaimed
    exact ⟨(some.inj hclaimed).symm,
      asked_ne_zero (Bool.and_eq_true_iff.mp (mem_recordIf h).1).1⟩
  · rw [hservice r (.inr (mem_recordIf h).2)] at hclaimed
    exact ⟨(some.inj hclaimed).symm,
      asked_ne_zero (Bool.and_eq_true_iff.mp (mem_recordIf h).1).1⟩

/-- **Who claims.**  The host's address is asked for or added; an instance's records come with
marked answers. -/
theorem Sending.Claims.cases {s : Sending} (h : s.Claims stake) :
    (stake = .host ∧ (asked s.p.hostReplyMask contentFlagA = true ∨
        needsAdditionalAnswerA s.st.responder.names s.p = true)) ∨
      ∃ i e, stake = .service i ∧ s.st.responder.services[i]? = some e ∧
        e.service.replyMask ≠ 0 := by
  obtain ⟨-, r, hmem, hclaimed⟩ := h
  have hservices : ∀ f : Service × Nat → List Item,
      (∀ e : Service × Nat, Item.record r ∈ f e → Item.record r ∈ serviceItems s.p e ∨
        Item.record r ∈ serviceMore s.p e) →
      Item.record r ∈ s.st.responder.names.services.zipIdx.flatMap f →
        ∃ i e, stake = .service i ∧ s.st.responder.services[i]? = some e ∧
          e.service.replyMask ≠ 0 := by
    intro f hf hmem
    obtain ⟨⟨service, i⟩, he, hr⟩ := mem_flatMap.mp hmem
    obtain ⟨rfl, hmask⟩ := serviceItems_claimed (hf _ hr) hclaimed
    have hget := mem_zipIdx_iff_getElem?.mp he
    unfold Responder.names at hget
    rw [getElem?_map] at hget
    obtain ⟨e, he, rfl⟩ := map_eq_some_iff.mp hget
    exact ⟨i, e, rfl, he, hmask⟩
  have hhost : ∀ r', r' = recordA s.p s.ip → r'.claimed = some .host := by
    rintro r' rfl
    rfl
  simp only [answerItems, additionalItems, mem_append] at hmem
  rcases hmem with ((hmem | hmem) | hmem) | (hmem | hmem)
  · obtain ⟨hasked, hr⟩ := mem_recordIf hmem
    rw [hhost r hr] at hclaimed
    exact .inl ⟨(some.inj hclaimed).symm, .inl hasked⟩
  · obtain ⟨-, rfl⟩ := mem_recordIf hmem
    cases hclaimed
  · exact .inr (hservices _ (fun _ h => Or.inl h) hmem)
  · exact .inr (hservices _ (fun _ h => Or.inr h) hmem)
  · obtain ⟨hneeded, hr⟩ := mem_recordIf hmem
    rw [hhost r hr] at hclaimed
    exact .inl ⟨(some.inj hclaimed).symm, .inr hneeded⟩

/-- **A response of a sound state** claims what is verified, if the host's address goes with it
only when the host is done. -/
theorem Sending.Claims.verified {s : Sending} (h : s.Claims stake)
    (hsound : s.st.Sound)
    (hhost : asked s.p.hostReplyMask contentFlagA = true ∨
      needsAdditionalAnswerA s.st.responder.names s.p = true → s.st.responder.probing = .done) :
    s.st.Verified stake := by
  have hdone : s.st.responder.status stake = some .done := by
    rcases h.cases with ⟨rfl, hasked⟩ | ⟨i, e, rfl, he, hmask⟩
    · exact congrArg some (hhost hasked)
    · show s.st.responder.services[i]?.map _ = _
      rw [he]
      exact congrArg some (hsound.masks e (mem_iff_getElem?.mpr ⟨i, he⟩) hmask)
  obtain ⟨hprobes, hkept⟩ := hsound.states stake .done hdone
  exact ⟨hdone, hprobes, hkept⟩

/-! ## What hearing a packet does -/

/-- What a packet makes of one service; `lost` says that the services are cancelled with the
host. -/
structure ServiceHeard (lost : Prop) (s s' : ServiceState) : Prop where
  status : s'.probing = s.probing ∨
    s'.probing = .waitingForData ∧ (s.probing = .inProgress ∨ lost)
  race : s'.tiebreakNeeded = true → s'.probing = .inProgress
  mask : s'.service.replyMask ≠ 0 → s.probing = .done

def ServicesLost (r r' : Responder) : Prop :=
  r.callback = false ∧ r.probing = .inProgress ∧ r'.probing = .waitingForData

/-- What a packet makes of a responder, as far as it is read. -/
structure Heard (r r' : Responder) : Prop where
  callback : r'.callback = r.callback
  host : r'.probing = r.probing ∨ r.probing = .inProgress ∧ r'.probing = .waitingForData
  race : r'.tiebreakNeeded = true → r'.probing = .inProgress
  services : List.Forall₂ (ServiceHeard (ServicesLost r r')) r.services r'.services

variable {R : α → α → Prop} {l l' : List α}

theorem forall₂_map {S : α → α → Prop} {f : α → α}
    (hf : ∀ a b, R a b → S a (f b)) (h : List.Forall₂ R l l') : List.Forall₂ S l (l'.map f) :=
  forall₂_map_right_iff.mpr (h.imp hf)

theorem forall₂_getElem?
    (h : List.Forall₂ R l l') {b : α} (hb : l'[i]? = some b) :
    ∃ a, l[i]? = some a ∧ R a b := by
  induction h generalizing i with
  | nil => cases hb
  | cons hab _ ih =>
    cases i with
    | zero =>
      obtain rfl := some.inj hb
      exact ⟨_, rfl, hab⟩
    | succ i => exact ih hb

variable {lost : Prop}

namespace Heard

variable {r r' : Responder}

theorem start {st : Prober} (hst : st.Sound) (hcalm : st.responder.Calm) :
    Heard st.responder st.responder where
  callback := rfl
  host := .inl rfl
  race h := by
    rw [hcalm.host] at h
    cases h
  services := by
    refine forall₂_same.mpr fun s hs => ⟨.inl rfl, fun h => ?_, hst.masks s hs⟩
    rw [hcalm.services s hs] at h
    cases h

theorem each (h : Heard r r') {f : ServiceState → ServiceState}
    (hf : ∀ s s', ServiceHeard (ServicesLost r r') s s' →
      ServiceHeard (ServicesLost r r') s (f s')) : Heard r (r'.each f) where
  callback := h.callback
  host := h.host
  race := h.race
  services := forall₂_map hf h.services

theorem settled (h : Heard r r') : Heard r { r' with tiebreakNeeded := false } where
  callback := h.callback
  host := h.host
  race h := by cases h
  services := h.services

theorem cancelServices {lost' : Prop} (hlost : lost') (hmono : lost → lost')
    {l l' : List ServiceState} (h : List.Forall₂ (ServiceHeard lost) l l') :
    List.Forall₂ (ServiceHeard lost') l (cancelServices l') := by
  have hweak : ∀ s s', ServiceHeard lost s s' → ServiceHeard lost' s s' := fun s s' h =>
    ⟨h.status.imp_right fun hw => ⟨hw.1, hw.2.imp_right hmono⟩, h.race, h.mask⟩
  have hcancel : ∀ s s', ServiceHeard lost s s' → ServiceHeard lost' s s'.cancelProbing :=
    fun s s' h => ⟨.inr ⟨rfl, .inr hlost⟩, fun hrace => (by cases hrace), h.mask⟩
  induction h with
  | nil => exact .nil
  | cons hab htail ih =>
    rw [Mdns.cancelServices]
    split
    · exact .cons (hcancel _ _ hab) (htail.imp hweak)
    · exact .cons (hcancel _ _ hab) ih

theorem cancelProbing (h : Heard r r') (hprobing : r'.probing = .inProgress) :
    Heard r r'.cancelProbing := by
  have hstart : r.probing = .inProgress := by
    rcases h.host with heq | ⟨hstart, -⟩
    · rw [← heq, hprobing]
    · exact hstart
  have hnot : ¬ServicesLost r r' := fun hlost => by
    have hwaiting := hlost.2.2
    rw [hprobing] at hwaiting
    cases hwaiting
  refine ⟨h.callback, .inr ⟨hstart, rfl⟩, fun hrace => (by cases hrace), ?_⟩
  show List.Forall₂ _ _ (if r'.callback then r'.services else Mdns.cancelServices r'.services)
  split
  · exact h.services.imp fun s s' hs =>
      ⟨hs.status.imp_right fun hw => ⟨hw.1, hw.2.imp_right fun hl => absurd hl hnot⟩,
        hs.race, hs.mask⟩
  · next hcallback =>
      refine cancelServices ⟨?_, hstart, rfl⟩ (fun hl => absurd hl hnot) h.services
      rw [← h.callback]
      exact Bool.not_eq_true _ ▸ hcallback

end Heard

theorem ServiceHeard.cancelProbing {s' : ServiceState}
    (h : ServiceHeard lost s s') (hprobing : s'.probing = .inProgress) :
    ServiceHeard lost s s'.cancelProbing where
  status := by
    refine .inr ⟨rfl, .inl ?_⟩
    rcases h.status with heq | ⟨hwaiting, -⟩
    · rw [← heq, hprobing]
    · rw [hprobing] at hwaiting
      cases hwaiting
  race hrace := by cases hrace
  mask := h.mask

/-! ## Queries -/

theorem Parse.question_heard {r : Responder} {st : Parse} (h : Heard r st.responder)
    (pkt : Packet) (header : MsgHeader) (q : RRHeader × Bool) :
    Heard r (st.question pkt header q).2.responder := by
  rw [Parse.question_responder]
  have hhost : Heard r (st.hostQuestion pkt q.1).responder := by
    refine ⟨h.callback, h.host, fun hrace => ?_, h.services⟩
    rcases Bool.or_eq_true_iff.mp hrace with hold | hnew
    · exact h.race hold
    · exact of_decide_eq_true (Bool.and_eq_true_iff.mp (Bool.and_eq_true_iff.mp hnew).1).1
  refine hhost.each fun s s' hs => ⟨hs.status, fun hrace => ?_, fun hmask => ?_⟩
  · rcases Bool.or_eq_true_iff.mp hrace with hold | hnew
    · exact hs.race hold
    · exact of_decide_eq_true (Bool.and_eq_true_iff.mp (Bool.and_eq_true_iff.mp hnew).1).1
  · by_cases hold : s'.service.replyMask = 0
    · change s'.service.replyMask ||| (if s'.probing = .done then _ else 0) ≠ 0 at hmask
      rw [hold] at hmask
      by_cases hdone : s'.probing = .done
      · rcases hs.status with heq | ⟨hwaiting, -⟩
        · rw [← heq, hdone]
        · rw [hdone] at hwaiting
          cases hwaiting
      · grind
    · exact hs.mask hold

theorem ServiceState.known_mask {hostname : Option (List UInt8)} {known : RRAnswer}
    (h : (s.known hostname known).service.replyMask ≠ 0) :
    s.service.replyMask ≠ 0 := by
  intro hzero
  rw [ServiceState.known_unasked hzero] at h
  exact h hzero

theorem Parse.answer_heard {r : Responder} {st : Parse} (h : Heard r st.responder)
    (pkt : Packet) (known : RRAnswer) : Heard r (st.answer pkt known).responder := by
  have hhost : Heard r (st.responder.hostTiebreak pkt known) := by
    unfold Responder.hostTiebreak
    split
    · next hrace =>
        split
        · split
          · exact h.settled
          · split
            · exact (h.cancelProbing (h.race hrace.1)).settled
            · exact h.settled
        · exact h
    · exact h
  have hknown : ∀ hostname s s', ServiceHeard (ServicesLost r
      (st.responder.hostTiebreak pkt known)) s s' → ServiceHeard (ServicesLost r
        (st.responder.hostTiebreak pkt known)) s (s'.known hostname known) := by
    intro hostname s s' hs
    have hsame : (s'.known hostname known).probing = s'.probing ∧
        (s'.known hostname known).tiebreakNeeded = s'.tiebreakNeeded := by
      unfold ServiceState.known
      dsimp only
      split
      · split <;> exact ⟨rfl, rfl⟩
      · exact ⟨rfl, rfl⟩
    refine ⟨?_, ?_, fun hmask => hs.mask (ServiceState.known_mask hmask)⟩
    · rw [hsame.1]
      exact hs.status
    · rw [hsame.1, hsame.2]
      exact hs.race
  unfold answer
  split
  · refine hhost.each fun s s' hs => ?_
    have hmid := hknown (st.responder.hostTiebreak pkt known).hostname s s' hs
    unfold ServiceState.tiebreak
    split
    · next hrace =>
        split
        · split
          · exact ⟨hmid.status, fun h => (by cases h), hmid.mask⟩
          · split
            · have hcancelled := hmid.cancelProbing (hmid.race hrace.1)
              exact ⟨hcancelled.status, fun h => (by cases h), hcancelled.mask⟩
            · exact ⟨hmid.status, fun h => (by cases h), hmid.mask⟩
        · exact hmid
    · exact hmid
  · exact h

def HostPlanned (r : Responder) (st : Parse) : Prop :=
  st.send.hostReplyMask ≠ 0 → r.probing = .done

theorem Parse.question_planned {r : Responder} {st : Parse} (h : Heard r st.responder)
    (hplanned : HostPlanned r st) (pkt : Packet) (header : MsgHeader) (q : RRHeader × Bool) :
    HostPlanned r (st.question pkt header q).2 := by
  have hmask : (st.question pkt header q).2.send.hostReplyMask =
      (st.hostQuestion pkt q.1).send.hostReplyMask := by
    unfold question unicastQuestion serviceQuestion
    dsimp only
    split
    · split
      · split <;> rfl
      · rfl
    · rfl
  intro hne
  rw [hmask] at hne
  by_cases hold : st.send.hostReplyMask = 0
  · change st.send.hostReplyMask ||| (if st.responder.probing = .done then _ else 0) ≠ 0 at hne
    rw [hold] at hne
    by_cases hdone : st.responder.probing = .done
    · rcases h.host with heq | ⟨-, hwaiting⟩
      · rw [← heq, hdone]
      · rw [hdone] at hwaiting
        cases hwaiting
    · grind
  · exact hplanned hold

theorem Parse.answer_planned {r : Responder} {st : Parse} (hplanned : HostPlanned r st)
    (pkt : Packet) (known : RRAnswer) : HostPlanned r (st.answer pkt known) := by
  intro hne
  refine hplanned fun hzero => hne ?_
  unfold answer
  split
  · have hfound : ¬(st.send.hostReplyMask &&&
        replyMaskForHost pkt.netifs st.responder.hostname known.header ≠ 0 ∧
          hostTTL / 2 ≤ known.ttl) := by
      rw [hzero]
      exact fun hne => hne.1 (BitVec.zero_and)
    unfold hostKnown
    dsimp only
    rw [if_neg hfound, hzero]
  · exact hzero

theorem questionLoop_heard {r : Responder} (pkt : Packet) (header : MsgHeader) (n : Nat)
    (rx : Rx) {st : Parse} (h : Heard r st.responder) (hplanned : HostPlanned r st) :
    Heard r (questionLoop pkt header n rx st).2.responder ∧
      HostPlanned r (questionLoop pkt header n rx st).2 := by
  induction n generalizing rx st with
  | zero => exact ⟨h, hplanned⟩
  | succ n ih =>
    rw [questionLoop]
    split
    · exact ⟨h, hplanned⟩
    · next q rx' _ =>
        have hstep := Parse.question_heard h pkt header q
        have hstep' := Parse.question_planned h hplanned pkt header q
        split
        · next st' heq =>
            rw [heq] at hstep hstep'
            exact ⟨hstep, hstep'⟩
        · next st' heq =>
            rw [heq] at hstep hstep'
            exact ih rx' hstep hstep'

theorem answerLoop_heard {r : Responder} (pkt : Packet) (n : Nat) (rx : Rx) {st : Parse}
    (h : Heard r st.responder) (hplanned : HostPlanned r st) :
    Heard r (answerLoop pkt n rx st).2.responder ∧
      HostPlanned r (answerLoop pkt n rx st).2 := by
  induction n generalizing rx st with
  | zero => exact ⟨h, hplanned⟩
  | succ n ih =>
    rw [answerLoop]
    split
    · exact ⟨h, hplanned⟩
    · exact ih _ (Parse.answer_heard h pkt _) (Parse.answer_planned hplanned pkt _)

/-- **Reading a query** cancels what is probed for, and plans answers for what is done. -/
theorem readQuery_heard {st : Prober} (hst : st.Sound) (hcalm : st.responder.Calm)
    (pkt : Packet) (header : MsgHeader) (rx : Rx) :
    Heard st.responder (readQuery pkt header rx st.responder).2.responder ∧
      HostPlanned st.responder (readQuery pkt header rx st.responder).2 := by
  have hquestions := questionLoop_heard pkt header header.qdCount rx
    (@Heard.start st hst hcalm) (fun h => absurd rfl h : HostPlanned _ (Parse.start st.responder))
  unfold readQuery
  split
  · next heq =>
      rw [heq] at hquestions
      exact hquestions
  · next rx' parsed heq =>
      rw [heq] at hquestions
      exact answerLoop_heard pkt _ rx' hquestions.1 hquestions.2

/-! ## Responses -/

theorem Responder.hostConflict_heard {r r' : Responder} (h : Heard r r') (known : RRAnswer) :
    Heard r (r'.hostConflict known) := by
  unfold hostConflict
  split
  · split
    · next hconflict => exact h.cancelProbing hconflict.1
    · exact h
  · exact h

theorem Responder.conflicts_heard {r r' : Responder} (h : Heard r r') (answers : List RRAnswer) :
    Heard r (r'.conflicts answers) := by
  induction answers generalizing r' with
  | nil => exact h
  | cons known rest ih =>
    refine ih ((hostConflict_heard h known).each fun s s' hs => ?_)
    have hconflict : ServiceHeard (ServicesLost r (r'.hostConflict known)) s
        (if s'.probing = .inProgress ∧
          isDomain known.header.domain (buildDomainForService s'.service true) then
            s'.cancelProbing else s') := by
      split
      · next hconflict => exact hs.cancelProbing hconflict.1
      · exact hs
    unfold ServiceState.conflict
    split
    · exact hconflict
    · exact hconflict
    · exact hs

theorem Responder.conflictPasses_heard {r r' : Responder} (h : Heard r r')
    (answers : List RRAnswer) (n : Nat) : Heard r (r'.conflictPasses answers n) := by
  induction n generalizing r' with
  | zero => exact h
  | succ n ih => exact ih (conflicts_heard h answers)

/-- What the records do to one stake: its name stays, and it is cancelled or as it was. -/
structure Doubted (stake : Stake) (r r' : Responder) : Prop where
  domain : r'.domain stake = r.domain stake
  status : r'.status stake = r.status stake ∨ r'.status stake = some .waitingForData

theorem Doubted.trans {r r' r'' : Responder} (h : Doubted stake r r')
    (h' : Doubted stake r' r'') : Doubted stake r r'' where
  domain := h'.domain.trans h.domain
  status := by
    rcases h'.status with heq | hwaiting
    · rw [heq]
      exact h.status
    · exact .inr hwaiting

theorem Doubted.waiting {r r' : Responder} (h : Doubted stake r r')
    (hr : r.status stake = some .waitingForData) : r'.status stake = some .waitingForData := by
  rcases h.status with heq | hwaiting
  · rw [heq, hr]
  · exact hwaiting

theorem doubted_cancelServices (stake : Stake) (r : Responder) :
    Doubted stake r { r with services := cancelServices r.services } := by
  cases stake with
  | host => exact ⟨rfl, .inl rfl⟩
  | service i =>
    have hget : ∀ (l : List ServiceState) (i : Nat),
        (cancelServices l)[i]? = l[i]? ∨
          (cancelServices l)[i]? = l[i]?.map ServiceState.cancelProbing := by
      intro l
      induction l with
      | nil => exact fun i => .inl rfl
      | cons s rest ih =>
        intro i
        rw [cancelServices]
        cases i with
        | zero => split <;> exact .inr rfl
        | succ i =>
          split
          · exact .inl rfl
          · exact ih i
    rcases hget r.services i with h | h
    · exact ⟨congrArg (fun o => Option.bind o fun s : ServiceState =>
        buildDomainForService s.service true) h,
        .inl (congrArg (Option.map ServiceState.probing) h)⟩
    · refine ⟨?_, ?_⟩
      · show (cancelServices r.services)[i]?.bind _ = r.services[i]?.bind _
        rw [h]
        cases r.services[i]? <;> rfl
      · show (cancelServices r.services)[i]?.map _ = r.services[i]?.map _ ∨ _
        rw [h]
        cases hi : r.services[i]? with
        | none => exact .inl rfl
        | some s =>
          refine .inr ?_
          show (cancelServices r.services)[i]?.map _ = _
          rw [h, hi]
          rfl

theorem doubted_hostConflict (stake : Stake) (known : RRAnswer) (r : Responder) :
    Doubted stake r (r.hostConflict known) := by
  have hcancel : Doubted stake r r.cancelProbing := by
    unfold Responder.cancelProbing
    split
    · cases stake with
      | host => exact ⟨rfl, .inr rfl⟩
      | service i => exact ⟨rfl, .inl rfl⟩
    · have h := doubted_cancelServices stake r
      cases stake with
      | host => exact ⟨rfl, .inr rfl⟩
      | service i => exact ⟨h.domain, h.status⟩
  unfold Responder.hostConflict
  split
  · split
    · exact hcancel
    · exact ⟨rfl, .inl rfl⟩
  · exact ⟨rfl, .inl rfl⟩

theorem ServiceState.conflict_cases (known : RRAnswer) (s : ServiceState) :
    (s.conflict known).service = s.service ∧
      ((s.conflict known).probing = s.probing ∨
        (s.conflict known).probing = .waitingForData) := by
  have hcases : ∀ c : Prop, [Decidable c] →
      (if c then s.cancelProbing else s).service = s.service ∧
        ((if c then s.cancelProbing else s).probing = s.probing ∨
          (if c then s.cancelProbing else s).probing = .waitingForData) := by
    intro c _
    split
    · exact ⟨rfl, .inr rfl⟩
    · exact ⟨rfl, .inl rfl⟩
  unfold ServiceState.conflict
  split
  · exact hcases _
  · exact hcases _
  · exact ⟨rfl, .inl rfl⟩

theorem doubted_conflict (stake : Stake) (known : RRAnswer) (r : Responder) :
    Doubted stake r (r.each fun s => s.conflict known) := by
  cases stake with
  | host => exact ⟨rfl, .inl rfl⟩
  | service i =>
    have hget : (r.each fun s => s.conflict known).services[i]? =
        r.services[i]?.map fun s => s.conflict known := getElem?_map
    refine ⟨?_, ?_⟩
    · unfold Responder.domain
      dsimp only
      rw [hget]
      cases r.services[i]? with
      | none => rfl
      | some s => exact congrArg (buildDomainForService · true) (s.conflict_cases known).1
    · unfold Responder.status
      dsimp only
      rw [hget]
      cases r.services[i]? with
      | none => exact .inl rfl
      | some s => exact (s.conflict_cases known).2.imp (congrArg some) (congrArg some)

theorem conflict_step (known : RRAnswer) (r : Responder) (stake : Stake)
    (hstatus : r.status stake = some .inProgress) (hagainst : r.against known stake = true) :
    ((r.hostConflict known).each fun s => s.conflict known).status stake =
      some .waitingForData := by
  rcases known with ⟨header, ttl, data⟩
  cases stake with
  | host =>
    have hprobing : r.probing = .inProgress := some.inj hstatus
    cases data with
    | a ip =>
      have hdomain := (Bool.and_eq_true_iff.mp hagainst).2
      refine congrArg some ?_
      show (if r.probing = .inProgress ∧
        isDomain header.domain (buildDomainForHost r.hostname) then r.cancelProbing
          else r).probing = .waitingForData
      rw [if_pos ⟨hprobing, hdomain⟩]
      rfl
    | ptr domain => cases hagainst
    | txt txts => cases hagainst
    | srv priority weight port domain => cases hagainst
    | generic => cases hagainst
  | service i =>
    have hcancel : (∀ s, r.services[i]? = some s →
        (s.conflict ⟨header, ttl, data⟩).probing = .waitingForData) →
        (r.each fun s => s.conflict ⟨header, ttl, data⟩).status (.service i) =
          some .waitingForData := by
      intro h
      unfold Responder.status at hstatus ⊢
      dsimp only [Responder.each] at hstatus ⊢
      rw [getElem?_map]
      obtain ⟨s, hs, -⟩ := map_eq_some_iff.mp hstatus
      rw [hs]
      exact congrArg some (h s hs)
    have hservice : ∀ s, r.services[i]? = some s → s.probing = .inProgress ∧
        isDomain header.domain (buildDomainForService s.service true) = true := by
      intro s hs
      have hdomain := (Bool.and_eq_true_iff.mp hagainst).2
      unfold Responder.status at hstatus
      unfold Responder.domain at hdomain
      dsimp only at hstatus hdomain
      rw [hs] at hstatus hdomain
      exact ⟨some.inj hstatus, hdomain⟩
    cases data with
    | a ip => cases hagainst
    | ptr domain => cases hagainst
    | txt txts =>
      refine hcancel fun s hs => ?_
      exact congrArg ServiceState.probing (if_pos (hservice s hs))
    | srv priority weight port domain =>
      refine hcancel fun s hs => ?_
      exact congrArg ServiceState.probing (if_pos (hservice s hs))
    | generic => cases hagainst

/-- **A contradicted name is cancelled**, if it is probed for. -/
theorem conflicts_against {answers : List RRAnswer} {r : Responder} {stake : Stake} :
    Doubted stake r (r.conflicts answers) ∧
      (r.status stake = some .inProgress → (answers.any fun known => r.against known stake) →
        (r.conflicts answers).status stake = some .waitingForData) := by
  induction answers generalizing r with
  | nil => exact ⟨⟨rfl, .inl rfl⟩, fun _ h => (by cases h)⟩
  | cons known rest ih =>
    have hstep : Doubted stake r ((r.hostConflict known).each fun s => s.conflict known) :=
      (doubted_hostConflict stake known r).trans (doubted_conflict stake known _)
    obtain ⟨hrest, hcancels⟩ := @ih ((r.hostConflict known).each fun s => s.conflict known)
    refine ⟨hstep.trans hrest, fun hstatus hagainst => ?_⟩
    rw [any_cons, Bool.or_eq_true] at hagainst
    rcases hagainst with hnow | hlater
    · exact hrest.waiting (conflict_step known r stake hstatus hnow)
    · rcases hstep.status with heq | hwaiting
      · refine hcancels (heq.trans hstatus) ?_
        unfold Responder.against at hlater ⊢
        rw [hstep.domain]
        exact hlater
      · exact hrest.waiting hwaiting

theorem conflictPasses_doubted (answers : List RRAnswer) (n : Nat) (r : Responder)
    (stake : Stake) : Doubted stake r (r.conflictPasses answers n) := by
  induction n generalizing r with
  | zero => exact ⟨rfl, .inl rfl⟩
  | succ n ih => exact conflicts_against.1.trans (ih (r.conflicts answers))

/-! ## Steps that keep the states sound -/

theorem Heard.status {r r' : Responder} (h : Heard r r') {status : ProbingStatus}
    (hstatus : r'.status stake = some status) :
    status = .waitingForData ∨ r.status stake = some status := by
  cases stake with
  | host =>
    obtain rfl := some.inj hstatus
    rcases h.host with heq | ⟨-, hwaiting⟩
    · exact .inr (congrArg some heq.symm)
    · exact .inl hwaiting
  | service i =>
    obtain ⟨s', hs', rfl⟩ := map_eq_some_iff.mp hstatus
    obtain ⟨s, hs, hheard⟩ := forall₂_getElem? h.services hs'
    rcases hheard.status with heq | ⟨hwaiting, -⟩
    · refine .inr ?_
      show r.services[i]?.map _ = _
      rw [hs, heq]
      rfl
    · exact .inl hwaiting

variable {pkt : Packet}

namespace Prober

variable {st : Prober}

/-- **Hearing** keeps the states sound, if the marked services are not lost with the host. -/
theorem Sound.heard (h : st.Sound) {r' : Responder} (hheard : Heard st.responder r')
    (hlost : LosesUnmarked st.responder r') {against : Stake → Bool}
    (hagainst : ∀ stake status, r'.status stake = some status → status ≠ .waitingForData →
      against stake = false) : (st.heard r' against).Sound where
  states stake status hstatus := by
    change r'.status stake = some status at hstatus
    by_cases hwaiting : status = .waitingForData
    · subst hwaiting
      show (if r'.status stake = some .waitingForData then (⟨0, false⟩ : ProbeCount)
        else st.count stake).sentCount = 0
      rw [if_pos hstatus]
    · have hold := h.states stake status ((hheard.status hstatus).resolve_left hwaiting)
      have hnot : r'.status stake ≠ some .waitingForData := by grind
      have hhistory : (st.heard r' against).history stake = st.history stake := by
        unfold Prober.heard
        dsimp only
        rw [hagainst stake status hstatus hwaiting, decide_eq_false hnot]
        simp
      have hcount : (st.heard r' against).count stake = st.count stake := if_neg hnot
      rw [hhistory, hcount]
      exact hold
  masks s' hs' hmask := by
    change s' ∈ r'.services at hs'
    obtain ⟨i, hi⟩ := mem_iff_getElem?.mp hs'
    obtain ⟨s, -, hs⟩ := forall₂_getElem? hheard.services hi
    have hdone := hs.mask hmask
    rcases hs.status with heq | ⟨-, hprobing | hall⟩
    · rw [heq, hdone]
    · rw [hdone] at hprobing
      cases hprobing
    · exact absurd (hlost hall.2.1 hall.1 hall.2.2 s' hs') hmask

theorem Sound.put (h : st.Sound) {r' : Responder} {stake : Stake} {count : ProbeCount}
    {history : History}
    (hstatus : ∀ other, other ≠ stake → r'.status other = st.responder.status other)
    (hnew : ∀ status, r'.status stake = some status → StateSound status count history)
    (hmasks : ∀ s ∈ r'.services, s.service.replyMask ≠ 0 → s.probing = .done) :
    Sound ⟨r', st.autoName, put st.count stake count, put st.history stake history⟩ where
  states other status hother := by
    by_cases heq : other = stake
    · subst heq
      show StateSound status (Mdns.put _ other _ other) (Mdns.put _ other _ other)
      rw [put_self, put_self]
      exact hnew status hother
    · show StateSound status (Mdns.put _ stake _ other) (Mdns.put _ stake _ other)
      rw [put_other _ _ heq, put_other _ _ heq]
      exact h.states other status ((hstatus other heq).symm.trans hother)
  masks := hmasks

theorem put_same (f : Stake → α) (stake : Stake) : Mdns.put f stake (f stake) = f := by
  funext other
  unfold Mdns.put
  split
  · next heq => rw [heq]
  · rfl

theorem Sound.masks_setStatus (h : st.Sound) {status : ProbingStatus}
    (hmask : ∀ i s, stake = .service i → st.responder.services[i]? = some s →
      s.service.replyMask = 0) :
    ∀ s ∈ (st.responder.setStatus stake status).services, s.service.replyMask ≠ 0 →
      s.probing = .done := by
  intro s hs hne
  obtain ⟨old, hold, hservice, -, heq | ⟨i, hi, hget⟩⟩ := Responder.mem_setStatus hs
  · rw [heq]
    exact h.masks old hold (hservice ▸ hne)
  · grind

theorem Sound.unmarked (h : st.Sound) {status : ProbingStatus}
    (hstatus : st.responder.status stake = some status) (hne : status ≠ .done) (i : Nat)
    (s : ServiceState) (hi : stake = .service i) (hs : st.responder.services[i]? = some s) :
    s.service.replyMask = 0 := by
  by_contra hmask
  subst hi
  change st.responder.services[i]?.map _ = _ at hstatus
  rw [hs] at hstatus
  exact hne ((some.inj hstatus).symm.trans
    (h.masks s (mem_iff_getElem?.mpr ⟨i, hs⟩) hmask))

theorem setStatus_calm {r : Responder} (h : r.Calm) (stake : Stake) (status : ProbingStatus) :
    (r.setStatus stake status).Calm where
  host := by
    cases stake with
    | host => exact h.host
    | service i => exact h.host
  services s hs := by
    obtain ⟨old, hold, -, hrace, -⟩ := Responder.mem_setStatus hs
    rw [hrace]
    exact h.services old hold

section Sending

variable {leftover : Leftover} {p : SendParameter} {unicast : Option (IPAddress × Destination)}
  {netifs : List IPAddress}

theorem mem_send {s : Sending} (h : s ∈ (st.send leftover p unicast netifs).1) :
    s.st = st ∧ s.p = p := by
  unfold send at h
  cases unicast with
  | none =>
    obtain ⟨ip, -, rfl⟩ := mem_map.mp h
    exact ⟨rfl, rfl⟩
  | some target =>
    obtain rfl := mem_singleton.mp h
    exact ⟨rfl, rfl⟩

theorem send_status : (st.send leftover p unicast netifs).2.responder.status =
    st.responder.status := Responder.sendMDNSMessage_status _ _ _ _ _

theorem send_masks : ∀ s ∈ (st.send leftover p unicast netifs).2.responder.services,
    s.service.replyMask = 0 := fun _ hs => (Responder.mem_sendMDNSMessage hs).1

theorem send_calm (h : st.responder.Calm) :
    (st.send leftover p unicast netifs).2.responder.Calm where
  host := by
    obtain ⟨buffer, heq⟩ := Responder.sendMDNSMessage_eq leftover p unicast netifs st.responder
    show (st.responder.sendMDNSMessage leftover p unicast netifs).2.tiebreakNeeded = false
    rw [heq]
    exact h.host
  services s hs := by
    obtain ⟨-, old, hold, rfl⟩ := Responder.mem_sendMDNSMessage hs
    exact h.services old hold

theorem marked_status (stake : Stake) (mask : BitVec 8) :
    (st.marked stake mask).responder.status = st.responder.status := by
  cases stake with
  | host => rfl
  | service i => exact Responder.status_one fun _ => rfl

theorem marked_calm (h : st.responder.Calm) (stake : Stake) (mask : BitVec 8) :
    (st.marked stake mask).responder.Calm := by
  cases stake with
  | host => exact h
  | service i =>
    refine ⟨h.host, fun s hs => ?_⟩
    obtain ⟨-, old, -, hold, ⟨-, rfl⟩ | ⟨-, rfl⟩⟩ := Responder.mem_one hs
    · exact h.services old hold
    · exact h.services s hold

theorem Sound.marked (h : st.Sound)
    (hdone : st.responder.status stake = some .done) (mask : BitVec 8) :
    (st.marked stake mask).Sound where
  states other status hother := by
    rw [marked_status] at hother
    cases stake <;> exact h.states other status hother
  masks s hs hmask := by
    cases stake with
    | host => exact h.masks s hs hmask
    | service i =>
      obtain ⟨j, old, hget, hold, ⟨rfl, rfl⟩ | ⟨-, rfl⟩⟩ := Responder.mem_one hs
      · change st.responder.services[i]?.map _ = _ at hdone
        rw [hget] at hdone
        exact some.inj hdone
      · exact h.masks s hold hmask

end Sending

structure Good (st : Prober) : Prop where
  sound : st.Sound
  calm : st.responder.Calm

def Honest (log : List Sending) : Prop :=
  ∀ s ∈ log, ∀ stake, s.Claims stake → s.st.Verified stake

theorem honest_query {leftover : Leftover} {p : SendParameter}
    (hp : p.response = false) : Honest (st.send leftover p none netifs).1 := by
  intro s hs stake hclaims
  have hresponse := hclaims.1
  rw [(mem_send hs).2, hp] at hresponse
  cases hresponse

/-- **Announcements** of what is done are honest, if the host is done. -/
theorem announce_good (h : st.Good)
    (hdone : st.responder.status stake = some .done) (hhost : st.responder.probing = .done)
    (leftover : Leftover) (yes : Bool) (netifs : List IPAddress) :
    Honest (st.announce leftover stake yes netifs).1 ∧
      (st.announce leftover stake yes netifs).2.Good ∧
      (st.announce leftover stake yes netifs).2.responder.status = st.responder.status := by
  have hmarked := h.sound.marked hdone
    (contentFlagPTR_TYPE ||| contentFlagPTR_NAME ||| contentFlagSRV ||| contentFlagTXT)
  have hstatus : (st.announce leftover stake yes netifs).2.responder.status =
      st.responder.status := send_status.trans (marked_status stake _)
  have hsame : (st.marked stake (contentFlagPTR_TYPE ||| contentFlagPTR_NAME |||
      contentFlagSRV ||| contentFlagTXT)).responder.probing = .done := by
    cases stake <;> exact hhost
  refine ⟨fun s hs other hclaims => ?_, ⟨⟨?_, fun s hs hmask => ?_⟩, ?_⟩, hstatus⟩
  · obtain ⟨hst, -⟩ := mem_send hs
    exact hclaims.verified (hst ▸ hmarked) fun _ => hst ▸ hsame
  · intro other status hother
    rw [hstatus] at hother
    have hold := h.sound.states other status hother
    cases stake <;> exact hold
  · exact absurd (send_masks s hs) hmask
  · exact send_calm (marked_calm h.calm stake _)

theorem sendProbe_good (h : st.Good) (leftover : Leftover) (stake : Stake)
    (netifs : List IPAddress) :
    Honest (st.sendProbe leftover stake netifs).1 ∧
      (st.sendProbe leftover stake netifs).2.responder.status = st.responder.status ∧
      (∀ s ∈ (st.sendProbe leftover stake netifs).2.responder.services,
        s.service.replyMask ≠ 0 → s.probing = .done) ∧
      (st.sendProbe leftover stake netifs).2.responder.Calm ∧
      (st.sendProbe leftover stake netifs).2.autoName = st.autoName := by
  unfold sendProbe
  split
  · refine ⟨honest_query rfl, send_status.trans (marked_status stake _),
      fun s hs hmask => absurd (send_masks s hs) hmask,
      send_calm (marked_calm h.calm stake _), ?_⟩
    cases stake <;> rfl
  · exact ⟨fun s hs => absurd hs not_mem_nil, rfl, h.sound.masks, h.calm, rfl⟩

variable {env : Env}

/-- **One stake's part of an update.** -/
theorem update_good (h : st.Good) (hfits : st.UpdateFits env stake)
    (leftover : Leftover) : Honest (st.update leftover env stake).1.1 ∧
      (st.update leftover env stake).1.2.Good := by
  have hnothing : Honest [] := fun s hs => (by cases hs)
  have hothers : ∀ status other, other ≠ stake →
      (st.responder.setStatus stake status).status other = st.responder.status other := by
    intro status other hne
    rw [Responder.status_setStatus, if_neg hne]
  have hself : ∀ status old, st.responder.status stake = some old → ∀ status',
      (st.responder.setStatus stake status).status stake = some status' → status' = status := by
    intro status old hold status' hstatus'
    rw [Responder.status_setStatus, if_pos rfl, hold] at hstatus'
    exact (some.inj hstatus').symm
  unfold update
  dsimp only
  split
  · next hready =>
      -- Probing starts: no probe was counted, and none was sent.
      refine ⟨hnothing, ⟨?_, setStatus_calm h.calm stake _⟩⟩
      obtain ⟨hcount, hprobes, hkept⟩ := h.sound.states stake _ hready
      have hsound := @Sound.put st h.sound _ stake ⟨(st.count stake).sentCount, true⟩
        (st.history stake) (hothers .inProgress) ?_
        (h.sound.masks_setStatus (h.sound.unmarked hready (by decide)))
      · rw [put_same] at hsound
        exact hsound
      · intro status hstatus
        rw [hself _ _ hready status hstatus]
        exact ⟨hcount.trans hprobes.symm, hkept⟩
  · next hprogress =>
      split
      · next hdue =>
          obtain ⟨htimer, hexpired⟩ := Bool.and_eq_true_iff.mp hdue
          obtain ⟨hequal, hkept⟩ := h.sound.states stake _ hprogress
          split
          · next hless =>
              -- A probe goes out, and is counted.
              have hout := (hfits htimer hexpired).1 hprogress hless
              rw [hout]
              obtain ⟨hhonest, hstatus, hmasks, hcalm, hauto⟩ :=
                sendProbe_good h leftover stake env.netifs
              refine ⟨hhonest, ⟨?_, hcalm⟩⟩
              have hsound := @Sound.put st h.sound
                (st.sendProbe leftover stake env.netifs).2.responder stake
                ⟨(st.count stake).sentCount + 1, true⟩
                { st.history stake with probes := (st.history stake).probes + 1 }
                (fun other _ => congrFun hstatus other) ?_ hmasks
              · grind
              · intro status hnow
                rw [hstatus, hprogress] at hnow
                obtain rfl := some.inj hnow
                exact ⟨congrArg (· + 1) hequal, hkept⟩
          · next hmore =>
              -- All probes were sent.
              refine ⟨hnothing, ⟨?_, setStatus_calm h.calm stake _⟩⟩
              have hsound := @Sound.put st h.sound _ stake ⟨0, true⟩ (st.history stake)
                (hothers .done) ?_
                (h.sound.masks_setStatus (h.sound.unmarked hprogress (by decide)))
              · rw [put_same] at hsound
                exact hsound
              · intro status hstatus
                rw [hself _ _ hprogress status hstatus]
                exact ⟨hequal ▸ Nat.le_of_not_lt hmore, hkept⟩
      · exact ⟨hnothing, h⟩
  · next hdone =>
      split
      · next hdue =>
          obtain ⟨htimer, hexpired⟩ := Bool.and_eq_true_iff.mp hdue
          have hhost := (hfits htimer hexpired).2 hdone
          obtain ⟨hhonest, hgood, hstatus⟩ := announce_good h hdone hhost leftover true env.netifs
          refine ⟨hhonest, ⟨?_, hgood.calm⟩⟩
          have hsound := @Sound.put _ hgood.sound _ stake
            ⟨(st.count stake).sentCount + 1,
              decide (announceCount > (st.count stake).sentCount + 1)⟩
            ((st.announce leftover stake true env.netifs).2.history stake)
            (fun _ _ => rfl) ?_ hgood.sound.masks
          · have hcount : (st.announce leftover stake true env.netifs).2.count = st.count := by
              cases stake <;> rfl
            rw [put_same, hcount] at hsound
            exact hsound
          · intro status hnow
            have hkept := hgood.sound.states stake status hnow
            rw [hstatus, hdone] at hnow
            obtain rfl := some.inj hnow
            exact hkept
      · exact ⟨hnothing, h⟩
  · exact ⟨hnothing, h⟩
  · exact ⟨hnothing, h⟩

theorem Honest.append {log more : List Sending} (h : Honest log) (h' : Honest more) :
    Honest (log ++ more) := fun s hs => (mem_append.mp hs).elim (h s) (h' s)

theorem updates_good (h : st.Good) {leftover : Leftover} {stakes : List Stake}
    (hfits : UpdatesFit leftover env stakes st) :
    Honest (st.updates leftover env stakes).1 ∧ (st.updates leftover env stakes).2.Good := by
  induction stakes generalizing st with
  | nil => exact ⟨fun s hs => (by cases hs), h⟩
  | cons stake rest ih =>
    obtain ⟨hnow, hrest⟩ := hfits
    obtain ⟨hhonest, hgood⟩ := update_good h hnow leftover
    obtain ⟨hmore, hlast⟩ := ih hgood hrest
    rw [updates]
    split
    · exact ⟨hhonest.append hmore, hlast⟩
    · exact ⟨hhonest, hgood⟩

theorem resetTiebreaks_good (h : st.Sound) :
    Good { st with responder := st.responder.resetTiebreaks } where
  sound := by
    refine ⟨fun stake status hstatus => h.states stake status ?_, fun s hs hmask => ?_⟩
    · rw [← hstatus]
      exact (@Responder.status_each st.responder (fun s => { s with tiebreakNeeded := false })
        (fun _ => rfl) ▸ by cases stake <;> rfl)
    · obtain ⟨old, hold, rfl⟩ := mem_map.mp hs
      exact h.masks old hold hmask
  calm := by
    refine ⟨rfl, fun s hs => ?_⟩
    obtain ⟨old, -, rfl⟩ := mem_map.mp hs
    rfl

/-- **A query** is answered for what is done. -/
theorem query_good (h : st.Good) (leftover : Leftover) {header : MsgHeader}
    {rx : Rx}
    (hsettled : (readQuery pkt header rx st.responder).1 = true →
      HostSettled (readQuery pkt header rx st.responder).2.responder)
    (hlost : LosesUnmarked st.responder (readQuery pkt header rx st.responder).2.responder) :
    Honest (st.query leftover pkt header rx).1 ∧ (st.query leftover pkt header rx).2.Good := by
  obtain ⟨hheard, hplanned⟩ := readQuery_heard h.sound h.calm pkt header rx
  have hsound := @Sound.heard st h.sound _ hheard hlost (fun _ => false) (fun _ _ _ _ => rfl)
  unfold query
  dsimp only
  split
  · next hsend =>
      refine ⟨fun s hs stake hclaims => ?_, resetTiebreaks_good ⟨?_, ?_⟩⟩
      · obtain ⟨hst, hp⟩ := mem_send hs
        refine hclaims.verified (hst ▸ hsound) fun hasked => ?_
        have hmask : s.p.hostReplyMask ≠ 0 → s.st.responder.probing = .done := by
          rw [hp, hst]
          intro hne
          have hdone := hplanned hne
          rcases hheard.host with heq | ⟨hprobing, -⟩
          · exact heq.trans hdone
          · rw [hdone] at hprobing
            cases hprobing
        rcases hasked with hasked | hneeded
        · exact hmask (asked_ne_zero hasked)
        · obtain ⟨e, he, hneeded⟩ := any_eq_true.mp hneeded
          rcases Bool.or_eq_true_iff.mp (Bool.and_eq_true_iff.mp hneeded).1 with hservice | hhost
          · rcases hsettled hsend.1 with hdone | hnone
            · rw [hst]
              exact hdone
            · obtain ⟨state, hmem, rfl⟩ := mem_map.mp he
              rw [hst] at hmem
              rw [hnone state hmem] at hservice
              cases hservice
          · exact hmask (asked_ne_zero hhost)
      · intro stake status hstatus
        rw [send_status] at hstatus
        exact hsound.states stake status hstatus
      · exact fun s hs hmask => absurd (send_masks s hs) hmask
  · exact ⟨fun s hs => (by cases hs), resetTiebreaks_good hsound⟩

theorem cancelServices_calm {l : List ServiceState}
    (h : ∀ s ∈ l, s.tiebreakNeeded = false) : ∀ s ∈ cancelServices l, s.tiebreakNeeded = false := by
  induction l with
  | nil => exact h
  | cons s rest ih =>
    obtain ⟨-, hrest⟩ := forall_mem_cons.mp h
    rw [cancelServices]
    split
    · exact forall_mem_cons.mpr ⟨rfl, hrest⟩
    · exact forall_mem_cons.mpr ⟨rfl, ih hrest⟩

theorem conflicts_calm {r : Responder} (h : r.Calm) (answers : List RRAnswer) :
    (r.conflicts answers).Calm := by
  induction answers generalizing r with
  | nil => exact h
  | cons known rest ih =>
    have hcancel : r.cancelProbing.Calm := by
      refine ⟨rfl, fun s hs => ?_⟩
      change s ∈ (if r.callback then r.services else cancelServices r.services) at hs
      split at hs
      · exact h.services s hs
      · exact cancelServices_calm h.services s hs
    have hhost : (r.hostConflict known).Calm := by
      unfold Responder.hostConflict
      split
      · split
        · exact hcancel
        · exact h
      · exact h
    refine ih ⟨hhost.host, fun s hs => ?_⟩
    obtain ⟨old, hold, rfl⟩ := mem_map.mp hs
    have hcalm := hhost.services old hold
    unfold ServiceState.conflict
    split
    · split
      · rfl
      · exact hcalm
    · split
      · rfl
      · exact hcalm
    · exact hcalm

theorem conflictPasses_calm {r : Responder} (h : r.Calm) (answers : List RRAnswer) (n : Nat) :
    (r.conflictPasses answers n).Calm := by
  induction n generalizing r with
  | zero => exact h
  | succ n ih => exact ih (conflicts_calm h answers)

theorem mem_stakes {status : ProbingStatus}
    (h : st.responder.status stake = some status) : stake ∈ st.stakes := by
  cases stake with
  | host => exact mem_cons_self
  | service i =>
    obtain ⟨s, hs, -⟩ := map_eq_some_iff.mp h
    refine mem_cons_of_mem _ (mem_map_of_mem (mem_range.mpr ?_))
    exact (List.getElem?_eq_some_iff.mp hs).1

/-- **A response** cancels what it speaks against. -/
theorem response_good (h : st.Good) {answers : List RRAnswer} {queries : Bool} {more : Nat}
    (hlost : (queries || st.probesWaiting) = true →
      LosesUnmarked st.responder (st.responder.conflictPasses answers (more + 1))) :
    (st.response answers queries more).Good := by
  have hstart := Heard.start h.sound h.calm
  unfold response
  dsimp only
  by_cases hwaits : (queries || st.probesWaiting) = true
  · rw [if_pos hwaits]
    have hheard := Responder.conflictPasses_heard hstart answers (more + 1)
    refine ⟨h.sound.heard hheard (hlost hwaits) fun stake status hstatus hne => ?_,
      conflictPasses_calm h.calm answers (more + 1)⟩
    by_contra hagainst
    rw [Bool.not_eq_false] at hagainst
    obtain ⟨hprobed, hany⟩ := Bool.and_eq_true_iff.mp hagainst
    obtain ⟨hnot, hprobes⟩ := Bool.and_eq_true_iff.mp hprobed
    have hold := (hheard.status hstatus).resolve_left hne
    have hsound := h.sound.states stake status hold
    cases status with
    | waitingForData => exact hne rfl
    | readyToStart => exact absurd (of_decide_eq_true hprobes) (by rw [hsound.2.1]; decide)
    | inProgress =>
      have hfirst := (@conflicts_against answers st.responder stake).2 hold hany
      have hlast := (conflictPasses_doubted answers more
        (st.responder.conflicts answers) stake).waiting hfirst
      change (st.responder.conflictPasses answers (more + 1)).status stake = _ at hlast
      rw [hstatus] at hlast
      cases hlast
    | done => exact of_decide_eq_true hnot hold
  · rw [if_neg hwaits]
    refine ⟨h.sound.heard hstart
        (fun hprogress _ hwaiting => ?_) fun stake status hstatus hne => ?_,
      h.calm⟩
    · rw [hprogress] at hwaiting
      cases hwaiting
    · by_contra hagainst
      rw [Bool.not_eq_false] at hagainst
      obtain ⟨hprobed, -⟩ := Bool.and_eq_true_iff.mp hagainst
      obtain ⟨hnot, hprobes⟩ := Bool.and_eq_true_iff.mp hprobed
      have hsound := h.sound.states stake status hstatus
      cases status with
      | waitingForData => exact hne rfl
      | readyToStart => exact absurd (of_decide_eq_true hprobes) (by rw [hsound.2.1]; decide)
      | inProgress =>
        -- Probes wait for answers, so that the response was looked into.
        refine hwaits (Bool.or_eq_true_iff.mpr (.inr (any_eq_true.mpr
          ⟨stake, mem_stakes hstatus, ?_⟩)))
        rw [hstatus, hsound.1]
        exact Bool.and_eq_true_iff.mpr ⟨decide_eq_true rfl, hprobes⟩
      | done => exact of_decide_eq_true hnot hstatus

/-! ## Names -/

theorem one_good (h : st.Good) {i : Nat} {f : ServiceState → ServiceState}
    (hf : ∀ s, (f s).probing = s.probing ∧ (f s).tiebreakNeeded = s.tiebreakNeeded ∧
      (f s).service.replyMask = s.service.replyMask) :
    Good { st with responder := st.responder.one i f } := by
  have hmem : ∀ s ∈ (st.responder.one i f).services, ∃ old ∈ st.responder.services,
      s.probing = old.probing ∧ s.tiebreakNeeded = old.tiebreakNeeded ∧
        s.service.replyMask = old.service.replyMask := by
    intro s hs
    obtain ⟨-, old, -, hold, ⟨-, rfl⟩ | ⟨-, rfl⟩⟩ := Responder.mem_one hs
    · exact ⟨old, hold, hf old⟩
    · exact ⟨s, hold, rfl, rfl, rfl⟩
  refine ⟨⟨fun stake status hstatus => ?_, fun s hs hmask => ?_⟩, ⟨h.calm.host, fun s hs => ?_⟩⟩
  · rw [Responder.status_one fun s => (hf s).1] at hstatus
    exact h.sound.states stake status hstatus
  · obtain ⟨old, hold, hprobing, -, heq⟩ := hmem s hs
    rw [hprobing]
    exact h.sound.masks old hold (heq ▸ hmask)
  · obtain ⟨old, hold, -, hrace, -⟩ := hmem s hs
    rw [hrace]
    exact h.calm.services old hold

theorem renamed_good (h : st.Good) (hcount : (st.count stake).sentCount = 0)
    (hmask : ∀ i s, stake = .service i → st.responder.services[i]? = some s →
      s.service.replyMask = 0) : (st.renamed stake).Good := by
  refine ⟨?_, setStatus_calm h.calm stake _⟩
  have hsound := @Sound.put st h.sound _ stake (st.count stake) ⟨0, false⟩
    (fun other hne => (Responder.status_setStatus st.responder stake other .readyToStart).trans
      (if_neg hne)) ?_ (h.sound.masks_setStatus hmask)
  · rw [put_same] at hsound
    exact hsound
  · intro status hstatus
    rw [Responder.status_setStatus, if_pos rfl] at hstatus
    obtain ⟨old, -, rfl⟩ := map_eq_some_iff.mp hstatus
    exact ⟨hcount, rfl, rfl⟩

theorem renameService_mask {name : List UInt8} {j : Nat}
    (hs : (st.renameService name i).responder.services[j]? = some s) :
    ∃ old, st.responder.services[j]? = some old ∧
      s.service.replyMask = old.service.replyMask := by
  change ((st.responder.services.modify i _).modify i _)[j]? = some s at hs
  rw [getElem?_modify, getElem?_modify] at hs
  obtain ⟨mid, hmid, rfl⟩ := map_eq_some_iff.mp hs
  obtain ⟨old, hold, rfl⟩ := map_eq_some_iff.mp hmid
  refine ⟨old, hold, ?_⟩
  split <;> rfl

theorem renameService_good (h : st.Good) {name : List UInt8}
    (hmay : st.MayRename i) : (st.renameService name i).Good := by
  refine renamed_good (@one_good st h i (setName name) fun s => ⟨rfl, rfl, rfl⟩) hmay.1
    fun j s hj hs => ?_
  obtain rfl := Stake.service.inj hj
  change (st.responder.services.modify i _)[i]? = some s at hs
  rw [getElem?_modify] at hs
  obtain ⟨old, hold, rfl⟩ := map_eq_some_iff.mp hs
  rw [if_pos rfl]
  exact hmay.2 old hold

theorem setHostname_good (h : st.Good) {name : List UInt8}
    (hfits : labelMaxLength ≥ (cstr name).length →
      (st.count .host).sentCount = 0 ∧ ∀ i ∈ st.autoNamed, st.MayRename i) :
    (st.setHostname name).Good := by
  have hhostname : ∀ hostname,
      Good { st with responder := { st.responder with hostname := hostname } } := fun hostname =>
    ⟨⟨fun stake status hstatus => h.sound.states stake status (by cases stake <;> exact hstatus),
      h.sound.masks⟩, ⟨h.calm.host, h.calm.services⟩⟩
  have hall : ∀ (l : List Nat) (st : Prober), st.Good → (∀ i ∈ l, st.MayRename i) →
      (l.foldl (fun st i => st.renameService name i) st).Good := by
    intro l
    induction l with
    | nil => exact fun st h _ => h
    | cons i rest ih =>
      intro st h hmay
      obtain ⟨hi, hrest⟩ := forall_mem_cons.mp hmay
      refine ih _ (renameService_good h hi) fun j hj => ⟨(hrest j hj).1, fun s hs => ?_⟩
      obtain ⟨old, hold, heq⟩ := renameService_mask hs
      rw [heq]
      exact (hrest j hj).2 old hold
  unfold setHostname
  split
  · next hlength =>
      obtain ⟨hcount, hmay⟩ := hfits hlength
      refine hall _ _ (renamed_good (hhostname _) hcount fun i s hi => (by cases hi)) fun i hi => ?_
      exact hmay i hi
  · exact hhostname none

theorem addService_good (h : st.Good) (service : Service) (auto callback : Bool) :
    (st.addService service auto callback).Good where
  sound := by
    refine ⟨fun stake status hstatus => ?_, fun s hs hmask => ?_⟩
    · cases stake with
      | host => exact h.sound.states .host status hstatus
      | service i =>
        cases i with
        | zero =>
          obtain rfl := some.inj hstatus
          exact ⟨rfl, rfl, rfl⟩
        | succ i => exact h.sound.states (.service i) status hstatus
    · rcases mem_cons.mp hs with rfl | hs
      · exact absurd rfl hmask
      · exact h.sound.masks s hs hmask
  calm := ⟨h.calm.host, forall_mem_cons.mpr ⟨rfl, h.calm.services⟩⟩

theorem removeService_good (h : st.Good) (leftover : Leftover) {taken : Bool}
    (hhost : st.responder.status (.service i) = some .done → st.responder.probing = .done) :
    Honest (st.removeService leftover i taken netifs).1 ∧
      (st.removeService leftover i taken netifs).2.Good := by
  unfold removeService
  split
  · next hdone =>
      obtain ⟨hhonest, hgood, -⟩ :=
        announce_good h hdone (hhost hdone) leftover false netifs
      refine ⟨hhonest, ?_⟩
      dsimp only
      split
      · refine ⟨⟨fun stake status hstatus => ?_, fun s hs hmask => ?_⟩,
          ⟨hgood.calm.host, fun s hs => hgood.calm.services s (mem_of_mem_eraseIdx hs)⟩⟩
        · cases stake with
          | host => exact hgood.sound.states .host status hstatus
          | service j =>
            unfold Responder.status at hstatus
            dsimp only at hstatus
            rw [getElem?_eraseIdx] at hstatus
            show StateSound status (if j < i then _ else _) (if j < i then _ else _)
            split
            · next hlt =>
                rw [if_pos hlt] at hstatus
                exact hgood.sound.states (.service j) status hstatus
            · next hge =>
                rw [if_neg hge] at hstatus
                exact hgood.sound.states (.service (j + 1)) status hstatus
        · exact hgood.sound.masks s (mem_of_mem_eraseIdx hs) hmask
      · exact hgood
  · exact ⟨fun s hs => (by cases hs), h⟩

theorem restart_good (hmasks : ∀ s ∈ st.responder.services, s.service.replyMask = 0) :
    st.restart.Good where
  sound := by
    refine ⟨fun stake status hstatus => ?_, fun s hs hmask => ?_⟩
    · have hready : status = .readyToStart := by
        cases stake with
        | host => exact (some.inj hstatus).symm
        | service i =>
          change (st.responder.services.map _)[i]?.map _ = _ at hstatus
          rw [getElem?_map, Option.map_map] at hstatus
          obtain ⟨s, -, heq⟩ := map_eq_some_iff.mp hstatus
          exact heq.symm
      rw [hready]
      exact ⟨rfl, rfl, rfl⟩
    · obtain ⟨old, hold, rfl⟩ := mem_map.mp hs
      exact absurd (hmasks old hold) hmask
  calm := by
    refine ⟨rfl, fun s hs => ?_⟩
    obtain ⟨old, -, rfl⟩ := mem_map.mp hs
    rfl

theorem begun_good (hostname : List UInt8) (callback : Bool) : (begun hostname callback).Good where
  sound := by
    refine ⟨fun stake status hstatus => ?_, fun s hs => (by cases hs)⟩
    cases stake with
    | host =>
      obtain rfl := some.inj hstatus
      exact ⟨rfl, rfl, rfl⟩
    | service i => cases hstatus
  calm := ⟨rfl, fun s hs => (by cases hs)⟩

end Prober

/-- **What is sent is what was composed**, behind what an earlier failure left. -/
theorem Prober.send_datagrams {leftover : Leftover} {p : SendParameter}
    {unicast : Option (IPAddress × Destination)} {st : Prober}
    {d : Datagram} (hd : d ∈ (st.responder.sendMDNSMessage leftover p unicast netifs).1) :
    ∃ s ∈ (st.send leftover p unicast netifs).1, ∃ out,
      prepareMDNSMessage s.st.responder.names s.p s.ip = some out ∧ out.bytes <:+ d.bytes := by
  have htransmit : ∀ (ip : IPAddress) (destination : Destination) (r : Responder),
      d ∈ (r.transmit leftover p ip destination).1 →
        ∃ out, prepareMDNSMessage r.names p ip = some out ∧ out.bytes <:+ d.bytes := by
    intro ip destination r hmem
    unfold Responder.transmit at hmem
    split at hmem
    · next out hout =>
        obtain rfl := mem_singleton.mp hmem
        exact ⟨out, hout, suffix_append _ _⟩
    · cases hmem
  have hnames : ∀ (ip : IPAddress) (destination : Destination) (r : Responder),
      (r.transmit leftover p ip destination).2.names = r.names := by
    intro ip destination r
    unfold Responder.transmit
    split <;> rfl
  have hmulticast : ∀ (netifs : List IPAddress) (r : Responder),
      d ∈ (r.multicast leftover p netifs).1 → ∃ ip ∈ netifs, ∃ out,
        prepareMDNSMessage r.names p ip = some out ∧ out.bytes <:+ d.bytes := by
    intro netifs
    induction netifs with
    | nil =>
      intro r hmem
      cases hmem
    | cons ip rest ih =>
      intro r hmem
      rcases mem_append.mp hmem with hfirst | hrest
      · exact ⟨ip, mem_cons_self, htransmit ip _ r hfirst⟩
      · obtain ⟨other, hmem, hout⟩ := ih _ hrest
        rw [hnames] at hout
        exact ⟨other, mem_cons_of_mem ip hmem, hout⟩
  cases unicast with
  | none =>
    obtain ⟨ip, hmem, hout⟩ := hmulticast netifs st.responder hd
    exact ⟨⟨st, p, ip⟩, mem_map_of_mem hmem, hout⟩
  | some target =>
    exact ⟨⟨st, p, target.1⟩, mem_singleton.mpr rfl, htransmit target.1 target.2 _ hd⟩

theorem Prober.packet_responder (leftover : Leftover) (queries : Bool) (more : Nat)
    {header : MsgHeader} {rx : Rx} (h : queryOf pkt = some (header, rx)) (st : Prober) :
    (st.packet leftover pkt queries more).2.responder =
      (parseMessage leftover pkt st.responder).2 := by
  rw [parseMessage_eq, h]
  show (st.packet leftover pkt queries more).2.responder =
    (parseQuery leftover pkt header rx st.responder).2
  unfold Prober.packet
  rw [h]
  unfold Prober.query
  dsimp only
  split
  · next hsend => exact (parseQuery_sent hsend).symm
  · next hsend => exact (congrArg Prod.snd (parseQuery_unsent hsend)).symm

/-- **Every event** that fits is honest, and leaves the states sound. -/
theorem ProbeEvent.step_good (leftover : Leftover) (e : ProbeEvent) {st : Prober} (h : st.Good)
    (hfits : e.Fits leftover st) :
    Prober.Honest (e.step leftover st).1 ∧ (e.next leftover st).Good := by
  have hnothing : Prober.Honest [] := fun s hs => (by cases hs)
  cases e with
  | packet pkt queries more =>
    show Prober.Honest (st.packet leftover pkt queries more).1 ∧
      (st.packet leftover pkt queries more).2.Good
    unfold Prober.packet
    split
    · next header rx heq =>
        obtain ⟨hsettled, hlost⟩ := hfits.1 header rx heq
        exact Prober.query_good h leftover hsettled hlost
    · split
      · next answers heq => exact ⟨hnothing, Prober.response_good h (hfits.2 answers heq)⟩
      · exact ⟨hnothing, h⟩
  | update env => exact Prober.updates_good h hfits
  | setHostname name => exact ⟨hnothing, Prober.setHostname_good h hfits⟩
  | setServiceName i name =>
    refine ⟨hnothing, ?_⟩
    show (st.setServiceName i name).Good
    unfold Prober.setServiceName
    split
    · next hlength => exact Prober.renameService_good h (hfits hlength.1)
    · exact h
  | addService service auto callback =>
    exact ⟨hnothing, Prober.addService_good h service auto callback⟩
  | removeService i taken netifs => exact Prober.removeService_good h leftover hfits
  | restart => exact ⟨hnothing, Prober.restart_good hfits⟩

/-- **Claims are verified** in every run whose events fit. -/
theorem run_claims_verified (leftover : Leftover) (hostname : List UInt8) (callback : Bool)
    {events : List ProbeEvent}
    (h : AllFit (ProbeEvent.next leftover) (ProbeEvent.Fits leftover) events
      (Prober.begun hostname callback)) :
    ClaimsVerified leftover (Prober.begun hostname callback) events := by
  intro front e back hsplit s hs stake hclaims
  rw [hsplit] at h
  have hgood : (after (ProbeEvent.next leftover) front (Prober.begun hostname callback)).Good :=
    invariant (fun e st hst hfits => (e.step_good leftover hst hfits).2)
      (Prober.begun_good hostname callback) (allFit_append.mp h).1
  exact (e.step_good leftover hgood h.behind).1 s hs stake hclaims

instance (env : Prober.Env) (stake : Stake) (st : Prober) :
    Decidable (st.UpdateFits env stake) :=
  inferInstanceAs (Decidable (_ → _ → (_ → _ → _) ∧ (_ → _)))

instance updatesFitDecidable (leftover : Leftover) (env : Prober.Env) :
    ∀ (stakes : List Stake) (st : Prober), Decidable (Prober.UpdatesFit leftover env stakes st)
  | [], _ => isTrue trivial
  | stake :: rest, st =>
    have := updatesFitDecidable leftover env rest (st.update leftover env stake).1.2
    inferInstanceAs (Decidable (st.UpdateFits env stake ∧ Prober.UpdatesFit leftover env rest _))

def sampleEnv : Prober.Env := ⟨fun _ => true, fun _ => true, [fun _ => 1]⟩

def sampleUpdates (n : Nat) : List ProbeEvent := List.replicate n (.update sampleEnv)

set_option maxRecDepth 10000 in
/-- A host probes three times, and announces itself. -/
theorem run_claims_verified_sample : ClaimsVerified (fun _ _ _ => [])
    (Prober.begun [97] false) (sampleUpdates 6) := by
  refine run_claims_verified _ [97] false ?_
  have hfits : ∀ n < 6, Prober.UpdatesFit (fun _ _ _ => []) sampleEnv
      (after (ProbeEvent.next fun _ _ _ => []) (sampleUpdates n) (Prober.begun [97] false)).stakes
      (after (ProbeEvent.next fun _ _ _ => []) (sampleUpdates n) (Prober.begun [97] false)) := by
    decide +kernel
  exact ⟨hfits 0 (by decide), hfits 1 (by decide), hfits 2 (by decide), hfits 3 (by decide),
    hfits 4 (by decide), hfits 5 (by decide), trivial⟩

def sampleRename : List ProbeEvent := sampleUpdates 8 ++ .setHostname [98] :: sampleUpdates 2

set_option maxRecDepth 10000 in
/-- The new name is announced without a probe for it. -/
theorem not_claims_verified : ¬∀ leftover hostname callback events,
    ClaimsVerified leftover (Prober.begun hostname callback) events := by
  intro h
  have hlog : ((ProbeEvent.update sampleEnv).step (fun _ _ _ => [])
      (after (ProbeEvent.next fun _ _ _ => []) sampleRename (Prober.begun [97] false))).1.map
        (fun s => (s.p.response, s.p.hostReplyMask, (s.st.history .host).probes)) =
      [(true, contentFlagA ||| contentFlagPTR_IP4, 0)] := by
    decide +kernel
  obtain ⟨s, hs, heq⟩ := mem_map.mp (hlog ▸ mem_singleton.mpr rfl :
    (true, contentFlagA ||| contentFlagPTR_IP4, 0) ∈ _)
  obtain ⟨hresponse, hrest⟩ := Prod.mk.inj heq
  obtain ⟨hmask, hprobes⟩ := Prod.mk.inj hrest
  have hclaims : s.Claims .host := by
    refine ⟨hresponse, recordA s.p s.ip, ?_, rfl⟩
    have hasked : asked s.p.hostReplyMask contentFlagA = true := by
      rw [hmask]
      decide
    simp [answerItems, recordIf, hasked]
  have hverified := h _ _ _ (sampleRename ++ [.update sampleEnv]) sampleRename _ [] rfl s hs .host
    hclaims
  have hthree := hverified.probes
  rw [hprobes] at hthree
  exact absurd hthree (by decide)

end Mdns
