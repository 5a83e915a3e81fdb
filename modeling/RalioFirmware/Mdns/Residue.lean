import RalioFirmware.Mdns.Query
import RalioFirmware.Mdns.Room

/-!
# What a packet leaves behind

While a query is read, the masks of the services hold what is to be answered, and flags say
which races for a name are open.  `run_no_residue` says that each reply is the one of a
responder without a past, and that a packet which cannot be read to its end changes neither
mask nor flag.  A packet that fails after one of its questions asked for a service breaks this:
only sending clears the masks.
-/

namespace Mdns

open Runs List
open Option (bind_some map_some some.inj)

/-! ## Runs of the responder -/

/-- What happens to a responder: a packet comes in; it announces or probes on its own, which
marks services first; probing goes on; the application changes the configuration. -/
inductive Event where
  | packet (pkt : Packet)
  | sends (mark : ServiceState → BitVec 8) (p : SendParameter) (netifs : List IPAddress)
  | setProbing (status : ProbingStatus)
  | setServiceProbing (i : Nat) (status : ProbingStatus)
  | setHostname (hostname : Option (List UInt8))
  | setService (i : Nat) (change : Service → Service)
  | addService (service : Service) (callback : Bool)
  | removeService (i : Nat)

def Responder.one (r : Responder) (i : Nat) (f : ServiceState → ServiceState) : Responder :=
  { r with services := r.services.modify i f }

def Event.step (leftover : Leftover) : Event → Responder → Responder
  | .packet pkt, r => (parseMessage leftover pkt r).2
  | .sends mark p netifs, r =>
    ((r.each fun s => s.withMask (mark s)).sendMDNSMessage leftover p none netifs).2
  | .setProbing status, r => { r with probing := status }
  | .setServiceProbing i status, r => r.one i fun s => { s with probing := status }
  | .setHostname hostname, r => { r with hostname := hostname }
  | .setService i change, r => r.one i fun s =>
    { s with service := { change s.service with replyMask := s.service.replyMask } }
  | .addService service callback, r =>
    { r with services :=
        r.services ++ [⟨{ service with replyMask := 0 }, .waitingForData, false, callback⟩] }
  | .removeService i, r => { r with services := r.services.eraseIdx i }

def reply (leftover : Leftover) (pkt : Packet) (r : Responder) : List Datagram :=
  (parseMessage leftover pkt r).1

/-- The responder with the same configuration and the same states of probing, and no past. -/
def Responder.fresh (r : Responder) : Responder :=
  { r with
    tiebreakNeeded := false
    services := r.services.map fun s => { s.withMask 0 with tiebreakNeeded := false }
    txBuffer := [] }

/-- The masks and the flags of the services, and the flag of the host. -/
def Responder.marks (r : Responder) : Bool × List (BitVec 8 × Bool) :=
  (r.tiebreakNeeded, r.services.map fun s => (s.service.replyMask, s.tiebreakNeeded))

theorem Packet.start_le (pkt : Packet) : 0 ≤ pkt.bytes.length := Nat.zero_le _

def queryOf (pkt : Packet) : Option (MsgHeader × Rx) :=
  match readMDNSMsgHeader ⟨pkt.bytes, 0, pkt.start_le⟩ with
  | none => none
  | some ((header, standard), rx) => if standard ∧ ¬header.qr then some (header, rx) else none

def parses (pkt : Packet) (r : Responder) : Bool :=
  (queryOf pkt).any fun q => (readQuery pkt q.1 q.2 r).1

/-- **What a past must not do.**  The reply to a packet is the one of a responder without a
past, and a packet that cannot be read to its end leaves masks and flags as they were. -/
def NoResidue (leftover : Leftover) (start : Responder) (events : List Event) : Prop :=
  ∀ front pkt back, events = front ++ .packet pkt :: back →
    reply leftover pkt (after (Event.step leftover) front start) =
        reply leftover pkt (after (Event.step leftover) front start).fresh ∧
      (parses pkt (after (Event.step leftover) front start) = false →
        (after (Event.step leftover) (front ++ [.packet pkt]) start).marks =
          (after (Event.step leftover) front start).marks)

/-! ## What fits -/

def questionsRead : Nat → Rx → List RRHeader
  | 0, _ => []
  | n + 1, rx =>
    match readRRQuestion rx with
    | none => []
    | some (q, rx) => q.1 :: questionsRead n rx

def AsksNothing (header : MsgHeader) (rx : Rx) (r : Responder) : Prop :=
  ∀ h ∈ questionsRead header.qdCount rx, ∀ s ∈ r.services, s.probing = .done →
    replyMaskForService h s.service = 0

/-- The events that leave nothing behind.  A packet can be read to its end, and then any answer
can be composed; or it asks for no service before it fails.  What the responder sends on its own
can be composed. -/
def Event.Fits : Event → Responder → Prop
  | .packet pkt, r => ∀ header rx, queryOf pkt = some (header, rx) →
    if (readQuery pkt header rx r).1 then r.names.Composable else AsksNothing header rx r
  | .sends _ p _, r => r.names.Composable ∧ p.Brief
  | _, _ => True

/-! ## Clean responders -/

/-- No mask, no open race, and nothing in the output buffer. -/
structure Responder.Clean (r : Responder) : Prop where
  host : r.tiebreakNeeded = false
  masks : ∀ s ∈ r.services, s.service.replyMask = 0
  races : ∀ s ∈ r.services, s.tiebreakNeeded = false
  buffer : r.txBuffer = []

theorem Responder.clean_fresh (r : Responder) : r.fresh.Clean where
  host := rfl
  masks s hs := by
    obtain ⟨old, -, rfl⟩ := mem_map.mp hs
    rfl
  races s hs := by
    obtain ⟨old, -, rfl⟩ := mem_map.mp hs
    rfl
  buffer := rfl

variable {s : ServiceState}

variable {mask : BitVec 8}

theorem ServiceState.withMask_self
    (h : s.service.replyMask = mask) : s.withMask mask = s := by
  subst h
  rfl

variable {r : Responder}

theorem Responder.Clean.fresh_eq (h : r.Clean) : r.fresh = r := by
  have hservices : r.services.map (fun s => { s.withMask 0 with tiebreakNeeded := false }) =
      r.services := by
    refine (map_congr_left fun s hs => ?_).trans (map_id _)
    rw [ServiceState.withMask_self (h.masks s hs), ← h.races s hs]
    rfl
  unfold fresh
  rw [hservices, ← h.host, ← h.buffer]

theorem Responder.Clean.marks_eq (h : r.Clean) :
    r.marks = (false, List.replicate r.services.length (0, false)) := by
  refine Prod.ext h.host (eq_replicate_iff.mpr ⟨length_map _, fun e he => ?_⟩)
  obtain ⟨s, hs, rfl⟩ := mem_map.mp he
  exact Prod.ext (h.masks s hs) (h.races s hs)

/-! ## Reading a query -/

def Keeps (r r' : Responder) : Prop :=
  r'.txBuffer = r.txBuffer ∧ r'.names.bare = r.names.bare

variable {r' : Responder}

theorem Keeps.trans {r'' : Responder} (h : Keeps r r') (h' : Keeps r' r'') : Keeps r r'' :=
  ⟨h'.1.trans h.1, h'.2.trans h.2⟩

theorem Keeps.length (h : Keeps r r') :
    r'.services.length = r.services.length := by
  have hlen := congrArg (fun cfg => cfg.services.length) h.2
  simpa [Names.bare, Responder.names] using hlen

theorem Keeps.composable (h : Keeps r r') (hr : r.names.Composable) :
    r'.names.Composable := by
  rw [← Names.composable_bare, h.2]
  exact Names.composable_bare.mpr hr

def SameService (s s' : ServiceState) : Prop := (s'.withMask 0).service = (s.withMask 0).service

theorem Keeps.each {r : Responder} {f : ServiceState → ServiceState}
    (hf : ∀ s, SameService s (f s)) : Keeps r (r.each f) := by
  refine ⟨rfl, ?_⟩
  unfold Names.bare Responder.names Responder.each
  simp only [map_map]
  exact congrArg (Names.mk r.hostname) (map_congr_left fun s _ => hf s)

theorem cancelServices_services (l : List ServiceState) :
    (cancelServices l).map ServiceState.service = l.map ServiceState.service := by
  induction l with
  | nil => rfl
  | cons s rest ih =>
    rw [cancelServices]
    split
    · rfl
    · rw [map_cons, ih, map_cons]
      rfl

variable {l : List ServiceState}

theorem mem_cancelServices (h : s ∈ cancelServices l) :
    ∃ old ∈ l, s.service = old.service := by
  induction l with
  | nil => cases h
  | cons old rest ih =>
    rw [cancelServices] at h
    split at h
    · rcases mem_cons.mp h with rfl | h
      · exact ⟨old, mem_cons_self, rfl⟩
      · exact ⟨s, mem_cons_of_mem _ h, rfl⟩
    · rcases mem_cons.mp h with rfl | h
      · exact ⟨old, mem_cons_self, rfl⟩
      · obtain ⟨old', hmem, heq⟩ := ih h
        exact ⟨old', mem_cons_of_mem _ hmem, heq⟩

theorem Parse.unicastQuestion_responder (pkt : Packet) (header : MsgHeader) (q : RRHeader × Bool)
    (st : Parse) : (st.unicastQuestion pkt header q).2.responder = st.responder := by
  unfold unicastQuestion
  split
  · dsimp only
    split
    · split <;> rfl
    · rfl
  · rfl

theorem Parse.question_responder (pkt : Packet) (header : MsgHeader) (q : RRHeader × Bool)
    (st : Parse) : (st.question pkt header q).2.responder =
      (st.hostQuestion pkt q.1).responder.each fun s => s.question q.1 :=
  unicastQuestion_responder pkt header q _

theorem questionLoop_keeps (pkt : Packet) (header : MsgHeader) (n : Nat) (rx : Rx) (st : Parse) :
    Keeps st.responder (questionLoop pkt header n rx st).2.responder := by
  induction n generalizing rx st with
  | zero => exact ⟨rfl, rfl⟩
  | succ n ih =>
    rw [questionLoop]
    split
    · exact ⟨rfl, rfl⟩
    · next q rx' _ =>
        have hstep : Keeps st.responder (st.question pkt header q).2.responder := by
          rw [Parse.question_responder]
          exact @Keeps.each (st.hostQuestion pkt q.1).responder _ fun _ => rfl
        split
        · next st' heq =>
            rw [heq] at hstep
            exact hstep
        · next st' heq =>
            rw [heq] at hstep
            exact hstep.trans (ih rx' st')

theorem Responder.hostTiebreak_keeps (pkt : Packet) (known : RRAnswer) (r : Responder) :
    Keeps r (r.hostTiebreak pkt known) := by
  unfold hostTiebreak
  split
  · split
    · split
      · exact ⟨rfl, rfl⟩
      · split
        · refine ⟨rfl, congrArg Names.bare (congrArg (Names.mk r.hostname) ?_)⟩
          show (if r.callback then r.services else cancelServices r.services).map _ = _
          split
          · rfl
          · exact cancelServices_services _
        · exact ⟨rfl, rfl⟩
    · exact ⟨rfl, rfl⟩
  · exact ⟨rfl, rfl⟩

theorem ServiceState.tiebreak_service (hostname : Option (List UInt8)) (known : RRAnswer)
    (s : ServiceState) : (s.tiebreak hostname known).service = s.service := by
  unfold tiebreak
  split
  · split
    · split
      · rfl
      · split <;> rfl
    · rfl
  · rfl

theorem ServiceState.known_same (hostname : Option (List UInt8)) (known : RRAnswer)
    (s : ServiceState) : SameService s (s.known hostname known) := by
  unfold ServiceState.known
  dsimp only
  split
  · split <;> rfl
  · rfl

theorem Parse.answer_keeps (pkt : Packet) (known : RRAnswer) (st : Parse) :
    Keeps st.responder (st.answer pkt known).responder := by
  unfold answer
  split
  · refine (Responder.hostTiebreak_keeps pkt known st.responder).trans (Keeps.each fun s => ?_)
    show { ((s.known _ known).tiebreak _ known).service with replyMask := 0 } = _
    rw [ServiceState.tiebreak_service]
    exact s.known_same _ known
  · exact ⟨rfl, rfl⟩

theorem answerLoop_keeps (pkt : Packet) (n : Nat) (rx : Rx) (st : Parse) :
    Keeps st.responder (answerLoop pkt n rx st).2.responder := by
  induction n generalizing rx st with
  | zero => exact ⟨rfl, rfl⟩
  | succ n ih =>
    rw [answerLoop]
    split
    · exact ⟨rfl, rfl⟩
    · exact (st.answer_keeps pkt _).trans (ih _ _)

theorem readQuery_keeps (pkt : Packet) (header : MsgHeader) (rx : Rx) (r : Responder) :
    Keeps r (readQuery pkt header rx r).2.responder := by
  have hquestions := questionLoop_keeps pkt header header.qdCount rx (Parse.start r)
  unfold readQuery
  split
  · next st heq =>
      rw [heq] at hquestions
      exact hquestions
  · next rx' st heq =>
      rw [heq] at hquestions
      exact hquestions.trans (answerLoop_keeps pkt _ rx' st)

/-! ## Packets that ask for no service -/

/-- No answer of a service is planned, and the services are those of `r`. -/
def Quiet (r : Responder) (st : Parse) : Prop :=
  ∀ s ∈ st.responder.services, s.service.replyMask = 0 ∧
    ∃ old ∈ r.services, s.service = old.service ∧ s.probing = old.probing

variable {h : RRHeader}

theorem ServiceState.question_quiet
    (hzero : s.service.replyMask = 0)
    (hasks : s.probing = .done → replyMaskForService h s.service = 0) :
    (s.question h).service = s.service := by
  have hmask : s.service.replyMask |||
      (if s.probing = .done then replyMaskForService h s.service else 0) = 0 := by
    rw [hzero]
    split
    · next hdone => rw [hasks hdone]; rfl
    · rfl
  show { s.service with replyMask := s.service.replyMask |||
    (if s.probing = .done then replyMaskForService h s.service else 0) } = s.service
  rw [hmask, ← hzero]

variable {st : Parse}

theorem Quiet.question (hquiet : Quiet r st) (pkt : Packet)
    (header : MsgHeader) (q : RRHeader × Bool)
    (hasks : ∀ s ∈ r.services, s.probing = .done → replyMaskForService q.1 s.service = 0) :
    Quiet r (st.question pkt header q).2 := by
  intro s hs
  rw [Parse.question_responder] at hs
  obtain ⟨prev, hprev, rfl⟩ := mem_map.mp hs
  obtain ⟨hzero, old, hold, hservice, hprobing⟩ := hquiet prev hprev
  have hsame : (prev.question q.1).service = prev.service :=
    ServiceState.question_quiet hzero fun hdone => by
      rw [hservice]
      exact hasks old hold (hprobing ▸ hdone)
  rw [hsame]
  exact ⟨hzero, old, hold, hservice, hprobing⟩

theorem questionLoop_quiet {r : Responder} {pkt : Packet} {header : MsgHeader} {n : Nat}
    {rx : Rx} {st : Parse} (hquiet : Quiet r st)
    (hasks : ∀ h ∈ questionsRead n rx, ∀ s ∈ r.services, s.probing = .done →
      replyMaskForService h s.service = 0) :
    Quiet r (questionLoop pkt header n rx st).2 := by
  induction n generalizing rx st with
  | zero => exact hquiet
  | succ n ih =>
    rw [questionsRead] at hasks
    rw [questionLoop]
    cases hread : readRRQuestion rx with
    | none => exact hquiet
    | some read =>
      obtain ⟨q, rx'⟩ := read
      rw [hread] at hasks
      obtain ⟨hfirst, hrest⟩ := forall_mem_cons.mp hasks
      have hstep := hquiet.question pkt header q hfirst
      dsimp only
      split
      · next st' heq =>
          rw [heq] at hstep
          exact hstep
      · next st' heq =>
          rw [heq] at hstep
          exact ih hstep hrest

def Unasked (r : Responder) : Prop := ∀ s ∈ r.services, s.service.replyMask = 0

variable {hostname : Option (List UInt8)}

theorem ServiceState.known_unasked {known : RRAnswer}
    (h : s.service.replyMask = 0) : s.known hostname known = s := by
  have hfound : ¬(s.service.replyMask &&& replyMaskForService known.header s.service ≠ 0 ∧
      serviceTTL / 2 ≤ known.ttl) := by
    rw [h]
    exact fun hne => hne.1 (BitVec.zero_and)
  unfold ServiceState.known
  dsimp only
  rw [if_neg hfound]

theorem Unasked.hostTiebreak (h : Unasked r) (pkt : Packet) (known : RRAnswer) :
    Unasked (r.hostTiebreak pkt known) := by
  unfold Responder.hostTiebreak
  split
  · split
    · split
      · exact h
      · split
        · intro s hs
          change s ∈ (if r.callback then r.services else cancelServices r.services) at hs
          split at hs
          · exact h s hs
          · obtain ⟨old, hold, heq⟩ := mem_cancelServices hs
            rw [heq]
            exact h old hold
        · exact h
    · exact h
  · exact h

theorem Unasked.answer (h : Unasked st.responder) (pkt : Packet)
    (known : RRAnswer) : Unasked (st.answer pkt known).responder := by
  unfold Parse.answer
  split
  · intro s hs
    obtain ⟨prev, hprev, rfl⟩ := mem_map.mp hs
    have hzero := h.hostTiebreak pkt known prev hprev
    rw [ServiceState.known_unasked hzero, ServiceState.tiebreak_service]
    exact hzero
  · exact h

variable {pkt : Packet} {rx : Rx}

theorem Unasked.answerLoop {n : Nat}
    (h : Unasked st.responder) : Unasked (answerLoop pkt n rx st).2.responder := by
  induction n generalizing rx st with
  | zero => exact h
  | succ n ih =>
    rw [Mdns.answerLoop]
    split
    · exact h
    · exact ih (h.answer pkt _)

theorem readQuery_unasked {header : MsgHeader}
    (hclean : r.Clean) (hasks : AsksNothing header rx r) :
    Unasked (readQuery pkt header rx r).2.responder := by
  have hstart : Quiet r (Parse.start r) :=
    fun s hs => ⟨hclean.masks s hs, s, hs, rfl, rfl⟩
  have hquestions := @questionLoop_quiet r pkt header _ rx _ hstart hasks
  unfold readQuery
  split
  · next st heq =>
      rw [heq] at hquestions
      exact fun s hs => (hquestions s hs).1
  · next rx' st heq =>
      rw [heq] at hquestions
      exact Unasked.answerLoop fun s hs => (hquestions s hs).1

/-! ## The questions of a reply -/

def Askable (domain : List UInt8) : Prop := domain ≠ [] ∧ domain.length ≤ domainMaxLength

instance (domain : List UInt8) : Decidable (Askable domain) :=
  inferInstanceAs (Decidable (_ ∧ _))

theorem isDomain_not {domain : List UInt8} {built : Option (List UInt8)}
    (hbuilt : ∀ name, built = some name → Askable name) (h : ¬Askable domain) :
    isDomain domain built = false := by
  cases built with
  | none => rfl
  | some name =>
    obtain ⟨hne, hle⟩ := hbuilt name rfl
    refine Bool.eq_false_iff.mpr fun heq => h ?_
    have hlen : domain.length = name.length :=
      of_decide_eq_true (Bool.and_eq_true_iff.mp heq).1
    refine ⟨fun hnil => hne ?_, hlen ▸ hle⟩
    rw [hnil] at hlen
    exact length_eq_zero_iff.mp hlen.symm

theorem buildDomain_askable {cfg : Names} {key : DomainKey} {name : List UInt8}
    (h : buildDomain cfg key = some name) : Askable name := by
  obtain ⟨a, rest, hcons, -⟩ := buildDomain_head h
  exact ⟨by simp [hcons], (buildDomain_some h).2.2⟩

theorem replyMaskForHost_not {netifs : List IPAddress}
    (hnot : ¬Askable h.domain) : replyMaskForHost netifs hostname h = 0 := by
  have hhost : isDomain h.domain (buildDomainForHost hostname) = false :=
    isDomain_not (fun name hname => @buildDomain_askable ⟨hostname, []⟩ .host name hname) hnot
  have hreverse : (netifs.any fun ip => isDomain h.domain (buildDomainForReverseIP4 ip)) =
      false := by
    refine any_eq_false.mpr fun ip _ => ?_
    obtain ⟨name, hname, hask⟩ := buildDomainForReverseIP4_some ip
    rw [isDomain_not (fun name' hname' => some.inj (hname.symm.trans hname') ▸ hask) hnot]
    exact Bool.false_ne_true
  unfold replyMaskForHost
  rw [hhost, hreverse, Bool.and_false, Bool.false_and]
  split <;> rfl

theorem replyMaskForService_not {s : Service} (hnot : ¬Askable h.domain) :
    replyMaskForService h s = 0 := by
  have hservice : ∀ includeName, isDomain h.domain (buildDomainForService s includeName) = false :=
    fun includeName => isDomain_not (fun name hname =>
      @buildDomain_askable ⟨none, [s]⟩ (.service 0 includeName) name hname) hnot
  have hdnssd : isDomain h.domain buildDomainForDNSSD = false := by
    have hask : ∃ name, buildDomainForDNSSD = some name ∧ Askable name := ⟨_, rfl, by decide⟩
    obtain ⟨name, hname, hask⟩ := hask
    exact isDomain_not (fun _ hname' => some.inj (hname.symm.trans hname') ▸ hask) hnot
  unfold replyMaskForService
  rw [hservice, hservice, hdnssd]
  simp only [Bool.false_and, flagIf, Bool.false_eq_true, if_false]
  split <;> rfl

theorem foldl_or_eq_zero :
    l.foldl (fun mask s => mask ||| s.service.replyMask) mask = 0 ↔
      mask = 0 ∧ ∀ s ∈ l, s.service.replyMask = 0 := by
  induction l generalizing mask with
  | nil => simp
  | cons s rest ih =>
    have hor : mask ||| s.service.replyMask = 0 ↔ mask = 0 ∧ s.service.replyMask = 0 :=
      BitVec.or_eq_zero_iff
    rw [foldl_cons, ih, forall_mem_cons, hor, and_assoc]

theorem Parse.question_nothing (hr : Unasked r)
    (hnot : ¬Askable h.domain) :
    (((Parse.start r).hostQuestion pkt h).serviceQuestion h).send.hostReplyMask = 0 ∧
      (((Parse.start r).hostQuestion pkt h).serviceQuestion h).replies = 0 := by
  have hhost : ((0 : BitVec 8) ||| if r.probing = .done then
      replyMaskForHost pkt.netifs r.hostname h else 0) = 0 := by
    rw [replyMaskForHost_not hnot, ite_self]
    exact BitVec.or_zero
  refine ⟨hhost, foldl_or_eq_zero.mpr ⟨hhost, fun s hs => ?_⟩⟩
  obtain ⟨prev, hprev, rfl⟩ := mem_map.mp hs
  rw [ServiceState.question_quiet (hr prev hprev) fun _ => replyMaskForService_not hnot]
  exact hr prev hprev

variable {p : SendParameter}

theorem SendParameter.brief_of_none (h : p.questions = []) : p.Brief :=
  ⟨by rw [h]; exact Nat.zero_le _, by rw [h]; exact fun _ hq => by cases hq⟩

theorem Parse.unicastQuestion_brief {header : MsgHeader} {q : RRHeader × Bool}
    (hst : st.send.questions = [])
    (hasked : ¬Askable q.1.domain → st.send.hostReplyMask = 0 ∧ st.replies = 0) :
    (st.unicastQuestion pkt header q).2.send.Brief := by
  have hnone : st.send.Brief := SendParameter.brief_of_none hst
  have hflush : SendParameter.Brief { st.send with cacheFlush := false } :=
    SendParameter.brief_of_none hst
  unfold unicastQuestion
  split
  · dsimp only
    split
    · next hlegacy =>
        split
        · have hask : Askable q.1.domain := by
            refine Decidable.byContradiction fun hnot => ?_
            obtain ⟨hzero, hzero'⟩ := hasked hnot
            exact hlegacy.2.2.elim (fun h => h hzero) fun h => h hzero'
          exact ⟨Nat.le_refl 1, forall_mem_singleton.mpr hask⟩
        · exact hflush
    · exact hflush
  · exact hnone

theorem answerLoop_questions (pkt : Packet) (n : Nat) (rx : Rx) (st : Parse) :
    (answerLoop pkt n rx st).2.send.questions = st.send.questions := by
  induction n generalizing rx st with
  | zero => rfl
  | succ n ih =>
    rw [answerLoop]
    split
    · rfl
    · next known rx' _ =>
        rw [ih, Parse.answer]
        split <;> rfl

theorem questionLoop_questions {header : MsgHeader} (hone : header.qdCount ≠ 1)
    {n : Nat} (hst : st.send.questions = []) :
    (questionLoop pkt header n rx st).2.send.questions = [] := by
  induction n generalizing rx st with
  | zero => exact hst
  | succ n ih =>
    rw [questionLoop]
    split
    · exact hst
    · next q rx' _ =>
        have hstep : (st.question pkt header q).2.send.questions = [] := by
          unfold Parse.question Parse.unicastQuestion
          split
          · dsimp only
            rw [if_neg fun h => hone h.2.1]
            exact hst
          · exact hst
        split
        · next st' heq =>
            rw [heq] at hstep
            exact hstep
        · next st' heq =>
            rw [heq] at hstep
            exact ih hstep

/-- **A reply has at most one question**, with a domain of ours. -/
theorem readQuery_brief {header : MsgHeader}
    (hr : Unasked r) : (readQuery pkt header rx r).2.reply.Brief := by
  have hquestions : (questionLoop pkt header header.qdCount rx (Parse.start r)).2.send.Brief := by
    by_cases hone : header.qdCount = 1
    · rw [hone]
      unfold questionLoop
      split
      · exact SendParameter.brief_of_none rfl
      · next q rx' _ =>
          have hstep : ((Parse.start r).question pkt header q).2.send.Brief :=
            Parse.unicastQuestion_brief rfl fun hnot => Parse.question_nothing hr hnot
          split
          · next st' heq =>
              rw [heq] at hstep
              exact hstep
          · next st' heq =>
              rw [heq] at hstep
              exact hstep
    · exact SendParameter.brief_of_none (questionLoop_questions hone rfl)
  unfold readQuery
  split
  · next st heq =>
      rw [heq] at hquestions
      exact ⟨hquestions.one, hquestions.domain⟩
  · next rx' st heq =>
      rw [heq] at hquestions
      have hsame := answerLoop_questions pkt (header.anCount + header.nsCount + header.arCount)
        rx' st
      exact ⟨by rw [Parse.reply, hsame]; exact hquestions.one,
        by rw [Parse.reply, hsame]; exact hquestions.domain⟩

/-! ## Steps -/

variable {leftover : Leftover}

theorem Responder.transmit_clean (hr : r.names.Composable)
    (hbuffer : r.txBuffer = []) (hp : p.Brief) (ip : IPAddress)
    (destination : Destination) : (r.transmit leftover p ip destination).2 = r := by
  obtain ⟨out, hout⟩ := prepare_composable hr hp ip
  unfold transmit
  rw [hout]
  show { r with txBuffer := [] } = r
  rw [← hbuffer]

theorem Responder.multicast_clean (hr : r.names.Composable)
    (hbuffer : r.txBuffer = []) (hp : p.Brief) (netifs : List IPAddress) :
    (r.multicast leftover p netifs).2 = r := by
  induction netifs with
  | nil => rfl
  | cons ip rest ih =>
    show ((r.transmit leftover p ip (.multicast ip)).2.multicast leftover p rest).2 = r
    rw [transmit_clean hr hbuffer hp]
    exact ih

theorem Responder.sendMDNSMessage_clean {r : Responder} (hr : r.names.Composable)
    (hbuffer : r.txBuffer = []) {p : SendParameter} (hp : p.Brief)
    (unicast : Option (IPAddress × Destination)) (netifs : List IPAddress) :
    (r.sendMDNSMessage leftover p unicast netifs).2 = r.each fun s => s.withMask 0 := by
  unfold sendMDNSMessage
  cases unicast with
  | none => exact congrArg (each · _) (multicast_clean hr hbuffer hp netifs)
  | some target => exact congrArg (each · _) (transmit_clean hr hbuffer hp target.1 target.2)

theorem parseMessage_eq (pkt : Packet) (r : Responder) : parseMessage leftover pkt r =
    (queryOf pkt).elim ([], r) fun q => parseQuery leftover pkt q.1 q.2 r := by
  unfold parseMessage queryOf
  rcases readMDNSMsgHeader ⟨pkt.bytes, 0, Nat.zero_le _⟩ with _ | ⟨⟨header, standard⟩, rx⟩
  · rfl
  · dsimp only
    split <;> rfl

theorem parseQuery_unsent {header : MsgHeader}
    (h : ¬((readQuery pkt header rx r).1 ∧ (readQuery pkt header rx r).2.replyNeeded ≠ 0)) :
    parseQuery leftover pkt header rx r =
      ([], (readQuery pkt header rx r).2.responder.resetTiebreaks) := by
  unfold parseQuery
  dsimp only
  rw [if_neg h]

theorem parseQuery_sent {header : MsgHeader}
    (h : (readQuery pkt header rx r).1 ∧ (readQuery pkt header rx r).2.replyNeeded ≠ 0) :
    (parseQuery leftover pkt header rx r).2 =
      ((readQuery pkt header rx r).2.responder.sendMDNSMessage leftover
        (readQuery pkt header rx r).2.reply ((readQuery pkt header rx r).2.unicastTo pkt)
        pkt.netifs).2.resetTiebreaks := by
  unfold parseQuery
  dsimp only
  rw [if_pos h]

theorem Responder.clean_resetTiebreaks (hmasks : Unasked r)
    (hbuffer : r.txBuffer = []) : r.resetTiebreaks.Clean where
  host := rfl
  masks s hs := by
    obtain ⟨old, hold, rfl⟩ := mem_map.mp hs
    exact hmasks old hold
  races s hs := by
    obtain ⟨old, -, rfl⟩ := mem_map.mp hs
    rfl
  buffer := hbuffer

theorem Responder.unasked_withMask (r : Responder) : Unasked (r.each fun s => s.withMask 0) := by
  intro s hs
  obtain ⟨old, -, rfl⟩ := mem_map.mp hs
  rfl

theorem parseQuery_clean {header : MsgHeader}
    (h : r.Clean)
    (hfits : if (readQuery pkt header rx r).1 then r.names.Composable
      else AsksNothing header rx r) : (parseQuery leftover pkt header rx r).2.Clean := by
  have hkeeps := readQuery_keeps pkt header rx r
  have hbuffer : (readQuery pkt header rx r).2.responder.txBuffer = [] :=
    hkeeps.1.trans h.buffer
  cases hread : (readQuery pkt header rx r).1 with
  | false =>
    rw [hread] at hfits
    rw [parseQuery_unsent fun hand => Bool.false_ne_true (hread.symm.trans hand.1)]
    exact Responder.clean_resetTiebreaks (readQuery_unasked h hfits) hbuffer
  | true =>
    rw [hread, if_pos rfl] at hfits
    by_cases hneeded : (readQuery pkt header rx r).2.replyNeeded = 0
    · rw [parseQuery_unsent fun hand => hand.2 hneeded]
      exact Responder.clean_resetTiebreaks (foldl_or_eq_zero.mp hneeded).2 hbuffer
    · rw [parseQuery_sent ⟨hread, hneeded⟩, Responder.sendMDNSMessage_clean
        (hkeeps.composable hfits) hbuffer (readQuery_brief h.masks)]
      exact Responder.clean_resetTiebreaks (Responder.unasked_withMask _) hbuffer

theorem Responder.mem_one {i : Nat} {f : ServiceState → ServiceState} {s : ServiceState}
    (hs : s ∈ (r.one i f).services) : ∃ j old, r.services[j]? = some old ∧ old ∈ r.services ∧
      (i = j ∧ s = f old ∨ i ≠ j ∧ s = old) := by
  obtain ⟨j, hj⟩ := mem_iff_getElem?.mp hs
  change (r.services.modify i f)[j]? = some s at hj
  rw [getElem?_modify] at hj
  obtain ⟨old, hold, rfl⟩ := Option.map_eq_some_iff.mp hj
  refine ⟨j, old, hold, mem_of_getElem? hold, ?_⟩
  by_cases hij : i = j
  · exact .inl ⟨hij, if_pos hij⟩
  · exact .inr ⟨hij, if_neg hij⟩

theorem Responder.Clean.one (h : r.Clean) (i : Nat)
    {f : ServiceState → ServiceState}
    (hf : ∀ s, (f s).service.replyMask = s.service.replyMask ∧
      (f s).tiebreakNeeded = s.tiebreakNeeded) : (r.one i f).Clean := by
  refine ⟨h.host, fun s hs => ?_, fun s hs => ?_, h.buffer⟩
  · obtain ⟨-, old, -, hold, ⟨-, rfl⟩ | ⟨-, rfl⟩⟩ := mem_one hs
    · exact (hf old).1.trans (h.masks old hold)
    · exact h.masks s hold
  · obtain ⟨-, old, -, hold, ⟨-, rfl⟩ | ⟨-, rfl⟩⟩ := mem_one hs
    · exact (hf old).2.trans (h.races old hold)
    · exact h.races s hold

/-- **One step.**  What fits leaves a clean responder clean. -/
theorem Event.step_clean (e : Event) (r : Responder) (h : r.Clean) (hfits : e.Fits r) :
    (e.step leftover r).Clean := by
  cases e with
  | packet pkt =>
    show (parseMessage leftover pkt r).2.Clean
    rw [parseMessage_eq]
    cases hquery : queryOf pkt with
    | none => exact h
    | some q => exact parseQuery_clean h (hfits q.1 q.2 hquery)
  | sends mark p netifs =>
    have hmarked : Keeps r (r.each fun s => s.withMask (mark s)) := Keeps.each fun _ => rfl
    have heq := @Responder.sendMDNSMessage_clean leftover _ (hmarked.composable hfits.1)
      h.buffer _ hfits.2 none netifs
    show (((r.each fun s => s.withMask (mark s)).sendMDNSMessage leftover p none
      netifs).2).Clean
    rw [heq]
    refine ⟨h.host, Responder.unasked_withMask _, fun s hs => ?_, h.buffer⟩
    obtain ⟨marked, hmem, rfl⟩ := mem_map.mp hs
    obtain ⟨old, hold, rfl⟩ := mem_map.mp hmem
    exact h.races old hold
  | setProbing status => exact ⟨h.host, h.masks, h.races, h.buffer⟩
  | setServiceProbing i status => exact h.one i fun _ => ⟨rfl, rfl⟩
  | setHostname hostname => exact ⟨h.host, h.masks, h.races, h.buffer⟩
  | setService i change => exact h.one i fun _ => ⟨rfl, rfl⟩
  | addService service callback =>
    refine ⟨h.host, fun s hs => ?_, fun s hs => ?_, h.buffer⟩
    · rcases mem_append.mp hs with hs | hs
      · exact h.masks s hs
      · rw [mem_singleton.mp hs]
    · rcases mem_append.mp hs with hs | hs
      · exact h.races s hs
      · rw [mem_singleton.mp hs]
  | removeService i =>
    exact ⟨h.host, fun s hs => h.masks s (mem_of_mem_eraseIdx hs),
      fun s hs => h.races s (mem_of_mem_eraseIdx hs), h.buffer⟩

theorem step_packet_length (h : parses pkt r = false) :
    ((Event.packet pkt).step leftover r).services.length = r.services.length := by
  show (parseMessage leftover pkt r).2.services.length = _
  rw [parseMessage_eq]
  unfold parses at h
  cases hquery : queryOf pkt with
  | none => rfl
  | some q =>
    rw [hquery] at h
    change (readQuery pkt q.1 q.2 r).1 = false at h
    show (parseQuery leftover pkt q.1 q.2 r).2.services.length = _
    rw [parseQuery_unsent fun hand => Bool.false_ne_true (h.symm.trans hand.1)]
    show (map _ (readQuery pkt q.1 q.2 r).2.responder.services).length = _
    rw [length_map, (readQuery_keeps pkt q.1 q.2 r).length]

def probedHost : Responder :=
  ⟨some [101, 115, 112], .done, false, true,
    [⟨⟨some [97], some [104, 116, 116, 112], some [116, 99, 112], 80, [], [], 0⟩, .done, false,
      true⟩], []⟩

def typeLabels : List (List UInt8) := [[95, 104, 116, 116, 112], [95, 116, 99, 112], scpcLocal]

def typeQuery (questions : UInt8) : Packet :=
  ⟨[0, 0, 0, 0, 0, questions, 0, 0, 0, 0, 0, 0] ++ encodeLabels typeLabels ++ [0, 0, 12, 0, 1],
    5353, true, fun _ => 9, fun _ => 10, [fun _ => 10], []⟩

def typeQueryRx (questions : UInt8) : Rx :=
  ⟨(typeQuery questions).bytes, 12, (by decide : 12 ≤ 34)⟩

def typeQuestion : RRHeader := ⟨encodeLabels typeLabels ++ [0], ⟨12, 1⟩⟩

theorem readRRQuestion_typeQuery (questions : UInt8) :
    ∃ rx, readRRQuestion (typeQueryRx questions) = some ((typeQuestion, false), rx) ∧
      rx.rest = [] := by
  have hread := @readRRDomainLoop_encoded 6 typeLabels (by unfold Labels; decide)
    (typeQueryRx questions)
    [0, 12, 0, 1] rfl [] 0 0 (by decide)
  have hbuf := (readRRDomain_bounds (typeQueryRx questions)).2.2.1
  unfold readRRQuestion readRRHeader readRRDomain domainMaxRedirection at *
  generalize readRRDomainLoop (6 + 1) (typeQueryRx questions) [] 0 0 = r at hread hbuf ⊢
  obtain ⟨ok, ⟨buf, offset, hle⟩, name, high, jumps⟩ := r
  obtain ⟨rfl, rfl, hoffset⟩ := hread
  change offset = 30 at hoffset
  change buf = (typeQuery questions).bytes at hbuf
  subst hoffset hbuf
  have htype : Rx.number 2 ⟨(typeQuery questions).bytes, 30, hle⟩ =
      some (12, ⟨(typeQuery questions).bytes, 32, (by decide : 32 ≤ 34)⟩) := rfl
  have hclass : Rx.number 2 ⟨(typeQuery questions).bytes, 32, (by decide : 32 ≤ 34)⟩ =
      some (1, ⟨(typeQuery questions).bytes, 34, Nat.le_refl 34⟩) := rfl
  dsimp only
  rw [if_pos rfl, htype, bind_some, hclass]
  have hclassIN : (1 &&& 0x7FFF) = 1 := by decide
  have hmulticast : decide ((1 &&& 0x8000) ≠ 0) = false := by decide
  simp only [map_some, hclassIN, hmulticast]
  exact ⟨⟨(typeQuery questions).bytes, 34, Nat.le_refl 34⟩, rfl, rfl⟩

theorem readRRQuestion_end (h : rx.rest = []) : readRRQuestion rx = none := by
  have hread : readRRDomain rx = ⟨true, rx, [0], 1, 0⟩ :=
    @readRRDomainLoop_end 6 rx [] 0 0 h rfl
  have htype : rx.number 2 = none := by
    unfold Rx.number
    rw [Rx.readBuffer_fst rx (by decide), h, if_neg (by decide)]
    rfl
  unfold readRRQuestion readRRHeader
  rw [hread]
  dsimp only
  rw [if_pos rfl, htype]
  rfl

theorem queryOf_typeQuery (questions : UInt8) : queryOf (typeQuery questions) =
    some (⟨0, false, false, questions.toNat, 0, 0, 0⟩, typeQueryRx questions) := by
  have hhead : readMDNSMsgHeader ⟨(typeQuery questions).bytes, 0, Nat.zero_le _⟩ =
      some ((⟨0, false, false, 0 * 256 + questions.toNat, 0, 0, 0⟩, true),
        typeQueryRx questions) := by
    have hid : Rx.number 2 ⟨(typeQuery questions).bytes, 0, Nat.zero_le _⟩ =
        some (0, ⟨(typeQuery questions).bytes, 2, (by decide : 2 ≤ 34)⟩) := rfl
    have hflags : ∀ (k : Nat) (h : k < 34), k = 2 ∨ k = 3 →
        Rx.number 1 ⟨(typeQuery questions).bytes, k, Nat.le_of_lt h⟩ =
          some (0, ⟨(typeQuery questions).bytes, k + 1, h⟩) := by
      rintro k h (rfl | rfl) <;> rfl
    have hqd : Rx.number 2 ⟨(typeQuery questions).bytes, 4, (by decide : 4 ≤ 34)⟩ =
        some (0 * 256 + questions.toNat,
          ⟨(typeQuery questions).bytes, 6, (by decide : 6 ≤ 34)⟩) := rfl
    have hcount : ∀ (k : Nat) (h : k + 2 ≤ 34), k = 6 ∨ k = 8 ∨ k = 10 →
        Rx.number 2 ⟨(typeQuery questions).bytes, k, Nat.le_trans (Nat.le_add_right k 2) h⟩ =
          some (0, ⟨(typeQuery questions).bytes, k + 2, h⟩) := by
      rintro k h (rfl | rfl | rfl) <;> rfl
    unfold readMDNSMsgHeader
    rw [hid, bind_some, hflags 2 (by decide) (.inl rfl), bind_some,
      hflags 3 (by decide) (.inr rfl), bind_some, hqd, bind_some,
      hcount 6 (by decide) (.inl rfl), bind_some, hcount 8 (by decide) (.inr (.inl rfl)),
      bind_some, hcount 10 (by decide) (.inr (.inr rfl)), map_some]
    have hqr : decide ((0 &&& 0x80) ≠ 0) = false := by decide
    have haa : decide ((0 &&& 0x04) ≠ 0) = false := by decide
    have hopcode : decide (((0 &&& 0x78) &&& 0x0F) = 0) = true := by decide
    simp only [hqr, haa, hopcode]
    rfl
  unfold queryOf
  rw [hhead, Nat.zero_mul, Nat.zero_add]
  rfl

theorem typeQuestion_asks : replyMaskForService typeQuestion
    ⟨some [97], some [104, 116, 116, 112], some [116, 99, 112], 80, [], [], 0⟩ ≠ 0 := by
  have hbuilt : buildDomainForService
      ⟨some [97], some [104, 116, 116, 112], some [116, 99, 112], 80, [], [], 0⟩ false =
        some (encodeLabels typeLabels ++ [0]) := rfl
  have hsame : sameLabels (encodeLabels typeLabels ++ [0]) (encodeLabels typeLabels ++ [0]) =
      true := by
    show sameLabels [5, 95, 104, 116, 116, 112, 4, 95, 116, 99, 112, 5, 108, 111, 99, 97, 108, 0]
      [5, 95, 104, 116, 116, 112, 4, 95, 116, 99, 112, 5, 108, 111, 99, 97, 108, 0] = true
    simp [sameLabels, sameText]
  have hdomain : isDomain typeQuestion.domain (some (encodeLabels typeLabels ++ [0])) = true := by
    show domainEq (encodeLabels typeLabels ++ [0]) (encodeLabels typeLabels ++ [0]) = true
    unfold domainEq
    rw [hsame, Bool.and_true]
    exact decide_eq_true rfl
  intro hzero
  unfold replyMaskForService at hzero
  rw [hbuilt, hdomain, if_pos (by decide)] at hzero
  have hflag := (BitVec.or_eq_zero_iff.mp
    (BitVec.or_eq_zero_iff.mp (BitVec.or_eq_zero_iff.mp hzero).1).1).2
  exact absurd hflag (by decide)

def typeAsked (questions : UInt8) : Parse :=
  ((Parse.start probedHost).hostQuestion (typeQuery questions) typeQuestion).serviceQuestion
    typeQuestion

theorem question_typeQuery (questions : UInt8) (header : MsgHeader) :
    (Parse.start probedHost).question (typeQuery questions) header (typeQuestion, false) =
      (true, typeAsked questions) := by
  unfold Parse.question Parse.unicastQuestion
  rw [if_neg fun h => h.1.elim (fun hport => hport rfl) Bool.false_ne_true]
  rfl

theorem readQuery_one : readQuery (typeQuery 1) ⟨0, false, false, 1, 0, 0, 0⟩ (typeQueryRx 1)
    probedHost = (true, typeAsked 1) := by
  obtain ⟨rx, hread, -⟩ := readRRQuestion_typeQuery 1
  have hloop : questionLoop (typeQuery 1) ⟨0, false, false, 1, 0, 0, 0⟩ 1 (typeQueryRx 1)
      (Parse.start probedHost) = (some rx, typeAsked 1) := by
    simp only [questionLoop, hread, question_typeQuery]
  unfold readQuery
  rw [hloop]
  rfl

theorem readQuery_two : readQuery (typeQuery 2) ⟨0, false, false, 2, 0, 0, 0⟩ (typeQueryRx 2)
    probedHost = (false, typeAsked 2) := by
  obtain ⟨rx, hread, hend⟩ := readRRQuestion_typeQuery 2
  have hloop : questionLoop (typeQuery 2) ⟨0, false, false, 2, 0, 0, 0⟩ 2 (typeQueryRx 2)
      (Parse.start probedHost) = (none, typeAsked 2) := by
    simp only [questionLoop, hread, question_typeQuery, readRRQuestion_end hend]
  unfold readQuery
  rw [hloop]

end Mdns
