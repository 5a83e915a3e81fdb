import RalioFirmware.Mdns.Answers

/-!
# Probing, and what is said before it is done

The host and each service probe for their names: three probes, and if none of them meets an
answer, the name is the responder's to answer for.  The states of probing, which `Responder`
leaves open, are set here by the steps of the program; with them goes, for each name, what
happened to it since it was last changed.

The records with which a response claims a name are the address of the host, and the records
SRV and TXT of a service.  `ProbeEvent.Fits` says which events let none be claimed before its
time.
-/

namespace Mdns

open CString Runs

deriving instance DecidableEq for Stake

/-! ## The state -/

/-- What `stcProbeInformation` has besides the state: `m_u8SentCount`, and whether the timeout
is set. -/
structure ProbeCount where
  sentCount : Nat
  timer : Bool

/-- What happened to a name since it was last changed: how many probes were sent for it, and
whether an answer or a lost race spoke against it. -/
structure History where
  probes : Nat
  lost : Bool

/-- A responder with its probing; `autoName` says which services took their names from the
host. -/
structure Prober where
  responder : Responder
  autoName : Nat → Bool
  count : Stake → ProbeCount
  history : Stake → History

/-- `MDNS_PROBE_COUNT` and `MDNS_ANNOUNCE_COUNT`. -/
def probeCount : Nat := 3
def announceCount : Nat := 8

/-- A message that is composed: in which state, with which parameters and from which address. -/
structure Sending where
  st : Prober
  p : SendParameter
  ip : IPAddress

def put {α : Type} (f : Stake → α) (stake : Stake) (value : α) : Stake → α :=
  fun other => if other = stake then value else f other

def Responder.setStatus (r : Responder) (stake : Stake) (status : ProbingStatus) : Responder :=
  match stake with
  | .host => { r with probing := status }
  | .service i => r.one i fun s => { s with probing := status }

namespace Prober

/-- The name of a stake was changed, and is to be probed for. -/
def renamed (st : Prober) (stake : Stake) : Prober :=
  { st with
    responder := st.responder.setStatus stake .readyToStart
    history := put st.history stake ⟨0, false⟩ }

/-- What reading a packet makes of the states.  Where probing is cancelled, `clear` resets the
counter and the timeout, and the name is lost; so it is by an answer that speaks against it. -/
def heard (st : Prober) (r : Responder) (against : Stake → Bool) : Prober :=
  { st with
    responder := r
    count := fun stake =>
      if r.status stake = some .waitingForData then ⟨0, false⟩ else st.count stake
    history := fun stake =>
      { st.history stake with
        lost := (st.history stake).lost || against stake ||
          (r.status stake = some .waitingForData &&
            st.responder.status stake ≠ some .waitingForData) } }

/-! ## Sending -/

variable (leftover : Leftover)

/-- `_sendMDNSMessage`. -/
def send (p : SendParameter) (unicast : Option (IPAddress × Destination))
    (netifs : List IPAddress) (st : Prober) : List Sending × Prober :=
  ((match unicast with
    | some (ip, _) => [⟨st, p, ip⟩]
    | none => netifs.map fun ip => ⟨st, p, ip⟩),
    { st with responder := (st.responder.sendMDNSMessage leftover p unicast netifs).2 })

/-- What `_sendMDNSMessage_Multicast` returns: whether the message was composed for the last
interface and taken by it. -/
def sends (p : SendParameter) (netifs : List IPAddress) (taken : Bool) (st : Prober) : Bool :=
  netifs.getLast?.any fun ip => (prepareMDNSMessage st.responder.names p ip).isSome && taken

/-- The services as `_sendServiceProbe` and `_announceService` mark them. -/
def marked (st : Prober) (stake : Stake) (mask : BitVec 8) : Prober :=
  match stake with
  | .host => st
  | .service i => { st with responder := st.responder.one i fun s => s.withMask mask }

def probeParameter (stake : Stake) (domain : List UInt8) : SendParameter :=
  ⟨0, if stake = .host then contentFlagA else 0, false, false, false, false, false,
    [⟨domain, ⟨rrTypeANY, 0x8000 ||| rrClassIN⟩⟩]⟩

def probes (stake : Stake) (netifs : List IPAddress) (taken : Bool) (st : Prober) : Bool :=
  (st.responder.domain stake).any fun domain =>
    (st.marked stake (contentFlagSRV ||| contentFlagPTR_NAME)).sends
      (probeParameter stake domain) netifs taken

/-- `_sendHostProbe` and `_sendServiceProbe`. -/
def sendProbe (stake : Stake) (netifs : List IPAddress) (st : Prober) : List Sending × Prober :=
  match st.responder.domain stake with
  | some domain =>
    (st.marked stake (contentFlagSRV ||| contentFlagPTR_NAME)).send leftover
      (probeParameter stake domain) none netifs
  | none => ([], st)

def announceParameter (stake : Stake) (announce : Bool) : SendParameter :=
  ⟨0, if stake = .host then contentFlagA ||| contentFlagPTR_IP4 else 0, false, true, true,
    !announce, true, []⟩

/-- `_announce` without the services, and `_announceService`, for a name that is done. -/
def announce (stake : Stake) (announce : Bool) (netifs : List IPAddress) (st : Prober) :
    List Sending × Prober :=
  (st.marked stake
      (contentFlagPTR_TYPE ||| contentFlagPTR_NAME ||| contentFlagSRV ||| contentFlagTXT)).send
    leftover (announceParameter stake announce) none netifs

/-! ## The timers -/

/-- What an update depends on: whose timeouts have expired, whose probes the network takes, and
the interfaces. -/
structure Env where
  expired : Stake → Bool
  taken : Stake → Bool
  netifs : List IPAddress

/-- One stake's part of `_updateProbeStatus`, and whether it goes on. -/
def update (env : Env) (stake : Stake) (st : Prober) : (List Sending × Prober) × Bool :=
  let count := st.count stake
  match st.responder.status stake with
  | some .readyToStart =>
    (([], { st with
      responder := st.responder.setStatus stake .inProgress
      count := put st.count stake { count with timer := true } }), true)
  | some .inProgress =>
    if count.timer && env.expired stake then
      if probeCount > count.sentCount then
        let sent := st.sendProbe leftover stake env.netifs
        let out := st.probes stake env.netifs (env.taken stake)
        ((sent.1, { sent.2 with
          count := put st.count stake ⟨count.sentCount + 1, true⟩
          history := put st.history stake { st.history stake with
            probes := (st.history stake).probes + out.toNat } }), out)
      else
        (([], { st with
          responder := st.responder.setStatus stake .done
          count := put st.count stake ⟨0, true⟩ }), true)
    else (([], st), true)
  | some .done =>
    if count.timer && env.expired stake then
      let sent := st.announce leftover stake true env.netifs
      ((sent.1, { sent.2 with
        count := put st.count stake
          ⟨count.sentCount + 1, decide (announceCount > count.sentCount + 1)⟩ }), true)
    else (([], st), true)
  | some .waitingForData => (([], st), true)
  | none => (([], st), true)

def updates (env : Env) : List Stake → Prober → List Sending × Prober
  | [], st => ([], st)
  | stake :: rest, st =>
    let now := st.update leftover env stake
    if now.2 then
      (now.1.1 ++ (updates env rest now.1.2).1, (updates env rest now.1.2).2)
    else now.1

def stakes (st : Prober) : List Stake :=
  .host :: (List.range st.responder.services.length).map .service

end Prober

/-! ## Responses of others -/

def skipQuestions : Nat → Rx → Option Rx
  | 0, rx => some rx
  | n + 1, rx => (readRRQuestion rx).bind fun q => skipQuestions n q.2

/-- The records that `_parseResponse` collects, the last one first. -/
def readResponse (pkt : Packet) (header : MsgHeader) (rx : Rx) : Option (List RRAnswer) :=
  (skipQuestions header.qdCount rx).bind fun rx =>
    (answersRead pkt.behind (header.anCount + header.nsCount + header.arCount) rx).map List.reverse

def responseOf (pkt : Packet) : Option (List RRAnswer) :=
  match readMDNSMsgHeader ⟨pkt.bytes, 0, pkt.start_le⟩ with
  | none => none
  | some ((header, standard), rx) =>
    if standard ∧ header.qr then readResponse pkt header rx else none

/-- One pass of `_processAnswers`, as far as it is about names that are probed for. -/
def Responder.conflicts (answers : List RRAnswer) (r : Responder) : Responder :=
  answers.foldl (fun r known => (r.hostConflict known).each fun s => s.conflict known) r

def Responder.conflictPasses (answers : List RRAnswer) : Nat → Responder → Responder
  | 0, r => r
  | n + 1, r => (r.conflicts answers).conflictPasses answers n

/-- The record speaks against a name: it gives an address for the host, or a place or items for
the instance. -/
def Responder.against (r : Responder) (known : RRAnswer) (stake : Stake) : Bool :=
  (match stake, known.data with
    | .host, .a _ => true
    | .service _, .txt _ => true
    | .service _, .srv _ _ _ _ => true
    | _, _ => false) && isDomain known.header.domain (r.domain stake)

namespace Prober

/-- `_hasProbesWaitingForAnswers`. -/
def probesWaiting (st : Prober) : Bool :=
  st.stakes.any fun stake =>
    st.responder.status stake = some .inProgress && decide (0 < (st.count stake).sentCount)

/-- An answer speaks against the name of a stake while it is probed for. -/
def contradicted (st : Prober) (answers : List RRAnswer) (stake : Stake) : Bool :=
  decide (st.responder.status stake ≠ some .done) && decide (0 < (st.history stake).probes) &&
    answers.any fun known => st.responder.against known stake

/-- A response comes in.  `_parseResponse` looks into it only if something waits for answers;
`queries` says that a query does, and `more` is how often the records are passed over again. -/
def response (answers : List RRAnswer) (queries : Bool) (more : Nat) (st : Prober) : Prober :=
  let r := if queries || st.probesWaiting then st.responder.conflictPasses answers (more + 1)
    else st.responder
  st.heard r (st.contradicted answers)

/-- A query comes in: `_parseQuery`. -/
def query (leftover : Leftover) (pkt : Packet) (header : MsgHeader) (rx : Rx) (st : Prober) :
    List Sending × Prober :=
  let read := readQuery pkt header rx st.responder
  let heard := st.heard read.2.responder fun _ => false
  let sent :=
    if read.1 ∧ read.2.replyNeeded ≠ 0 then
      heard.send leftover read.2.reply (read.2.unicastTo pkt) pkt.netifs
    else ([], heard)
  (sent.1, { sent.2 with responder := sent.2.responder.resetTiebreaks })

/-- `_parseMessage`. -/
def packet (leftover : Leftover) (pkt : Packet) (queries : Bool) (more : Nat) (st : Prober) :
    List Sending × Prober :=
  match queryOf pkt with
  | some (header, rx) => st.query leftover pkt header rx
  | none =>
    match responseOf pkt with
    | some answers => ([], st.response answers queries more)
    | none => ([], st)

/-! ## Names -/

def setName (name : List UInt8) (s : ServiceState) : ServiceState :=
  { s with service :=
      { s.service with name := if cstr name = [] then none else some (cstr name) } }

def renameService (name : List UInt8) (i : Nat) (st : Prober) : Prober :=
  ({ st with responder := st.responder.one i (setName name) } : Prober).renamed (.service i)

def autoNamed (st : Prober) : List Nat :=
  (List.range st.responder.services.length).filter st.autoName

/-- `setHostname`.  A name that does not fit leaves none. -/
def setHostname (name : List UInt8) (st : Prober) : Prober :=
  if labelMaxLength ≥ (cstr name).length then
    st.autoNamed.foldl (fun st i => st.renameService name i)
      (({ st with
        responder := { st.responder with hostname := some (cstr name) } } : Prober).renamed .host)
  else { st with responder := { st.responder with hostname := none } }

def setServiceName (i : Nat) (name : List UInt8) (st : Prober) : Prober :=
  if labelMaxLength ≥ (cstr name).length ∧ i < st.responder.services.length then
    st.renameService name i
  else st

/-- Move the values of the services one place on, with a new first one. -/
def pushed {α : Type} (f : Stake → α) (value : α) : Stake → α
  | .host => f .host
  | .service 0 => value
  | .service (i + 1) => f (.service i)

def dropped {α : Type} (f : Stake → α) (i : Nat) : Stake → α
  | .host => f .host
  | .service j => if j < i then f (.service j) else f (.service (j + 1))

/-- `addService`: it becomes the first one. -/
def addService (service : Service) (auto callback : Bool) (st : Prober) : Prober where
  responder := { st.responder with services :=
    ⟨{ service with replyMask := 0 }, .readyToStart, false, callback⟩ :: st.responder.services }
  autoName i := match i with
    | 0 => auto
    | i + 1 => st.autoName i
  count := pushed st.count ⟨0, false⟩
  history := pushed st.history ⟨0, false⟩

/-- `removeService`: a service that is done says goodbye, and is then removed. -/
def removeService (leftover : Leftover) (i : Nat) (taken : Bool) (netifs : List IPAddress)
    (st : Prober) : List Sending × Prober :=
  if st.responder.status (.service i) = some .done then
    let sent := st.announce leftover (.service i) false netifs
    let out := (st.marked (.service i) (contentFlagPTR_TYPE ||| contentFlagPTR_NAME |||
      contentFlagSRV ||| contentFlagTXT)).sends (announceParameter (.service i) false) netifs taken
    (sent.1, if out then
        { responder :=
            { sent.2.responder with services := sent.2.responder.services.eraseIdx i }
          autoName := fun j => if j < i then st.autoName j else st.autoName (j + 1)
          count := dropped st.count i
          history := dropped st.history i }
      else sent.2)
  else ([], st)

/-- `_restart`: all names are probed for again. -/
def restart (st : Prober) : Prober :=
  { st with
    responder :=
      { st.responder with
        probing := .readyToStart
        tiebreakNeeded := false
        services := st.responder.services.map fun s =>
          { s with probing := .readyToStart, tiebreakNeeded := false } }
    count := fun _ => ⟨0, false⟩
    history := fun _ => ⟨0, false⟩ }

/-- `begin`: a host with a name, and no services yet. -/
def begun (hostname : List UInt8) (callback : Bool) : Prober where
  responder := ⟨some hostname, .readyToStart, false, callback, [], []⟩
  autoName _ := false
  count _ := ⟨0, false⟩
  history _ := ⟨0, false⟩

end Prober

inductive ProbeEvent where
  | packet (pkt : Packet) (queries : Bool) (more : Nat)
  | update (env : Prober.Env)
  | setHostname (name : List UInt8)
  | setServiceName (i : Nat) (name : List UInt8)
  | addService (service : Service) (auto callback : Bool)
  | removeService (i : Nat) (taken : Bool) (netifs : List IPAddress)
  | restart

namespace ProbeEvent

def step (leftover : Leftover) (e : ProbeEvent) (st : Prober) : List Sending × Prober :=
  match e with
  | .packet pkt queries more => st.packet leftover pkt queries more
  | .update env => st.updates leftover env st.stakes
  | .setHostname name => ([], st.setHostname name)
  | .setServiceName i name => ([], st.setServiceName i name)
  | .addService service auto callback => ([], st.addService service auto callback)
  | .removeService i taken netifs => st.removeService leftover i taken netifs
  | .restart => ([], st.restart)

def next (leftover : Leftover) (e : ProbeEvent) (st : Prober) : Prober := (e.step leftover st).2

end ProbeEvent

/-! ## Claims -/

/-- The stake that a record claims: the host by its address, a service by the records SRV and
TXT of its instance. -/
def Record.claimed (r : Record) : Option Stake :=
  match r.name with
  | .domain .host _ => if r.attributes.rrType = rrTypeA then some .host else none
  | .domain (.service i true) _ =>
    if r.attributes.rrType = rrTypeSRV ∨ r.attributes.rrType = rrTypeTXT then some (.service i)
    else none
  | _ => none

def Sending.Claims (s : Sending) (stake : Stake) : Prop :=
  s.p.response = true ∧ ∃ r, Item.record r ∈
      answerItems s.st.responder.names s.p s.ip ++ additionalItems s.st.responder.names s.p s.ip ∧
    r.claimed = some stake

/-- The name of the stake is done: all probes were sent for it, and nothing spoke against it
since it was last changed. -/
structure Prober.Verified (st : Prober) (stake : Stake) : Prop where
  status : st.responder.status stake = some .done
  probes : probeCount ≤ (st.history stake).probes
  kept : (st.history stake).lost = false

/-- **What probing is for.**  In a run, a response claims only names that were verified. -/
def ClaimsVerified (leftover : Leftover) (start : Prober) (events : List ProbeEvent) : Prop :=
  ∀ front e back, events = front ++ e :: back →
    ∀ s ∈ (e.step leftover (after (ProbeEvent.next leftover) front start)).1, ∀ stake,
      s.Claims stake → s.st.Verified stake

/-! ## What fits -/

namespace Prober

/-- If the host loses its name and no application is told, so that the services lose theirs,
none of them has answers marked. -/
def LosesUnmarked (r r' : Responder) : Prop :=
  r.probing = .inProgress → r.callback = false → r'.probing = .waitingForData →
    ∀ s ∈ r'.services, s.service.replyMask = 0

/-- The host is done, or no answer is planned that the host's address is added to. -/
def HostSettled (r : Responder) : Prop :=
  r.probing = .done ∨ ∀ s ∈ r.services,
    asked s.service.replyMask (contentFlagPTR_NAME ||| contentFlagSRV) = false

/-- No answers are marked for the service, and it has announced nothing yet. -/
def MayRename (st : Prober) (i : Nat) : Prop :=
  (st.count (.service i)).sentCount = 0 ∧
    ∀ s, st.responder.services[i]? = some s → s.service.replyMask = 0

/-- A probe that is due goes out; an announcement of a service that is due finds the host
done. -/
def UpdateFits (env : Env) (stake : Stake) (st : Prober) : Prop :=
  (st.count stake).timer = true → env.expired stake = true →
    (st.responder.status stake = some .inProgress →
      (st.count stake).sentCount < probeCount →
        st.probes stake env.netifs (env.taken stake) = true) ∧
    (st.responder.status stake = some .done → st.responder.probing = .done)

def UpdatesFit (leftover : Leftover) (env : Env) : List Stake → Prober → Prop
  | [], _ => True
  | stake :: rest, st =>
    st.UpdateFits env stake ∧ UpdatesFit leftover env rest (st.update leftover env stake).1.2

end Prober

/-- The events that claim no name before it is verified, and leave none to be claimed. -/
def ProbeEvent.Fits (leftover : Leftover) (e : ProbeEvent) (st : Prober) : Prop :=
  match e with
  | .packet pkt queries more =>
    (∀ header rx, queryOf pkt = some (header, rx) →
      let read := readQuery pkt header rx st.responder
      (read.1 = true → Prober.HostSettled read.2.responder) ∧
        Prober.LosesUnmarked st.responder read.2.responder) ∧
      ∀ answers, responseOf pkt = some answers → (queries || st.probesWaiting) = true →
        Prober.LosesUnmarked st.responder (st.responder.conflictPasses answers (more + 1))
  | .update env => Prober.UpdatesFit leftover env st.stakes st
  | .setHostname name => labelMaxLength ≥ (cstr name).length →
    (st.count .host).sentCount = 0 ∧ ∀ i ∈ st.autoNamed, st.MayRename i
  | .setServiceName i name => labelMaxLength ≥ (cstr name).length → st.MayRename i
  | .addService _ _ _ => True
  | .removeService i _ _ =>
    st.responder.status (.service i) = some .done → st.responder.probing = .done
  | .restart => ∀ s ∈ st.responder.services, s.service.replyMask = 0

end Mdns
