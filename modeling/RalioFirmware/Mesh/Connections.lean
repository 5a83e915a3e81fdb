import RalioFirmware.Mesh.FloodingMesh

/-!
# The encrypted connections of an ESP-NOW node

The SDK keeps the peers that it encrypts for; the library keeps a vector with an entry for each of
them, one time tracker that tells when the vector has to be looked through, and the responses that
wait to be sent.  An entry with a time tracker is temporary.  While a transmission is in progress
nothing is removed: the entry is made to expire at once, and marked.

Time is counted in milliseconds since the start; the trackers see 32 bits of it.
-/

namespace Mesh

/-! ## `ExpiringTimeTracker` -/

structure ExpiringTimeTracker where
  start : Nat
  timeout : Nat
deriving DecidableEq, Repr

namespace ExpiringTimeTracker

def timeMax : Nat := 4294967294

def create (duration now : Nat) : ExpiringTimeTracker := ⟨now % 4294967296, duration⟩

def neverExpires (t : ExpiringTimeTracker) : Bool := t.timeout > timeMax

def elapsedTime (now : Nat) (t : ExpiringTimeTracker) : Nat :=
  (now % 4294967296 + (4294967296 - t.start)) % 4294967296

/-- `expiredOneShot`. -/
def expired (now : Nat) (t : ExpiringTimeTracker) : Bool :=
  t.timeout = 0 || (!t.neverExpires && t.elapsedTime now ≥ t.timeout)

def remainingDuration (now : Nat) (t : ExpiringTimeTracker) : Nat :=
  if t.expired now then 0 else (t.timeout + (4294967296 - t.elapsedTime now)) % 4294967296

def setRemainingDuration (remainingDuration now : Nat) (t : ExpiringTimeTracker) :
    ExpiringTimeTracker :=
  { t with timeout := (t.elapsedTime now + remainingDuration) % 4294967296 }

end ExpiringTimeTracker

/-! ## The data -/

structure EncryptedConnectionLog where
  peerStaMac : Mac
  peerApMac : Mac
  peerSessionKey : Nat
  ownSessionKey : Nat
  hashKey : List UInt8
  timeTracker : Option ExpiringTimeTracker
  desync : Bool
  scheduledForRemoval : Bool
deriving DecidableEq, Repr

/-- `ResponseData`, without the text. -/
structure ResponseData where
  recipientMac : Mac
  requestID : Nat
deriving DecidableEq, Repr

def maxEncryptedConnections : Nat := 6

def usesEncryption (messageID : Nat) : Bool := messageID / 4294967296 % 4294967296 ≠ 0

def EncryptedConnectionLog.connectedTo (peerMac : Mac) (e : EncryptedConnectionLog) : Bool :=
  peerMac = e.peerStaMac || peerMac = e.peerApMac

inductive EncryptedConnectionStatus where
  | MAX_CONNECTIONS_REACHED_SELF
  | API_CALL_FAILED
  | CONNECTION_ESTABLISHED
deriving DecidableEq, Repr

inductive EncryptedConnectionRemovalOutcome where
  | REMOVAL_FAILED
  | REMOVAL_SUCCEEDED
  | REMOVAL_SCHEDULED
deriving DecidableEq, Repr

/-- How a program does not go on: an assertion has failed, or a loop is still running. -/
inductive Halt where
  | assertFailed
  | running
deriving DecidableEq, Repr

structure ConnectionManager where
  now : Nat
  /-- The peers that are registered with the SDK. -/
  peers : List Mac
  encryptedConnections : List EncryptedConnectionLog
  soonestExpiring : Option ExpiringTimeTracker
  newRemovalsScheduled : Bool
  responsesToSend : List ResponseData
deriving DecidableEq, Repr

namespace ConnectionManager

def init : ConnectionManager := ⟨0, [], [], none, false, []⟩

/-- `getEncryptedConnectionIterator`. -/
def iterator (peerMac : Mac) (m : ConnectionManager) : Option Nat :=
  m.encryptedConnections.findIdx? fun e => e.connectedTo peerMac

def modify (i : Nat) (f : EncryptedConnectionLog → EncryptedConnectionLog)
    (m : ConnectionManager) : ConnectionManager :=
  { m with encryptedConnections := m.encryptedConnections.modify i f }

/-! ## Durations -/

/-- `updateSoonestExpiringConnectionTracker`, `tick` milliseconds after the remaining duration was
read off the clock. -/
def updateSoonestExpiringConnectionTracker (remainingDuration tick : Nat)
    (m : ConnectionManager) : ConnectionManager :=
  let m := { m with now := m.now + tick }
  match m.soonestExpiring with
  | none =>
    { m with soonestExpiring := some (ExpiringTimeTracker.create remainingDuration m.now) }
  | some tracker =>
    if remainingDuration < tracker.remainingDuration m.now then
      { m with soonestExpiring := some (ExpiringTimeTracker.create remainingDuration m.now) }
    else m

def withDuration (remainingDuration now : Nat) (e : EncryptedConnectionLog) :
    EncryptedConnectionLog :=
  { e with
    timeTracker := some (match e.timeTracker with
      | none => ExpiringTimeTracker.create remainingDuration now
      | some t => t.setRemainingDuration remainingDuration now)
    scheduledForRemoval := false }

def setRemainingDuration (i remainingDuration tick : Nat) (m : ConnectionManager) :
    ConnectionManager :=
  (m.modify i (withDuration remainingDuration m.now)).updateSoonestExpiringConnectionTracker
    remainingDuration tick

def removeDuration (i : Nat) (m : ConnectionManager) : ConnectionManager :=
  m.modify i fun e => { e with timeTracker := none, scheduledForRemoval := false }

/-- A duration of zero is over whenever its tracker starts. -/
def scheduleForRemoval (i : Nat) (m : ConnectionManager) : ConnectionManager :=
  { (m.setRemainingDuration i 0 0).modify i fun e => { e with scheduledForRemoval := true } with
    newRemovalsScheduled := true }

def temporaryEncryptedConnectionToPermanent (peerMac : Mac) (m : ConnectionManager) :
    ConnectionManager :=
  match m.iterator peerMac with
  | none => m
  | some i => if (m.encryptedConnections[i]?.bind (·.timeTracker)).isSome then m.removeDuration i
    else m

/-! ## Adding -/

/-- The session keys and the hash key of an entry that is there already. -/
def withKeys (peerSessionKey ownSessionKey : Nat) (hashKey : List UInt8)
    (e : EncryptedConnectionLog) : EncryptedConnectionLog :=
  { e with peerSessionKey, ownSessionKey, hashKey }

/-- `addEncryptedConnection`; `sdk` says whether `esp_now_add_peer` succeeds. -/
def addEncryptedConnection (peerStaMac peerApMac : Mac) (peerSessionKey ownSessionKey : Nat)
    (hashKey : List UInt8) (sdk : Bool) (m : ConnectionManager) :
    Except Halt (EncryptedConnectionStatus × ConnectionManager) :=
  if m.encryptedConnections.length ≤ maxEncryptedConnections then
    match m.iterator peerStaMac with
    | some i => .ok (.CONNECTION_ESTABLISHED,
        (m.temporaryEncryptedConnectionToPermanent peerStaMac).modify i
          (withKeys peerSessionKey ownSessionKey hashKey))
    | none =>
      if m.encryptedConnections.length = maxEncryptedConnections then
        .ok (.MAX_CONNECTIONS_REACHED_SELF, m)
      else if sdk then
        .ok (.CONNECTION_ESTABLISHED, { m with
          peers := m.peers ++ [peerStaMac]
          encryptedConnections := m.encryptedConnections ++ [⟨peerStaMac, peerApMac,
            peerSessionKey, ownSessionKey, hashKey, none, false, false⟩] })
      else .ok (.API_CALL_FAILED, m)
  else .error .assertFailed

def addTemporaryEncryptedConnection (peerStaMac peerApMac : Mac)
    (peerSessionKey ownSessionKey : Nat) (hashKey : List UInt8) (duration : Nat) (sdk : Bool)
    (tick : Nat) (m : ConnectionManager) :
    Except Halt (EncryptedConnectionStatus × ConnectionManager) :=
  if m.encryptedConnections.length ≤ maxEncryptedConnections then
    match m.iterator peerStaMac with
    | some i =>
      let m := m.modify i (withKeys peerSessionKey ownSessionKey hashKey)
      if (m.encryptedConnections[i]?.bind (·.timeTracker)).isSome then
        .ok (.CONNECTION_ESTABLISHED, m.setRemainingDuration i duration tick)
      else .ok (.CONNECTION_ESTABLISHED, m)
    | none => do
      let (result, m') ← m.addEncryptedConnection peerStaMac peerApMac peerSessionKey ownSessionKey
        hashKey sdk
      if result = .CONNECTION_ESTABLISHED then
        match m'.iterator peerStaMac with
        | none => throw .assertFailed
        | some i => return (result, m'.setRemainingDuration i duration tick)
      else return (result, m')
  else .error .assertFailed

/-! ## Removing -/

def deleteScheduledResponsesByRecipient (recipientMac : Mac) (encryptedOnly : Bool)
    (m : ConnectionManager) : ConnectionManager :=
  { m with responsesToSend := m.responsesToSend.filter fun r =>
      ¬ (r.recipientMac = recipientMac ∧ (¬ encryptedOnly ∨ usesEncryption r.requestID)) }

/-- `removeEncryptedConnectionUnprotected`; `sdk` says whether `esp_now_del_peer` succeeds.  With
the outcome comes the iterator that `erase` gives. -/
def removeEncryptedConnectionUnprotected (connectionIterator : Option Nat) (sdk : Bool)
    (m : ConnectionManager) :
    Except Halt (EncryptedConnectionRemovalOutcome × Option Nat × ConnectionManager) :=
  if m.encryptedConnections.length ≤ maxEncryptedConnections then
    match connectionIterator with
    | none => .ok (.REMOVAL_SUCCEEDED, none, m)
    | some i =>
      match m.encryptedConnections[i]? with
      | none => .ok (.REMOVAL_SUCCEEDED, none, m)
      | some e =>
        if sdk then
          let m := { m with
            peers := m.peers.filter fun mac => mac ≠ e.peerStaMac
            encryptedConnections := m.encryptedConnections.eraseIdx i }
          .ok (.REMOVAL_SUCCEEDED, some i, m.deleteScheduledResponsesByRecipient e.peerStaMac true)
        else .ok (.REMOVAL_FAILED, none, m)
  else .error .assertFailed

/-- `removeEncryptedConnection`; `mutexFree` says that no transmission is in progress. -/
def removeEncryptedConnection (peerMac : Mac) (mutexFree sdk : Bool) (m : ConnectionManager) :
    Except Halt (EncryptedConnectionRemovalOutcome × ConnectionManager) :=
  match m.iterator peerMac with
  | none => .ok (.REMOVAL_SUCCEEDED, m)
  | some i =>
    if mutexFree then do
      let (outcome, _, m') ← m.removeEncryptedConnectionUnprotected (some i) sdk
      return (outcome, m')
    else .ok (.REMOVAL_SCHEDULED, m.scheduleForRemoval i)

/-- The loop of `updateTemporaryEncryptedConnections`.  A removal that fails is tried again, as
often as the SDK says no. -/
def updateLoop (scheduledRemovalOnly : Bool) (tick : Nat) :
    Nat → List Bool → Nat → ConnectionManager → Except Halt ConnectionManager
  | 0, _, _, _ => .error .running
  | fuel + 1, sdk, i, m =>
    match m.encryptedConnections[i]? with
    | none => .ok m
    | some e =>
      match e.timeTracker with
      | none =>
        if e.scheduledForRemoval then .error .assertFailed
        else updateLoop scheduledRemovalOnly tick fuel sdk (i + 1) m
      | some timeTracker =>
        if timeTracker.expired m.now && (!scheduledRemovalOnly || e.scheduledForRemoval) then do
          let (_, resultingIterator, m') ← m.removeEncryptedConnectionUnprotected
            (m.iterator e.peerStaMac) (sdk.headD false)
          updateLoop scheduledRemovalOnly tick fuel sdk.tail (resultingIterator.getD i) m'
        else
          let m' := m.updateSoonestExpiringConnectionTracker
            (timeTracker.remainingDuration m.now) tick
          if e.scheduledForRemoval then .error .assertFailed
          else updateLoop scheduledRemovalOnly tick fuel sdk (i + 1) m'

def updateTemporaryEncryptedConnections (scheduledRemovalOnly : Bool) (tick fuel : Nat)
    (sdk : List Bool) (m : ConnectionManager) : Except Halt ConnectionManager := do
  let m' ← updateLoop scheduledRemovalOnly tick fuel sdk 0 { m with soonestExpiring := none }
  return { m' with newRemovalsScheduled := false }

def handlePostponedRemovals (tick fuel : Nat) (sdk : List Bool) (m : ConnectionManager) :
    Except Halt ConnectionManager :=
  if m.newRemovalsScheduled then m.updateTemporaryEncryptedConnections true tick fuel sdk
  else .ok m

/-- What `performEspnowMaintenance` does about the connections. -/
def performEspnowMaintenance (tick fuel : Nat) (sdk : List Bool) (m : ConnectionManager) :
    Except Halt ConnectionManager :=
  match m.soonestExpiring with
  | none => .ok m
  | some tracker =>
    if tracker.expired m.now then m.updateTemporaryEncryptedConnections false tick fuel sdk
    else .ok m

/-- `deactivateEspnow`, when `esp_now_deinit` succeeds: the SDK forgets its peers. -/
def deactivateEspnow (m : ConnectionManager) : ConnectionManager :=
  { m with
    peers := []
    encryptedConnections := []
    responsesToSend := []
    newRemovalsScheduled := false }

/-- A request is answered.  An encrypted one gets as far as the request handler only from a node
that there is a connection to. -/
def answer (mac : Mac) (requestID : Nat) (m : ConnectionManager) : ConnectionManager :=
  if usesEncryption requestID ∧ m.iterator mac = none then m
  else { m with responsesToSend := m.responsesToSend ++ [⟨mac, requestID⟩] }

end ConnectionManager

end Mesh
