import RalioFirmware.Mesh.Transmission

/-!
# What an ESP-NOW node does with a transmission

The node keeps four logs: the messages that have arrived in part, the requests that were received,
the requests that were sent, and the responses that wait.  Every map of the library is a function
here; the sketch, with its filter and its handlers, is what the instances of the mesh say at the
time.

There is memory for the strings.  What a peer request asks of the connections is not looked at
here, only what it does to the session keys.
-/

namespace Mesh

open Http

/-! ## `MessageData` -/

structure MessageData where
  transmissionsReceived : Nat
  transmissionsExpected : Nat
  totalMessage : Text
deriving DecidableEq, Repr

namespace MessageData

def getTransmissionsRemaining (d : MessageData) : Nat :=
  (d.transmissionsExpected + (256 - d.transmissionsReceived)) % 256

def addToMessage (s : Settings) (f : Frame) (d : MessageData) :
    Except Fault (Option MessageData) :=
  if f.transmissionsRemaining + 1 = d.getTransmissionsRemaining then
    if f.part.length ≤ s.getMaxMessageBytesPerTransmission then
      .ok (some { d with
        transmissionsReceived := (d.transmissionsReceived + 1) % 256
        totalMessage := d.totalMessage ++ f.part })
    else .error .assertFailed
  else .ok none

def ofTransmission (s : Settings) (f : Frame) : Except Fault MessageData := do
  let d : MessageData := ⟨0, (f.transmissionsRemaining + 1) % 256, []⟩
  return (← d.addToMessage s f).getD d

def ofText (message : Text) (transmissionsRemaining : Nat) : MessageData :=
  ⟨1, (transmissionsRemaining + 1) % 256, message⟩

end MessageData

/-! ## Nodes -/

/-- The callbacks of an instance of `EspnowMeshBackend`. -/
structure MeshInstance where
  acceptsUnverifiedRequests : Bool
  /-- Nothing, or the text that the filter has made of the first transmission. -/
  broadcastFilter : Text → Option Text
  requestHandler : Text → Text

structure Surroundings where
  freeHeap : Nat
  criticalHeapLevel : Nat
  instances : Nat → MeshInstance
  espnowRequestManager : Option Nat
  /-- `ESP.random()`. -/
  random : Nat

structure EspnowNode where
  /-- By the address and type, and the message ID. -/
  receivedEspnowTransmissions : Nat × Nat → Option MessageData
  /-- By the address and the message ID. -/
  receivedRequests : Nat × Nat → Bool
  /-- The instances that sent a request. -/
  sentRequests : Nat × Nat → Option Nat
  responsesToSend : List ResponseData
  encryptedConnections : List EncryptedConnectionLog

/-- A message that a request handler or a response handler gets. -/
structure HandedMessage where
  meshInstance : Nat
  macaddr : Mac
  messageType : MessageType
  messageID : Nat
  totalMessage : Text
deriving DecidableEq, Repr

def uint64BroadcastMac : Nat := 281474976710655

namespace EspnowNode

def init : EspnowNode := ⟨fun _ => none, fun _ => false, fun _ => none, [], []⟩

/-! ## The logs -/

def setTransmission (key : Nat × Nat) (d : Option MessageData) (n : EspnowNode) : EspnowNode :=
  { n with
    receivedEspnowTransmissions := fun k =>
      if k = key then d else n.receivedEspnowTransmissions k }

def requestReceived (requestMac requestID : Nat) (n : EspnowNode) : Bool :=
  n.receivedRequests (requestMac, requestID)

def storeReceivedRequest (senderBSSID messageID : Nat) (n : EspnowNode) : EspnowNode :=
  { n with receivedRequests := fun k => k = (senderBSSID, messageID) || n.receivedRequests k }

/-- `insert` leaves what is there. -/
def storeSentRequest (targetBSSID messageID owner : Nat) (n : EspnowNode) : EspnowNode :=
  { n with
    sentRequests := fun k =>
      if k = (targetBSSID, messageID) then some ((n.sentRequests k).getD owner)
      else n.sentRequests k }

def deleteSentRequest (requestMac requestID : Nat) (n : EspnowNode) : EspnowNode :=
  { n with
    sentRequests := fun k => if k = (requestMac, requestID) then none else n.sentRequests k }

/-- `clearOldLogEntries`, and the other places where entries are taken from the logs: those that
stay. -/
def keepEntries (transmissions requests sent : Nat × Nat → Bool) (n : EspnowNode) : EspnowNode :=
  { n with
    receivedEspnowTransmissions := fun k =>
      if transmissions k then n.receivedEspnowTransmissions k else none
    receivedRequests := fun k => requests k && n.receivedRequests k
    sentRequests := fun k => if sent k then n.sentRequests k else none }

/-! ## Session keys -/

def connection (peerMac : Mac) (n : EspnowNode) : Option Nat :=
  n.encryptedConnections.findIdx? fun e => e.connectedTo peerMac

def modifyConnection (i : Nat) (f : EncryptedConnectionLog → EncryptedConnectionLog)
    (n : EspnowNode) : EspnowNode :=
  { n with encryptedConnections := n.encryptedConnections.modify i f }

/-- `incrementSessionKey`; the left half of the bits is not left empty. -/
def incrementSessionKey (s : Settings) (random sessionKey : Nat) (hashKey : List UInt8) : Nat :=
  let hmac := uint8ArrayToUint64 (s.hmac (uint64ToUint8Array sessionKey) hashKey)
  let newLeftmostBits := hmac / 4294967296 % 4294967296
  let newLeftmostBits :=
    if newLeftmostBits = 0 then random % 2147483648 + 2147483648 else newLeftmostBits
  newLeftmostBits * 4294967296 + (sessionKey + 1) % 4294967296

def incrementOwnSessionKey (s : Settings) (random : Nat) (e : EncryptedConnectionLog) :
    EncryptedConnectionLog :=
  { e with ownSessionKey := incrementSessionKey s random e.ownSessionKey e.hashKey }

def verifyPeerSessionKey (sessionKey : Nat) (peerMac : Mac) (messageType : UInt8)
    (n : EspnowNode) : Bool :=
  match (n.connection peerMac).bind (n.encryptedConnections[·]?) with
  | none => false
  | some e => usesEncryption sessionKey && (sessionKey = e.peerSessionKey ||
      (n.receivedEspnowTransmissions
        (createMacAndTypeValue (macToUint64 peerMac) messageType, sessionKey)).isSome)

/-- Whether the key was the one that is expected, and the node. -/
def synchronizePeerSessionKey (s : Settings) (random sessionKey : Nat) (peerMac : Mac)
    (n : EspnowNode) : Bool × EspnowNode :=
  match n.connection peerMac with
  | none => (false, n)
  | some i =>
    match n.encryptedConnections[i]? with
    | none => (false, n)
    | some e =>
      if usesEncryption sessionKey ∧ sessionKey = e.peerSessionKey then
        (true, n.modifyConnection i fun e => { e with
          peerSessionKey := incrementSessionKey s random sessionKey e.hashKey })
      else (false, n)

/-! ## `espnowReceiveCallback` -/

/-- What is stored of a transmission, and whether the callback goes on. -/
def storeTransmission (s : Settings) (m : MeshInstance) (messageType : MessageType)
    (key : Nat × Nat) (f : Frame) (n : EspnowNode) : Except Fault (EspnowNode × Bool) :=
  if f.messageStart then
    if messageType = .B then
      match n.receivedEspnowTransmissions key with
      | some _ => .ok (n, false)
      | none =>
        match m.broadcastFilter f.part with
        | none => .ok (n, false)
        | some message =>
          .ok (n.setTransmission key (some (.ofText message f.transmissionsRemaining)), true)
    else do
      let d ← MessageData.ofTransmission s f
      match n.receivedEspnowTransmissions key with
      | some _ => return (n, true)
      | none => return (n.setTransmission key (some d), true)
  else
    match n.receivedEspnowTransmissions key with
    | none => .ok (n, false)
    | some stored => do
      match ← stored.addToMessage s f with
      | some d => return (n.setTransmission key (some d), true)
      | none =>
        -- A part is missing, or was there already.
        let transmissionsRemainingExpected := (stored.getTransmissionsRemaining + 255) % 256
        if f.transmissionsRemaining < transmissionsRemainingExpected then
          return (n.setTransmission key none, false)
        else return (n, true)

def processMessage (s : Settings) (random : Nat) (m : MeshInstance) (messageType : MessageType)
    (macaddr : Mac) (messageID : Nat) (totalMessage : Text) (n : EspnowNode) :
    Except Fault EspnowNode :=
  match messageType with
  | .Q | .B =>
    let n := n.storeReceivedRequest (macToUint64 macaddr) messageID
    if (m.requestHandler totalMessage).length > 0 then
      .ok { n with responsesToSend := n.responsesToSend ++ [⟨macaddr, messageID⟩] }
    else .ok n
  | .A =>
    let n := n.deleteSentRequest (macToUint64 macaddr) messageID
    match n.connection macaddr with
    | none => .ok n
    | some i =>
      .ok (n.modifyConnection i fun e =>
        if e.ownSessionKey = messageID then
          { incrementOwnSessionKey s random e with desync := false }
        else e)
  | .S | .P | .C => .error .assertFailed

def espnowReceiveCallback (s : Settings) (env : Surroundings) (meshInstance : Nat)
    (messageType : MessageType) (macaddr : Mac) (f : Frame) (n : EspnowNode) :
    Except Fault (EspnowNode × Option HandedMessage) := do
  let m := env.instances meshInstance
  let key := (createMacAndTypeValue (macToUint64 macaddr) messageType.char, f.messageID)
  let (n, goesOn) ← n.storeTransmission s m messageType key f
  if ¬ goesOn ∨ f.transmissionsRemaining ≠ 0 then return (n, none)
  match n.receivedEspnowTransmissions key with
  | none => throw .assertFailed
  | some stored =>
    let n ← (n.setTransmission key none).processMessage s env.random m messageType macaddr
      f.messageID stored.totalMessage
    return (n, some ⟨meshInstance, macaddr, messageType, f.messageID, stored.totalMessage⟩)

/-! ## `espnowReceiveCallbackWrapper` -/

def receiveRequest (s : Settings) (env : Surroundings) (messageType : MessageType) (macaddr : Mac)
    (f : Frame) (n : EspnowNode) : Except Fault (EspnowNode × Option HandedMessage) :=
  if env.freeHeap ≤ env.criticalHeapLevel then .ok (n, none)
  else
    match env.espnowRequestManager with
    | none => .ok (n, none)
    | some currentEspnowRequestManager =>
      if n.requestReceived (macToUint64 macaddr) f.messageID then .ok (n, none)
      else if usesEncryption f.messageID then
        let (synchronized, n) := n.synchronizePeerSessionKey s env.random f.messageID macaddr
        if ¬ synchronized ∧ ¬ n.verifyPeerSessionKey f.messageID macaddr messageType.char then
          .ok (n, none)
        else n.espnowReceiveCallback s env currentEspnowRequestManager messageType macaddr f
      else n.espnowReceiveCallback s env currentEspnowRequestManager messageType macaddr f

/-- The address that a request was sent to which the frame answers, with the one that sent it. -/
def requestSender (macaddr : Mac) (f : Frame) (n : EspnowNode) : Option (Mac × Nat) :=
  let sentTo (mac : Mac) := n.sentRequests (macToUint64 mac, f.messageID)
  if usesEncryption f.messageID then (sentTo macaddr).map fun owner => (macaddr, owner)
  else
    match sentTo f.transmissionMac with
    | some owner => some (f.transmissionMac, owner)
    | none => ((sentTo macaddr).or (n.sentRequests (uint64BroadcastMac, f.messageID))).map
        fun owner => (macaddr, owner)

/-- What `handlePeerRequest` does to the session keys. -/
def handlePeerRequest (s : Settings) (random : Nat) (macaddr : Mac) (messageID : Nat)
    (n : EspnowNode) : EspnowNode :=
  if n.requestReceived (macToUint64 macaddr) messageID then n
  else ((n.storeReceivedRequest (macToUint64 macaddr) messageID).synchronizePeerSessionKey s random
    messageID macaddr).2

def receiveFrame (s : Settings) (env : Surroundings) (macaddr : Mac) (f : Frame)
    (n : EspnowNode) : Except Fault (EspnowNode × Option HandedMessage) :=
  match MessageType.ofChar f.messageType with
  | some .Q => n.receiveRequest s env .Q macaddr f
  | some .B => n.receiveRequest s env .B macaddr f
  | some .A =>
    match n.requestSender macaddr f with
    | none => .ok (n, none)
    | some (requestMac, owner) => n.espnowReceiveCallback s env owner .A requestMac f
  | some .S => .ok ((n.synchronizePeerSessionKey s env.random f.messageID macaddr).2, none)
  | some .P => .ok (n.handlePeerRequest s env.random macaddr f.messageID, none)
  | some .C => .ok (n, none)
  | none => .error .assertFailed

/-- The verification that an instance asks for which does not take unverified requests. -/
def verifies (env : Surroundings) (macaddr : Mac) (f : Frame) (n : EspnowNode) : Bool :=
  match env.espnowRequestManager with
  | none => true
  | some m => (env.instances m).acceptsUnverifiedRequests ||
      usesConstantSessionKey f.messageType ||
      n.verifyPeerSessionKey f.messageID macaddr f.messageType

def espnowReceiveCallbackWrapper (s : Settings) (env : Surroundings) (macaddr : Mac)
    (dataArray : List UInt8) (n : EspnowNode) :
    Except Fault (EspnowNode × Option HandedMessage) :=
  if dataArray.length < s.metadataSize then .ok (n, none)
  else if ¬ n.verifies env macaddr (Frame.read s dataArray) then .ok (n, none)
  else
    match Frame.decrypted s dataArray with
    | none => .ok (n, none)
    | some dataArray => n.receiveFrame s env macaddr (Frame.read s dataArray)

end EspnowNode

end Mesh
