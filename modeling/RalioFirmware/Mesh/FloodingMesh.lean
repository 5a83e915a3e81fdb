import RalioFirmware.Http.Text

/-!
# A node of the flooding mesh

A broadcast starts with the name of its mesh and the ID of the message, each closed by the
metadata delimiter.  The broadcast filter looks at the first transmission of what arrives; the
request handler gets the whole, takes the metadata off, asks the sketch whether the message goes
on, and puts the metadata back.  A log of message IDs keeps a message from being handled twice.

The log is a map, and a queue of iterators into it.  An iterator is the number of the map node
that it points at, and every allocation has a number of its own.
-/

namespace Mesh

open Http

inductive Fault where
  | assertFailed
  | danglingIterator
deriving DecidableEq, Repr

/-! ## Conversions -/

structure Mac where
  b0 : UInt8
  b1 : UInt8
  b2 : UInt8
  b3 : UInt8
  b4 : UInt8
  b5 : UInt8
deriving DecidableEq, Repr, Inhabited

def Mac.bytes (m : Mac) : List UInt8 := [m.b0, m.b1, m.b2, m.b3, m.b4, m.b5]

/-- `base36Chars`, as far as a hexadecimal digit reaches. -/
def hexChar (d : Nat) : UInt8 := if d < 10 then UInt8.ofNat (48 + d) else UInt8.ofNat (55 + d)

def uint8ArrayToHexString (bytes : List UInt8) : Text :=
  bytes.flatMap fun b => [hexChar (b.toNat / 16), hexChar (b.toNat % 16)]

def macToString (mac : Mac) : Text := uint8ArrayToHexString mac.bytes

/-- The bytes do not overlap, so `|` is `+`. -/
def macToUint64 (mac : Mac) : Nat :=
  mac.b0.toNat * 1099511627776 + mac.b1.toNat * 4294967296 + mac.b2.toNat * 16777216 +
    mac.b3.toNat * 65536 + mac.b4.toNat * 256 + mac.b5.toNat

def uint64ToMac (macValue : Nat) : Mac where
  b0 := UInt8.ofNat (macValue / 1099511627776)
  b1 := UInt8.ofNat (macValue / 4294967296)
  b2 := UInt8.ofNat (macValue / 16777216)
  b3 := UInt8.ofNat (macValue / 65536)
  b4 := UInt8.ofNat (macValue / 256)
  b5 := UInt8.ofNat macValue

/-- `base36CharValues`; `beside` is what the flash holds outside of the table. -/
def charValue (beside : UInt8 → UInt8) (c : UInt8) : Nat :=
  if c < 48 ∨ 122 < c then (beside c).toNat
  else if c ≤ 57 then c.toNat - 48
  else if c < 65 then 0
  else if c ≤ 90 then c.toNat - 55
  else if c < 97 then 0
  else c.toNat - 87

/-- `stringToUint64` for the base 16. -/
def stringToUint64 (beside : UInt8 → UInt8) (s : Text) : Nat :=
  s.foldl (fun result c => (result * 16 + charValue beside c) % 18446744073709551616) 0

/-- What `snprintf` makes of `%04X` and a counter of sixteen bits. -/
def countToString (count : Nat) : Text :=
  [hexChar (count / 4096 % 16), hexChar (count / 256 % 16), hexChar (count / 16 % 16),
    hexChar (count % 16)]

/-- `String::remove`. -/
def removeText (s : Text) (index count : Nat) : Text :=
  if index ≥ s.length then s
  else if count = 0 then s
  else s.take index ++ s.drop (index + min count (s.length - index))

/-! ## The node -/

/-- What `setMetadataDelimiter` asserts. -/
def AllowedDelimiter (c : UInt8) : Prop :=
  (c < 48 ∨ 57 < c) ∧ (c < 65 ∨ 70 < c) ∧ (c < 97 ∨ 102 < c) ∧ c ≠ 44

instance (c : UInt8) : Decidable (AllowedDelimiter c) := by
  unfold AllowedDelimiter
  infer_instance

structure Config where
  metadataDelimiter : UInt8
  allowed : AllowedDelimiter metadataDelimiter
  meshName : Text
  softAPmac : Mac
  broadcastReceptionRedundancy : Nat
  redundancy_lt : broadcastReceptionRedundancy < 255
  /-- What the ESP-NOW backend's `getMaxMessageLength` gives. -/
  maxMessageLength : Nat
  /-- The flash around the table of `stringToUint64`. -/
  beside : UInt8 → UInt8

def MESSAGE_ID_LENGTH : Nat := 17
def MESSAGE_COMPLETE : Nat := 255

/-- An element of `_messageIDs`. -/
structure Entry where
  iterator : Nat
  id : Nat
  count : Nat
deriving DecidableEq, Repr

structure Node where
  messageIDs : List Entry
  messageIdOrder : List Nat
  /-- How many map nodes have been allocated. -/
  allocated : Nat
  forwardingBacklog : List (Text × Bool)
  originMac : Mac
  messageCount : Nat
  messageLogSize : Nat
deriving DecidableEq, Repr

/-- The message handler: whether the message goes on, and what it has made of it. -/
abbrev MessageHandler := Text → Bool × Text

namespace Node

def init : Node where
  messageIDs := []
  messageIdOrder := []
  allocated := 0
  forwardingBacklog := []
  originMac := ⟨0, 0, 0, 0, 0, 0⟩
  messageCount := 0
  messageLogSize := 100

/-! ## The log -/

def find (id : Nat) (n : Node) : Option Entry := n.messageIDs.find? fun e => e.id = id

def emplace (id count : Nat) (n : Node) : Node :=
  { n with
    messageIDs := n.messageIDs ++ [⟨n.allocated, id, count⟩]
    allocated := n.allocated + 1 }

def setCount (id count : Nat) (n : Node) : Node :=
  { n with messageIDs := n.messageIDs.map fun e => if e.id = id then { e with count } else e }

/-- The iterator in front of the queue goes, and what it points at. -/
def eraseOldest (n : Node) : Except Fault Node :=
  match n.messageIdOrder with
  | [] => .error .danglingIterator
  | front :: order =>
    if n.messageIDs.any fun e => e.iterator = front then
      .ok { n with
        messageIDs := n.messageIDs.filter fun e => e.iterator ≠ front
        messageIdOrder := order }
    else .error .danglingIterator

def updateMessageQueue (messageIterator : Nat) (n : Node) : Except Fault Node :=
  let n := { n with messageIdOrder := n.messageIdOrder ++ [messageIterator] }
  if n.messageIDs.length > n.messageLogSize then do
    let n' ← n.eraseOldest
    if n'.messageIDs.length = n'.messageLogSize ∧
        n'.messageIDs.length = n'.messageIdOrder.length then
      return n'
    else throw .assertFailed
  else .ok n

def isOwn (c : Config) (messageID : Nat) : Bool := messageID / 65536 = macToUint64 c.softAPmac

def insertPreliminaryMessageID (c : Config) (messageID : Nat) (n : Node) :
    Except Fault (Bool × Node) :=
  if isOwn c messageID then .ok (false, n)
  else match n.find messageID with
    | none => do
      let n' ← (n.emplace messageID 0).updateMessageQueue n.allocated
      return (true, n')
    | some e =>
      if e.count < c.broadcastReceptionRedundancy then
        .ok (true, n.setCount messageID (e.count + 1))
      else .ok (false, n)

def insertCompletedMessageID (c : Config) (messageID : Nat) (n : Node) :
    Except Fault (Bool × Node) :=
  if isOwn c messageID then .ok (false, n)
  else match n.find messageID with
    | none => do
      let n' ← (n.emplace messageID MESSAGE_COMPLETE).updateMessageQueue n.allocated
      return (true, n')
    | some e =>
      if e.count < MESSAGE_COMPLETE then .ok (true, n.setCount messageID MESSAGE_COMPLETE)
      else .ok (false, n)

def setMessageLogSize (messageLogSize : Nat) (n : Node) : Except Fault Node :=
  if messageLogSize ≥ 1 then .ok { n with messageLogSize } else .error .assertFailed

def clearMessageLogs (n : Node) : Node := { n with messageIDs := [], messageIdOrder := [] }

/-! ## Broadcasts of this node -/

def generateMessageID (c : Config) (n : Node) : Text × Node :=
  (macToString c.softAPmac ++ countToString n.messageCount,
    { n with messageCount := (n.messageCount + 1) % 65536 })

def maxUnencryptedMessageLength (c : Config) : Nat :=
  Text.unsigned ((c.maxMessageLength : Int) - MESSAGE_ID_LENGTH - (c.meshName.length + 1))

def maxEncryptedMessageLength (c : Config) : Nat :=
  Text.unsigned ((c.maxMessageLength : Int) - MESSAGE_ID_LENGTH - 1)

/-- `broadcast`, up to what goes to the backend. -/
def broadcast (c : Config) (message : Text) (n : Node) : Except Fault (Text × Node) :=
  if message.length ≤ maxUnencryptedMessageLength c then
    let (messageID, n) := n.generateMessageID c
    .ok (c.meshName ++ [c.metadataDelimiter] ++ messageID ++ [c.metadataDelimiter] ++ message, n)
  else .error .assertFailed

/-- `encryptedBroadcast`, up to what goes to the backend. -/
def encryptedBroadcast (c : Config) (message : Text) (n : Node) : Except Fault (Text × Node) :=
  if message.length ≤ maxEncryptedMessageLength c then
    let (messageID, n) := n.generateMessageID c
    .ok (messageID ++ [c.metadataDelimiter] ++ message, n)
  else .error .assertFailed

/-- One round of the loop of `performMeshInstanceMaintenance`: what goes to the backend, and
whether encrypted. -/
def forwardNext (n : Node) : Option ((Text × Bool) × Node) :=
  match n.forwardingBacklog with
  | [] => none
  | messageData :: backlog => some (messageData, { n with forwardingBacklog := backlog })

/-! ## The callbacks -/

/-- The ID that the broadcast filter reads in a transmission that is for this node's mesh. -/
def readFirstTransmission (c : Config) (firstTransmission : Text) : Option Nat :=
  let metadataEndIndex := firstTransmission.indexOf c.metadataDelimiter 0
  if metadataEndIndex = -1 then none
  else
    let targetMeshName := firstTransmission.substring 0 metadataEndIndex.toNat
    if targetMeshName ≠ [] ∧ ¬ c.meshName.equals targetMeshName then none
    else
      let messageIDEndIndex :=
        firstTransmission.indexOf c.metadataDelimiter (metadataEndIndex.toNat + 1)
      if messageIDEndIndex = -1 then none
      else some (stringToUint64 c.beside
        (firstTransmission.substring (metadataEndIndex.toNat + 1) messageIDEndIndex.toNat))

/-- `_defaultBroadcastFilter`.  It gives the transmission that is stored if it accepts. -/
def defaultBroadcastFilter (c : Config) (firstTransmission : Text) (n : Node) :
    Except Fault (Option Text × Node) :=
  match readFirstTransmission c firstTransmission with
  | none => .ok (none, n)
  | some messageID => do
    let (inserted, n') ← n.insertPreliminaryMessageID c messageID
    if inserted then return (some (c.metadataDelimiter :: firstTransmission), n')
    else return (none, n')

structure Parts where
  broadcastTarget : Text
  remainingRequest : Text
  messageIDEndIndex : Nat
  messageID : Nat
deriving DecidableEq, Repr

/-- The message itself.  `remove` keeps its NULs. -/
def Parts.message (p : Parts) : Text := removeText p.remainingRequest 0 (p.messageIDEndIndex + 1)

def splitTarget (c : Config) (request : Text) : Option (Text × Text) :=
  if request.charAt 0 = c.metadataDelimiter then
    let broadcastTargetEndIndex := request.indexOf c.metadataDelimiter 1
    if broadcastTargetEndIndex = -1 then none
    else some (request.substring 1 (broadcastTargetEndIndex.toNat + 1),
      removeText request 0 (broadcastTargetEndIndex.toNat + 1))
  else some ([], request)

def readRequest (c : Config) (request : Text) : Option Parts :=
  match splitTarget c request with
  | none => none
  | some (broadcastTarget, remainingRequest) =>
    let messageIDEndIndex := remainingRequest.indexOf c.metadataDelimiter 0
    if messageIDEndIndex = -1 then none
    else some ⟨broadcastTarget, remainingRequest, messageIDEndIndex.toNat,
      stringToUint64 c.beside (remainingRequest.substring 0 messageIDEndIndex.toNat)⟩

structure Handed where
  messageID : Nat
  originMac : Mac
  message : Text
deriving DecidableEq, Repr

/-- The message of a request whose ID was logged as complete: it is handed on, and is put up for
forwarding with its metadata if the sketch says so. -/
def handleMessage (c : Config) (p : Parts) (receivedEncryptedTransmission : Bool)
    (messageHandler : MessageHandler) (n : Node) : Except Fault (Option Handed × Node) :=
  let originMac := uint64ToMac (p.messageID / 65536)
  let n := { n with originMac }
  let handed := some ⟨p.messageID, originMac, p.message⟩
  let (goesOn, message) := messageHandler p.message
  if goesOn then
    let message := p.broadcastTarget ++
      p.remainingRequest.substring 0 (p.messageIDEndIndex + 1) ++ message
    if message.length ≤ c.maxMessageLength then
      .ok (handed, { n with
        forwardingBacklog := n.forwardingBacklog ++ [(message, receivedEncryptedTransmission)] })
    else .error .assertFailed
  else .ok (handed, n)

/-- `_defaultRequestHandler`.  Its answer is always empty. -/
def defaultRequestHandler (c : Config) (request : Text) (receivedEncryptedTransmission : Bool)
    (messageHandler : MessageHandler) (n : Node) : Except Fault (Option Handed × Node) :=
  match readRequest c request with
  | none => .ok (none, n)
  | some p => do
    let (inserted, n') ← n.insertCompletedMessageID c p.messageID
    if inserted then n'.handleMessage c p receivedEncryptedTransmission messageHandler
    else return (none, n')

end Node

end Mesh
