import RalioFirmware.Mesh.Transmitter
import RalioFirmware.Mesh.Relay
import RalioFirmware.Basis.Runs

/-!
# A message arrives as it was sent

Any number of senders send their messages to a node, one transmission after another.  What was
transmitted once may arrive at any time, any number of times, or never; and the node may drop
entries of its logs whenever it likes.  What it hands to the sketch is a message as it was sent.
Of a broadcast, the first transmission goes through the broadcast filter, which may change it.
-/

namespace Mesh

open Http List

/-! ## Senders, frames in the air, and the node -/

structure NodeAddress where
  sta : Mac
  ap : Mac
deriving DecidableEq, Repr

def NodeAddress.Has (mac : Mac) (a : NodeAddress) : Prop := mac = a.sta ∨ mac = a.ap

def Apart (nodes : List NodeAddress) : Prop :=
  ∀ a ∈ nodes, ∀ b ∈ nodes, ∀ mac, a.Has mac → b.Has mac → a = b

structure SentMessage where
  sender : NodeAddress
  messageType : MessageType
  messageID : Nat
  message : Text
deriving DecidableEq, Repr

structure Ether where
  sending : NodeAddress → Option Sending
  sent : List SentMessage
  /-- Every frame that was transmitted, with the address it comes from. -/
  air : List (Mac × List UInt8)
  node : EspnowNode
  handed : List HandedMessage

inductive EtherEvent where
  | send (sender : NodeAddress) (targetBSSID : Mac) (meshInstance : Nat)
      (messageType : MessageType) (messageID : Nat) (message : Text)
  | transmit (sender : NodeAddress) (nonce : List UInt8)
  | confirm (sender : NodeAddress)
  /-- The time is up. -/
  | giveUp (sender : NodeAddress)
  | deliver (i : Nat) (env : Surroundings)
  | storeSentRequest (targetBSSID messageID owner : Nat)
  | keepEntries (transmissions requests sent : Nat × Nat → Bool)
  /-- Connections come and go, and responses are sent. -/
  | change (encryptedConnections : List EncryptedConnectionLog)
      (responsesToSend : List ResponseData)

namespace Ether

def init : Ether := ⟨fun _ => none, [], [], .init, []⟩

def setSending (sender : NodeAddress) (sd : Option Sending) (w : Ether) : Ether :=
  { w with sending := fun a => if a = sender then sd else w.sending a }

def deliver (s : Settings) (i : Nat) (env : Surroundings) (w : Ether) : Except Fault Ether :=
  match w.air[i]? with
  | none => .ok w
  | some (macaddr, dataArray) => do
    let (node, handed) ← w.node.espnowReceiveCallbackWrapper s env macaddr dataArray
    return { w with node, handed := w.handed ++ handed.toList }

def act (s : Settings) : EtherEvent → Ether → Except Fault Ether
  | .send sender targetBSSID meshInstance messageType messageID message, w =>
    match w.sending sender with
    | some _ => .error .assertFailed
    | none =>
      (Sending.start s targetBSSID meshInstance messageType messageID message).map fun sd =>
        { w.setSending sender (some sd) with
          sent := w.sent ++ [⟨sender, messageType, messageID, message⟩] }
  | .transmit sender nonce, w =>
    match w.sending sender with
    | none => .ok w
    | some sd => .ok { w with
        air := w.air ++ [(sender.sta, (sd.frame s sender.ap).transmission s nonce)] }
  | .confirm sender, w => .ok (w.setSending sender ((w.sending sender).bind Sending.next))
  | .giveUp sender, w => .ok (w.setSending sender none)
  | .deliver i env, w => w.deliver s i env
  | .storeSentRequest targetBSSID messageID owner, w =>
    .ok { w with node := w.node.storeSentRequest targetBSSID messageID owner }
  | .keepEntries transmissions requests sent, w =>
    .ok { w with node := w.node.keepEntries transmissions requests sent }
  | .change encryptedConnections responsesToSend, w =>
    .ok { w with node := { w.node with encryptedConnections, responsesToSend } }

def step (s : Settings) (event : EtherEvent) (w : Except Fault Ether) : Except Fault Ether :=
  w.bind (act s event)

end Ether

/-- A node of the mesh sends one message at a time, which is not empty and not too long, and gives
its ID to no other message of the type. -/
def EtherEvent.Fits (s : Settings) (nodes : List NodeAddress) :
    EtherEvent → Except Fault Ether → Prop
  | .send sender _ _ messageType messageID message, .ok w =>
    sender ∈ nodes ∧ w.sending sender = none ∧ message ≠ [] ∧
      messageID < 18446744073709551616 ∧
      s.transmissionsRequired message ≤ s.maxTransmissionsPerMessage ∧
      ((messageType = .P ∨ messageType = .C) → s.transmissionsRequired message = 1) ∧
      ∀ m ∈ w.sent, m.sender = sender → m.messageType = messageType → m.messageID = messageID →
        m.message = message
  | .transmit _ nonce, _ => nonce.length = 12
  | _, _ => True

/-! ## What is promised -/

/-- What the filter of an instance has made of a text at some time. -/
def Filtered (events : List EtherEvent) (first first' : Text) : Prop :=
  ∃ i env m, EtherEvent.deliver i env ∈ events ∧
    (env.instances m).broadcastFilter first = some first'

def Settings.firstTransmission (s : Settings) (message : Text) : Text :=
  s.part message (s.transmissionsRequired message - 1)

/-- **The message is one that was sent**, from the address, with the type and under the ID that it
is handed over with.  Of a broadcast, the first transmission is what a filter has made of it. -/
def Intact (s : Settings) (filters : Text → Text → Prop) (sent : List SentMessage)
    (h : HandedMessage) : Prop :=
  ∃ m ∈ sent, m.sender.Has h.macaddr ∧ m.messageType = h.messageType ∧
    m.messageID = h.messageID ∧ (m.messageType ≠ .B → h.totalMessage = m.message) ∧
    (m.messageType = .B → ∃ first' rest, m.message = s.firstTransmission m.message ++ rest ∧
      filters (s.firstTransmission m.message) first' ∧ h.totalMessage = first' ++ rest)

/-! ## What is stored -/

variable {mac : Mac} {meshInstance : Nat}

namespace SentMessage

variable {s : Settings} {nodes : List NodeAddress} {m : SentMessage} {r : Nat}

structure Sendable (s : Settings) (nodes : List NodeAddress) (m : SentMessage) : Prop where
  sender_mem : m.sender ∈ nodes
  message_ne : m.message ≠ []
  messageID_lt : m.messageID < 18446744073709551616
  required_le : s.transmissionsRequired m.message ≤ 128

def frame (s : Settings) (m : SentMessage) (r : Nat) : Frame where
  messageType := m.messageType.char
  transmissionsRemaining := r
  messageStart := r + 1 = s.transmissionsRequired m.message
  transmissionMac := m.sender.ap
  messageID := m.messageID
  part := s.part m.message r

theorem Sendable.frame_valid (h : m.Sendable s nodes)
    (hr : r < s.transmissionsRequired m.message) : (m.frame s r).Valid s where
  remaining_lt := Nat.lt_of_lt_of_le hr h.required_le
  messageID_lt := h.messageID_lt
  part_le := s.length_part_le

def key (mac : Mac) (m : SentMessage) : Nat × Nat :=
  (createMacAndTypeValue (macToUint64 mac) m.messageType.char, m.messageID)

def Opening (s : Settings) (filters : Text → Text → Prop) (m : SentMessage) (first' : Text) :
    Prop :=
  if m.messageType = .B then filters (s.firstTransmission m.message) first'
  else first' = s.firstTransmission m.message

/-- All but `r` transmissions of the message have arrived, in their order. -/
structure Partial (s : Settings) (filters : Text → Text → Prop) (m : SentMessage) (r : Nat)
    (d : MessageData) : Prop where
  remaining_lt : r < s.transmissionsRequired m.message
  expected : d.transmissionsExpected = s.transmissionsRequired m.message
  received : d.transmissionsReceived = s.transmissionsRequired m.message - r
  total : ∃ first' rest, m.Opening s filters first' ∧
    s.arrived m.message r = s.firstTransmission m.message ++ rest ∧
    d.totalMessage = first' ++ rest

variable {filters : Text → Text → Prop} {d : MessageData}

theorem Sendable.arrived_first (h : m.Sendable s nodes)
    (hr : r + 1 = s.transmissionsRequired m.message) :
    s.arrived m.message r = s.firstTransmission m.message := by
  have happend := s.arrived_append_part h.message_ne (Nat.lt_of_succ_le (Nat.le_of_eq hr))
  have hfirst : s.firstTransmission m.message = s.part m.message r := by
    rw [Settings.firstTransmission, ← hr, Nat.add_sub_cancel]
  rw [hr, s.arrived_required, nil_append] at happend
  rw [hfirst, ← happend]

theorem Sendable.partial_first (h : m.Sendable s nodes)
    (hr : r + 1 = s.transmissionsRequired m.message) {first' : Text}
    (hopening : m.Opening s filters first') : m.Partial s filters r ⟨1, r + 1, first'⟩ where
  remaining_lt := Nat.lt_of_succ_le (Nat.le_of_eq hr)
  expected := hr
  received := by
    dsimp only
    omega
  total := by
    refine ⟨first', [], hopening, ?_, (append_nil first').symm⟩
    rw [h.arrived_first hr, append_nil]

theorem Partial.remaining (h : m.Partial s filters r d) (hm : m.Sendable s nodes) :
    d.getTransmissionsRemaining = r := by
  have hlt := h.remaining_lt
  have hle := hm.required_le
  rw [MessageData.getTransmissionsRemaining, h.expected, h.received]
  omega

/-- **The next transmission is added.** -/
theorem Partial.add (h : m.Partial s filters (r + 1) d) (hm : m.Sendable s nodes) :
    ∃ d', d.addToMessage s (m.frame s r) = .ok (some d') ∧ m.Partial s filters r d' := by
  have hlt := h.remaining_lt
  have hle := hm.required_le
  have hreceived : (d.transmissionsReceived + 1) % 256 =
      s.transmissionsRequired m.message - r := by
    rw [h.received]
    omega
  refine ⟨⟨(d.transmissionsReceived + 1) % 256, d.transmissionsExpected,
    d.totalMessage ++ s.part m.message r⟩, ?_, ⟨by omega, h.expected, hreceived, ?_⟩⟩
  · rw [MessageData.addToMessage, h.remaining hm]
    exact (if_pos rfl).trans (if_pos s.length_part_le)
  · obtain ⟨first', rest, hopening, harrived, htotal⟩ := h.total
    refine ⟨first', rest ++ s.part m.message r, hopening, ?_, ?_⟩
    · rw [← s.arrived_append_part hm.message_ne (by omega), harrived, append_assoc]
    · rw [htotal, append_assoc]

theorem Partial.skip (h : m.Partial s filters r d) (hm : m.Sendable s nodes) {r' : Nat}
    (hne : r' + 1 ≠ r) : d.addToMessage s (m.frame s r') = .ok none := by
  rw [MessageData.addToMessage, h.remaining hm]
  exact if_neg hne

theorem Sendable.ofTransmission (h : m.Sendable s nodes)
    (hr : r + 1 = s.transmissionsRequired m.message) :
    MessageData.ofTransmission s (m.frame s r) = .ok ⟨1, r + 1, s.part m.message r⟩ := by
  have hle := h.required_le
  have hexpected : (r + 1) % 256 = r + 1 := Nat.mod_eq_of_lt (by omega)
  have hremaining : (m.frame s r).transmissionsRemaining + 1 =
      (⟨0, r + 1, []⟩ : MessageData).getTransmissionsRemaining := by
    rw [MessageData.getTransmissionsRemaining]
    dsimp only [frame]
    omega
  have hadd : (⟨0, r + 1, []⟩ : MessageData).addToMessage s (m.frame s r) =
      .ok (some ⟨1, r + 1, s.part m.message r⟩) := by
    rw [MessageData.addToMessage, if_pos hremaining]
    exact if_pos s.length_part_le
  unfold MessageData.ofTransmission
  dsimp only [frame] at hadd ⊢
  rw [hexpected, hadd]
  rfl

/-- **A message of which nothing remains** has been gathered as it was sent. -/
theorem Partial.intact (h : m.Partial s filters 0 d) (hm : m.Sendable s nodes)
    {sent : List SentMessage} (hmem : m ∈ sent) (hmac : m.sender.Has mac) : Intact s filters sent
      ⟨meshInstance, mac, m.messageType, m.messageID, d.totalMessage⟩ := by
  obtain ⟨first', rest, hopening, harrived, htotal⟩ := h.total
  rw [s.arrived_zero hm.message_ne] at harrived
  rw [Opening] at hopening
  refine ⟨m, hmem, hmac, rfl, rfl, ?_, ?_⟩
  · grind
  · grind

end SentMessage

/-! ## The node -/

variable {env : Surroundings}

namespace EspnowNode

open SentMessage

variable {s : Settings} {nodes : List NodeAddress} {filters : Text → Text → Prop}
  {sent : List SentMessage} {n : EspnowNode} {m : SentMessage} {mac : Mac} {r : Nat}

def Stored (s : Settings) (filters : Text → Text → Prop) (sent : List SentMessage)
    (n : EspnowNode) : Prop :=
  ∀ key d, n.receivedEspnowTransmissions key = some d →
    ∃ m ∈ sent, ∃ mac, m.sender.Has mac ∧ key = m.key mac ∧
      ∃ r, 0 < r ∧ m.Partial s filters r d

/-- Messages that were sent differ in their sender, type or ID. -/
structure Known (s : Settings) (nodes : List NodeAddress) (sent : List SentMessage) : Prop where
  sendable : ∀ m ∈ sent, m.Sendable s nodes
  unique : ∀ m ∈ sent, ∀ m' ∈ sent, m.sender = m'.sender → m.messageType = m'.messageType →
    m.messageID = m'.messageID → m = m'

variable {mac' : Mac}

theorem createMacAndTypeValue_inj {t t' : UInt8}
    (h : createMacAndTypeValue (macToUint64 mac) t = createMacAndTypeValue (macToUint64 mac') t') :
    mac = mac' ∧ t = t' := by
  have ht := t.toNat_lt
  have ht' := t'.toNat_lt
  rw [createMacAndTypeValue, createMacAndTypeValue] at h
  have hmac : macToUint64 mac = macToUint64 mac' := by omega
  refine ⟨?_, UInt8.toNat_inj.mp (by omega)⟩
  rw [← uint64ToMac_macToUint64 mac, hmac, uint64ToMac_macToUint64]

/-- **A key stands for one message.** -/
theorem Known.of_key (hknown : Known s nodes sent) (hapart : Apart nodes) (hm : m ∈ sent)
    {m' : SentMessage} (hm' : m' ∈ sent) (hmac : m.sender.Has mac)
    (hmac' : m'.sender.Has mac') (hkey : m.key mac = m'.key mac') : m = m' := by
  obtain ⟨hvalue, hID⟩ := Prod.mk.inj hkey
  obtain ⟨rfl, htype⟩ := createMacAndTypeValue_inj hvalue
  have hsender := hapart _ (hknown.sendable m hm).sender_mem _ (hknown.sendable m' hm').sender_mem
    mac hmac hmac'
  exact hknown.unique m hm m' hm' hsender (MessageType.char_inj htype) hID

theorem Stored.of_key (h : n.Stored s filters sent) (hknown : Known s nodes sent)
    (hapart : Apart nodes) (hm : m ∈ sent) (hmac : m.sender.Has mac) {d : MessageData}
    (hd : n.receivedEspnowTransmissions (m.key mac) = some d) :
    ∃ r, 0 < r ∧ m.Partial s filters r d := by
  obtain ⟨m', hm', mac', hmac', hkey, hpart⟩ := h _ d hd
  rw [hknown.of_key hapart hm hm' hmac hmac' hkey]
  exact hpart

theorem Stored.setTransmission (h : n.Stored s filters sent) {key : Nat × Nat}
    {d : Option MessageData}
    (hd : ∀ d', d = some d' → ∃ m ∈ sent, ∃ mac, m.sender.Has mac ∧ key = m.key mac ∧
      ∃ r, 0 < r ∧ m.Partial s filters r d') :
    (n.setTransmission key d).Stored s filters sent := by
  intro k d' hd'
  rw [EspnowNode.setTransmission] at hd'
  dsimp only at hd'
  split at hd'
  · rename_i hk
    rw [hk]
    exact hd d' hd'
  · exact h k d' hd'

/-- What `storeTransmission` leaves: when the last transmission has come, the message is complete;
otherwise it is still stored in part. -/
structure StoredFor (s : Settings) (filters : Text → Text → Prop) (sent : List SentMessage)
    (m : SentMessage) (mac : Mac) (r : Nat) (n : EspnowNode) (goesOn : Bool) : Prop where
  others : (n.setTransmission (m.key mac) none).Stored s filters sent
  unfinished : ¬ (goesOn = true ∧ r = 0) → n.Stored s filters sent
  complete : goesOn = true → r = 0 → ∃ d,
    n.receivedEspnowTransmissions (m.key mac) = some d ∧ m.Partial s filters 0 d

theorem Stored.stops (h : n.Stored s filters sent) :
    StoredFor s filters sent m mac r n false where
  others := h.setTransmission (by rintro d' ⟨⟩)
  unfinished := fun _ => h
  complete := by rintro ⟨⟩

theorem Stored.stores (h : n.Stored s filters sent) (hm : m ∈ sent) (hmac : m.sender.Has mac)
    {d : MessageData} (hd : m.Partial s filters r d) :
    StoredFor s filters sent m mac r (n.setTransmission (m.key mac) (some d)) true where
  others := by
    intro k d' hd'
    rw [EspnowNode.setTransmission, EspnowNode.setTransmission] at hd'
    dsimp only at hd'
    split at hd'
    · cases hd'
    · exact h k d' hd'
  unfinished := by
    intro hr
    refine h.setTransmission fun d' hd' => ?_
    obtain rfl := Option.some.inj hd'
    exact ⟨m, hm, mac, hmac, rfl, r, Nat.pos_of_ne_zero fun hzero => hr ⟨rfl, hzero⟩, hd⟩
  complete := by
    rintro - rfl
    exact ⟨d, if_pos rfl, hd⟩

theorem Stored.goes (h : n.Stored s filters sent) (hr : 0 < r) :
    StoredFor s filters sent m mac r n true where
  others := h.setTransmission (by rintro d' ⟨⟩)
  unfinished := fun _ => h
  complete := fun _ hzero => absurd hzero (Nat.ne_of_gt hr)

/-- **What is stored of a transmission** is right, whatever was stored before. -/
theorem Stored.storeTransmission (h : n.Stored s filters sent) (hknown : Known s nodes sent)
    (hapart : Apart nodes) (hm : m ∈ sent) (hmac : m.sender.Has mac) {mi : MeshInstance}
    (hfilter : ∀ t t', mi.broadcastFilter t = some t' → filters t t') :
    ∃ n' goesOn, n.storeTransmission s mi m.messageType (m.key mac) (m.frame s r) =
      .ok (n', goesOn) ∧ StoredFor s filters sent m mac r n' goesOn := by
  have hsendable := hknown.sendable m hm
  unfold EspnowNode.storeTransmission
  by_cases hstart : r + 1 = s.transmissionsRequired m.message
  · have hflag : (m.frame s r).messageStart = true := decide_eq_true hstart
    rw [if_pos hflag]
    have hpart : s.firstTransmission m.message = s.part m.message r := by
      rw [Settings.firstTransmission, ← hstart, Nat.add_sub_cancel]
    by_cases htype : m.messageType = .B
    · rw [if_pos htype]
      cases hget : n.receivedEspnowTransmissions (m.key mac) with
      | some stored => exact ⟨n, false, rfl, h.stops⟩
      | none =>
        dsimp only
        cases haccept : mi.broadcastFilter (m.frame s r).part with
        | none => exact ⟨n, false, rfl, h.stops⟩
        | some message =>
          have hopening : m.Opening s filters message := by
            rw [Opening, if_pos htype, hpart]
            exact hfilter _ _ haccept
          have htext : MessageData.ofText message r = ⟨1, r + 1, message⟩ := by
            have hle := hsendable.required_le
            rw [MessageData.ofText, Nat.mod_eq_of_lt (by omega)]
          refine ⟨_, true, rfl, h.stores hm hmac ?_⟩
          dsimp only [frame]
          rw [htext]
          exact hsendable.partial_first hstart hopening
    · have hopening : m.Opening s filters (s.part m.message r) := by
        rw [Opening, if_neg htype, hpart]
      have hfirst := hsendable.partial_first hstart hopening
      rw [if_neg htype, hsendable.ofTransmission hstart]
      cases hget : n.receivedEspnowTransmissions (m.key mac) with
      | none => exact ⟨_, true, rfl, h.stores hm hmac hfirst⟩
      | some stored =>
        -- A message that is stored in part has more than one transmission.
        obtain ⟨r', hpos, hpart⟩ := h.of_key hknown hapart hm hmac hget
        have hlt := hpart.remaining_lt
        exact ⟨n, true, rfl, h.goes (by omega)⟩
  · have hflag : ¬ (m.frame s r).messageStart = true :=
      fun hflag => hstart (of_decide_eq_true hflag)
    rw [if_neg hflag]
    cases hget : n.receivedEspnowTransmissions (m.key mac) with
    | none => exact ⟨n, false, rfl, h.stops⟩
    | some stored =>
      obtain ⟨r', hpos, hpart⟩ := h.of_key hknown hapart hm hmac hget
      dsimp only
      by_cases hnext : r + 1 = r'
      · obtain ⟨d, hadd, hd⟩ := (hnext ▸ hpart).add hsendable
        rw [hadd]
        exact ⟨_, true, rfl, h.stores hm hmac hd⟩
      · rw [hpart.skip hsendable hnext, hpart.remaining hsendable]
        have hlt := hpart.remaining_lt
        have hle := hsendable.required_le
        have hexpected : (r' + 255) % 256 = r' - 1 := by omega
        dsimp only [Bind.bind, Except.bind]
        rw [hexpected]
        by_cases hmissing : (m.frame s r).transmissionsRemaining < r' - 1
        · rw [if_pos hmissing]
          refine ⟨_, false, rfl, ?_, fun _ => ?_, by rintro ⟨⟩⟩
          · exact (h.setTransmission (by rintro d' ⟨⟩)).setTransmission (by rintro d' ⟨⟩)
          · exact h.setTransmission (by rintro d' ⟨⟩)
        · rw [if_neg hmissing]
          have hlate : r' - 1 ≤ r := Nat.not_lt.mp hmissing
          exact ⟨n, true, rfl, h.goes (by omega)⟩

theorem processMessage_ok {messageType : MessageType}
    (htype : messageType = .Q ∨ messageType = .B ∨ messageType = .A) (random : Nat)
    (mi : MeshInstance) (messageID : Nat) (totalMessage : Text) :
    ∃ n', n.processMessage s random mi messageType mac messageID totalMessage = .ok n' ∧
      n'.receivedEspnowTransmissions = n.receivedEspnowTransmissions := by
  unfold processMessage
  rcases htype with rfl | rfl | rfl
  · dsimp only
    split
    all_goals exact ⟨_, rfl, rfl⟩
  · dsimp only
    split
    all_goals exact ⟨_, rfl, rfl⟩
  · dsimp only
    split
    all_goals exact ⟨_, rfl, rfl⟩

/-- **The callback** hands over a message as it was sent, and keeps the others in part. -/
theorem Stored.espnowReceiveCallback (h : n.Stored s filters sent) (hknown : Known s nodes sent)
    (hapart : Apart nodes) (hm : m ∈ sent) (hmac : m.sender.Has mac)
    (htype : m.messageType = .Q ∨ m.messageType = .B ∨ m.messageType = .A)
    (hfilter : ∀ i t t', (env.instances i).broadcastFilter t = some t' → filters t t')
    (meshInstance : Nat) :
    ∃ n' handed, n.espnowReceiveCallback s env meshInstance m.messageType mac (m.frame s r) =
      .ok (n', handed) ∧ n'.Stored s filters sent ∧ ∀ x ∈ handed, Intact s filters sent x := by
  obtain ⟨n', goesOn, hstore, hfor⟩ :=
    @Stored.storeTransmission s nodes filters sent n m mac r h hknown hapart hm hmac _
      (hfilter meshInstance)
  unfold EspnowNode.espnowReceiveCallback
  have hkey : (createMacAndTypeValue (macToUint64 mac) m.messageType.char,
    (m.frame s r).messageID) = m.key mac := rfl
  rw [hkey]
  dsimp only
  rw [hstore]
  dsimp only [Bind.bind, Except.bind]
  by_cases hend : goesOn = true ∧ r = 0
  · obtain ⟨rfl, rfl⟩ := hend
    obtain ⟨d, hd, hcomplete⟩ := hfor.complete rfl rfl
    obtain ⟨n'', hprocess, htransmissions⟩ :=
      @processMessage_ok s (n'.setTransmission (m.key mac) none) mac m.messageType htype env.random
        (env.instances meshInstance) m.messageID d.totalMessage
    rw [if_neg (by simp [frame]), hd]
    dsimp only [frame]
    rw [hprocess]
    refine ⟨n'', _, rfl, ?_, ?_⟩
    · intro key d' hd'
      rw [htransmissions] at hd'
      exact hfor.others key d' hd'
    · intro x hx
      obtain rfl := Option.some.inj hx
      exact hcomplete.intact (hknown.sendable m hm) hm hmac
  · have hreturn : ¬ goesOn = true ∨ (m.frame s r).transmissionsRemaining ≠ 0 := by
      by_cases hgoes : goesOn = true
      · exact .inr fun hzero => hend ⟨hgoes, hzero⟩
      · exact .inl hgoes
    rw [if_pos hreturn]
    exact ⟨n', none, rfl, hfor.unfinished hend, by rintro x ⟨⟩⟩

theorem Stored.congr {n' : EspnowNode} (h : n.Stored s filters sent)
    (heq : n'.receivedEspnowTransmissions = n.receivedEspnowTransmissions) :
    n'.Stored s filters sent := by
  intro key d hd
  rw [heq] at hd
  exact h key d hd

theorem synchronizePeerSessionKey_transmissions (s : Settings) (random sessionKey : Nat)
    (mac : Mac) (n : EspnowNode) :
    (n.synchronizePeerSessionKey s random sessionKey mac).2.receivedEspnowTransmissions =
      n.receivedEspnowTransmissions := by
  unfold synchronizePeerSessionKey
  split
  · rfl
  · split
    · rfl
    · split
      all_goals rfl

theorem handlePeerRequest_transmissions (s : Settings) (random messageID : Nat) (mac : Mac)
    (n : EspnowNode) :
    (n.handlePeerRequest s random mac messageID).receivedEspnowTransmissions =
      n.receivedEspnowTransmissions := by
  unfold handlePeerRequest
  split
  · rfl
  · rw [synchronizePeerSessionKey_transmissions]
    rfl

def Kept (s : Settings) (filters : Text → Text → Prop) (sent : List SentMessage)
    (result : Except Fault (EspnowNode × Option HandedMessage)) : Prop :=
  ∃ n' handed, result = .ok (n', handed) ∧ n'.Stored s filters sent ∧
    ∀ x ∈ handed, Intact s filters sent x

theorem Stored.ignores (h : n.Stored s filters sent) : Kept s filters sent (.ok (n, none)) :=
  ⟨n, none, rfl, h, by rintro x ⟨⟩⟩

theorem Stored.receiveRequest (h : n.Stored s filters sent) (hknown : Known s nodes sent)
    (hapart : Apart nodes) (hm : m ∈ sent) (htype : m.messageType = .Q ∨ m.messageType = .B)
    (hfilter : ∀ i t t', (env.instances i).broadcastFilter t = some t' → filters t t') :
    Kept s filters sent (n.receiveRequest s env m.messageType m.sender.sta (m.frame s r)) := by
  have hmac : m.sender.Has m.sender.sta := .inl rfl
  have htypes : m.messageType = .Q ∨ m.messageType = .B ∨ m.messageType = .A := by grind
  unfold EspnowNode.receiveRequest
  split
  · exact h.ignores
  · split
    · exact h.ignores
    · rename_i manager _
      split
      · exact h.ignores
      · split
        · have hsync := h.congr (synchronizePeerSessionKey_transmissions s env.random
            (m.frame s r).messageID m.sender.sta n)
          dsimp only
          split
          · exact hsync.ignores
          · exact hsync.espnowReceiveCallback hknown hapart hm hmac htypes hfilter manager
        · exact h.espnowReceiveCallback hknown hapart hm hmac htypes hfilter manager

theorem requestSender_has {requestMac : Mac} {owner : Nat}
    (h : n.requestSender m.sender.sta (m.frame s r) = some (requestMac, owner)) :
    m.sender.Has requestMac := by
  unfold requestSender at h
  dsimp only at h
  split at h
  · obtain ⟨owner', -, heq⟩ := Option.map_eq_some_iff.mp h
    exact .inl (Prod.mk.inj heq).1.symm
  · split at h
    · exact .inr (Prod.mk.inj (Option.some.inj h)).1.symm
    · obtain ⟨owner', -, heq⟩ := Option.map_eq_some_iff.mp h
      exact .inl (Prod.mk.inj heq).1.symm

/-- **A frame of any type** keeps what is stored. -/
theorem Stored.receiveFrame (h : n.Stored s filters sent) (hknown : Known s nodes sent)
    (hapart : Apart nodes) (hm : m ∈ sent)
    (hfilter : ∀ i t t', (env.instances i).broadcastFilter t = some t' → filters t t') :
    Kept s filters sent (n.receiveFrame s env m.sender.sta (m.frame s r)) := by
  have hchar : MessageType.ofChar (m.frame s r).messageType = some m.messageType :=
    MessageType.ofChar_char m.messageType
  unfold EspnowNode.receiveFrame
  rw [hchar]
  cases htype : m.messageType with
  | Q =>
    have hkept : Kept s filters sent
        (n.receiveRequest s env m.messageType m.sender.sta (m.frame s r)) :=
      h.receiveRequest hknown hapart hm (.inl htype) hfilter
    rw [htype] at hkept
    exact hkept
  | B =>
    have hkept : Kept s filters sent
        (n.receiveRequest s env m.messageType m.sender.sta (m.frame s r)) :=
      h.receiveRequest hknown hapart hm (.inr htype) hfilter
    rw [htype] at hkept
    exact hkept
  | A =>
    dsimp only
    split
    · exact h.ignores
    · rename_i requestMac owner hsender
      have hkept : Kept s filters sent
          (n.espnowReceiveCallback s env owner m.messageType requestMac (m.frame s r)) :=
        h.espnowReceiveCallback hknown hapart hm (requestSender_has hsender)
          (.inr (.inr htype)) hfilter owner
      rw [htype] at hkept
      exact hkept
  | S =>
    refine ⟨_, none, rfl, ?_, by rintro x ⟨⟩⟩
    exact h.congr (synchronizePeerSessionKey_transmissions ..)
  | P =>
    refine ⟨_, none, rfl, ?_, by rintro x ⟨⟩⟩
    exact h.congr (handlePeerRequest_transmissions ..)
  | C => exact h.ignores

/-- **The bytes of a transmission** are read as the frame that was made. -/
theorem Stored.wrapper (h : n.Stored s filters sent) (hknown : Known s nodes sent)
    (hapart : Apart nodes) (hm : m ∈ sent) (hr : r < s.transmissionsRequired m.message)
    {nonce : List UInt8} (hnonce : nonce.length = 12)
    (hfilter : ∀ i t t', (env.instances i).broadcastFilter t = some t' → filters t t') :
    Kept s filters sent (n.espnowReceiveCallbackWrapper s env m.sender.sta
      ((m.frame s r).transmission s nonce)) := by
  obtain ⟨dataArray, hdecrypted, hread⟩ :=
    Frame.read_transmission ((hknown.sendable m hm).frame_valid hr) hnonce
  unfold EspnowNode.espnowReceiveCallbackWrapper
  split
  · exact h.ignores
  · split
    · exact h.ignores
    · rw [hdecrypted]
      dsimp only
      rw [hread]
      exact h.receiveFrame hknown hapart hm hfilter

end EspnowNode

/-! ## Runs -/

namespace Ether

open EspnowNode SentMessage

variable {s : Settings} {nodes : List NodeAddress} {filters : Text → Text → Prop} {w : Ether}

/-- A message under way is one that was sent, up to the transmission that is next. -/
def Sends (s : Settings) (sent : List SentMessage) (a : NodeAddress) (sd : Sending) : Prop :=
  ∃ m ∈ sent, m.sender = a ∧ sd.transmissionsRemaining < s.transmissionsRequired m.message ∧
    sd.frame s a.ap = m.frame s sd.transmissionsRemaining ∧ sd.message = m.message

structure Inv (s : Settings) (nodes : List NodeAddress) (filters : Text → Text → Prop)
    (w : Ether) : Prop where
  known : Known s nodes w.sent
  sending : ∀ a sd, w.sending a = some sd → Sends s w.sent a sd
  air : ∀ x ∈ w.air, ∃ m ∈ w.sent, ∃ r < s.transmissionsRequired m.message, ∃ nonce,
    nonce.length = 12 ∧ x = (m.sender.sta, (m.frame s r).transmission s nonce)
  stored : w.node.Stored s filters w.sent
  handed : ∀ x ∈ w.handed, Intact s filters w.sent x

theorem inv_init : init.Inv s nodes filters where
  known := ⟨by rintro m ⟨⟩, by rintro m ⟨⟩⟩
  sending := by rintro a sd ⟨⟩
  air := by rintro x ⟨⟩
  stored := by rintro key d ⟨⟩
  handed := by rintro x ⟨⟩

variable {sent' : List SentMessage} {a : NodeAddress} {sd : Sending}

theorem Sends.mono {sent : List SentMessage} (hsub : ∀ m ∈ sent, m ∈ sent')
    (h : Sends s sent a sd) : Sends s sent' a sd := by
  obtain ⟨m, hm, hrest⟩ := h
  exact ⟨m, hsub m hm, hrest⟩

theorem Sends.next {sent : List SentMessage} {sd' : Sending}
    (h : Sends s sent a sd) (hnext : sd.next = some sd') : Sends s sent a sd' := by
  obtain ⟨m, hm, hsender, hlt, hframe, hmessage⟩ := h
  unfold Sending.next at hnext
  split at hnext
  · cases hnext
  · obtain rfl := Option.some.inj hnext
    refine ⟨m, hm, hsender, by dsimp only; omega, ?_, hmessage⟩
    obtain ⟨htype, -, -, hmac, hID, -⟩ := Frame.mk.inj hframe
    have hstart : decide (sd.transmissionsRemaining - 1 + 1 =
        s.transmissionsRequired m.message) = false := decide_eq_false (by omega)
    rw [Sending.frame, frame]
    dsimp only
    rw [hstart, htype, hmac, hID, hmessage]

theorem intact_mono {sent : List SentMessage} (hsub : ∀ m ∈ sent, m ∈ sent')
    {x : HandedMessage} (h : Intact s filters sent x) : Intact s filters sent' x := by
  obtain ⟨m, hm, hrest⟩ := h
  exact ⟨m, hsub m hm, hrest⟩

theorem stored_mono {sent : List SentMessage} (hsub : ∀ m ∈ sent, m ∈ sent')
    {n : EspnowNode} (h : n.Stored s filters sent) : n.Stored s filters sent' := by
  intro key d hd
  obtain ⟨m, hm, hrest⟩ := h key d hd
  exact ⟨m, hsub m hm, hrest⟩

theorem known_append {sent : List SentMessage} (h : Known s nodes sent) {m : SentMessage}
    (hm : m.Sendable s nodes)
    (hfresh : ∀ m' ∈ sent, m'.sender = m.sender → m'.messageType = m.messageType →
      m'.messageID = m.messageID → m' = m) : Known s nodes (sent ++ [m]) where
  sendable := by
    intro m' hm'
    rcases mem_append.mp hm' with hm' | hm'
    · exact h.sendable m' hm'
    · grind
  unique := by
    intro a ha b hb hsender htype hID
    rcases mem_append.mp ha with ha | ha
    · rcases mem_append.mp hb with hb | hb
      · exact h.unique a ha b hb hsender htype hID
      · grind
    · rcases mem_append.mp hb with hb | hb
      · grind
      · rw [mem_singleton.mp ha, mem_singleton.mp hb]

/-- **A message is begun.** -/
theorem Inv.send (h : w.Inv s nodes filters) {sender : NodeAddress} {targetBSSID : Mac}
    {messageID : Nat} {messageType : MessageType} {message : Text}
    (hfits : (EtherEvent.send sender targetBSSID meshInstance messageType messageID message).Fits
      s nodes (.ok w)) :
    ∃ w', act s (.send sender targetBSSID meshInstance messageType messageID message) w = .ok w' ∧
      w'.Inv s nodes filters := by
  obtain ⟨hmem, hidle, hne, hID, hlength, hsingle, hfresh⟩ := hfits
  have hrequired := s.transmissionsRequired_pos hne
  have hstart : Sending.start s targetBSSID meshInstance messageType messageID message =
      .ok ⟨targetBSSID, meshInstance, messageType, messageID, message,
        s.transmissionsRequired message - 1, true⟩ := if_pos ⟨hlength, hsingle⟩
  refine ⟨_, by rw [act, hidle]; dsimp only; rw [hstart]; rfl, ?_⟩
  have hsub : ∀ m ∈ w.sent, m ∈ w.sent ++ [⟨sender, messageType, messageID, message⟩] :=
    fun m hm => mem_append_left _ hm
  refine ⟨?_, ?_, ?_, stored_mono hsub h.stored, fun x hx => intact_mono hsub (h.handed x hx)⟩
  · refine known_append h.known ⟨hmem, hne, hID, hlength.trans s.maxTransmissions_le⟩ ?_
    rintro ⟨sender', type', ID', message'⟩ hm' rfl rfl rfl
    rw [show message' = message from hfresh _ hm' rfl rfl rfl]
  · intro a sd hsd
    dsimp only [setSending] at hsd
    split at hsd
    · rename_i ha
      obtain rfl := Option.some.inj hsd
      refine ⟨_, mem_append_right _ mem_cons_self, ha.symm, ?_, ?_, rfl⟩
      · exact Nat.sub_lt hrequired Nat.one_pos
      · have hflag : decide (s.transmissionsRequired message - 1 + 1 =
            s.transmissionsRequired message) = true := decide_eq_true (by omega)
        rw [Sending.frame, frame]
        dsimp only
        rw [hflag, ha]
    · exact (h.sending a sd hsd).mono hsub
  · intro x hx
    obtain ⟨m, hm, hrest⟩ := h.air x hx
    exact ⟨m, hsub m hm, hrest⟩

theorem Inv.setNode (h : w.Inv s nodes filters) {n : EspnowNode} {handed : List HandedMessage}
    (hn : n.Stored s filters w.sent) (hhanded : ∀ x ∈ handed, Intact s filters w.sent x) :
    ({ w with node := n, handed := w.handed ++ handed } : Ether).Inv s nodes filters where
  known := h.known
  sending := h.sending
  air := h.air
  stored := hn
  handed := by
    intro x hx
    rcases mem_append.mp hx with hx | hx
    · exact h.handed x hx
    · exact hhanded x hx

theorem Inv.setSending (h : w.Inv s nodes filters) {sd : Option Sending}
    (hsd : ∀ sd', sd = some sd' → Sends s w.sent a sd') :
    (w.setSending a sd).Inv s nodes filters where
  known := h.known
  sending := by
    intro b sd' hb
    rw [Ether.setSending] at hb
    dsimp only at hb
    split at hb
    · rename_i hba
      rw [hba]
      exact hsd sd' hb
    · exact h.sending b sd' hb
  air := h.air
  stored := h.stored
  handed := h.handed

/-- **A transmission arrives**, or is lost, or arrives again. -/
theorem Inv.deliver (h : w.Inv s nodes filters) (hapart : Apart nodes) {i : Nat}
    (hfilter : ∀ i t t', (env.instances i).broadcastFilter t = some t' → filters t t') :
    ∃ w', w.deliver s i env = .ok w' ∧ w'.Inv s nodes filters := by
  unfold Ether.deliver
  cases hget : w.air[i]? with
  | none => exact ⟨w, rfl, h⟩
  | some x =>
    obtain ⟨m, hm, r, hr, nonce, hnonce, rfl⟩ := h.air x (mem_of_getElem? hget)
    obtain ⟨n', handed, hwrapper, hstored, hhanded⟩ :=
      h.stored.wrapper h.known hapart hm hr hnonce hfilter
    dsimp only
    rw [hwrapper]
    refine ⟨_, rfl, h.setNode hstored ?_⟩
    intro x hx
    exact hhanded x (Option.mem_toList.mp hx)

/-- **Every event keeps the invariant.** -/
theorem Inv.act (h : w.Inv s nodes filters) (hapart : Apart nodes) {event : EtherEvent}
    (hfits : event.Fits s nodes (.ok w))
    (hfilter : ∀ i env, event = .deliver i env → ∀ i t t',
      (env.instances i).broadcastFilter t = some t' → filters t t') :
    ∃ w', act s event w = .ok w' ∧ w'.Inv s nodes filters := by
  cases event with
  | send sender targetBSSID meshInstance messageType messageID message => exact h.send hfits
  | transmit sender nonce =>
    rw [Ether.act]
    cases hsending : w.sending sender with
    | none => exact ⟨w, rfl, h⟩
    | some sd =>
      obtain ⟨m, hm, hsender, hlt, hframe, -⟩ := h.sending sender sd hsending
      refine ⟨_, rfl, ⟨h.known, h.sending, ?_, h.stored, h.handed⟩⟩
      intro x hx
      rcases mem_append.mp hx with hx | hx
      · exact h.air x hx
      · refine ⟨m, hm, _, hlt, nonce, hfits, ?_⟩
        rw [mem_singleton.mp hx, hframe, hsender]
  | confirm sender =>
    refine ⟨_, rfl, h.setSending fun sd' hsd' => ?_⟩
    obtain ⟨sd, hsending, hnext⟩ := Option.bind_eq_some_iff.mp hsd'
    exact (h.sending sender sd hsending).next hnext
  | giveUp sender => exact ⟨_, rfl, h.setSending (by rintro sd' ⟨⟩)⟩
  | deliver i env => exact h.deliver hapart (hfilter i env rfl)
  | storeSentRequest targetBSSID messageID owner =>
    exact ⟨_, rfl, ⟨h.known, h.sending, h.air, h.stored.congr rfl, h.handed⟩⟩
  | keepEntries transmissions requests sent =>
    refine ⟨_, rfl, ⟨h.known, h.sending, h.air, ?_, h.handed⟩⟩
    intro key d hd
    rw [EspnowNode.keepEntries] at hd
    dsimp only at hd
    split at hd
    · exact h.stored key d hd
    · cases hd
  | change encryptedConnections responsesToSend =>
    exact ⟨_, rfl, ⟨h.known, h.sending, h.air, h.stored.congr rfl, h.handed⟩⟩

end Ether

/-- No assertion has failed, and what was handed over is intact. -/
def HandsIntact (s : Settings) (filters : Text → Text → Prop) (result : Except Fault Ether) :
    Prop :=
  ∃ w, result = .ok w ∧ ∀ x ∈ w.handed, Intact s filters w.sent x

/-- **A message arrives as it was sent**, whatever is lost, repeated or mixed up on the way. -/
theorem reassembled_as_sent (s : Settings) (nodes : List NodeAddress) (hapart : Apart nodes)
    (events : List EtherEvent)
    (h : Runs.AllFit (Ether.step s) (EtherEvent.Fits s nodes) events (.ok .init)) :
    ∀ start, start <+: events →
      HandsIntact s (Filtered events) (Runs.after (Ether.step s) start (.ok .init)) := by
  rintro start ⟨rest, rfl⟩
  have hfilter : Runs.AllFit (Ether.step s)
      (fun event _ => event ∈ start ++ rest) start (.ok .init) :=
    Runs.allFit_of_forall fun event hevent _ => mem_append_left rest hevent
  have hinv : ∃ w, Runs.after (Ether.step s) start (.ok .init) = .ok w ∧
      w.Inv s nodes (Filtered (start ++ rest)) := by
    refine @Runs.invariant _ _ _ _ (fun w => ∃ w', w = .ok w' ∧
      w'.Inv s nodes (Filtered (start ++ rest))) (fun event w hw hfits => ?_) _ _
      ⟨.init, rfl, Ether.inv_init⟩ ((Runs.allFit_append.mp h).1.and hfilter)
    obtain ⟨w', rfl, hw'⟩ := hw
    refine hw'.act hapart hfits.1 fun i env hevent m t t' haccept => ?_
    exact ⟨i, env, m, hevent ▸ hfits.2, haccept⟩
  obtain ⟨w, hafter, hw⟩ := hinv
  exact ⟨w, hafter, hw.handed⟩

def plainSettings : Settings where
  maxTransmissionsPerMessage := 3
  maxTransmissions_le := by decide
  useEncryptedMessages := false
  cipher := {
    encrypt := fun message _ _ => (message, List.replicate 16 0)
    decrypt := fun text _ _ _ => some text
    length_encrypt := fun _ _ _ => rfl
    length_tag := fun _ _ _ => rfl
    decrypt_encrypt := fun _ _ _ => rfl }
  hmac := fun _ _ => []

def openSurroundings : Surroundings where
  freeHeap := 30000
  criticalHeapLevel := 6000
  instances := fun _ => ⟨true, fun t => some (t.drop 1), fun _ => []⟩
  espnowRequestManager := some 0
  random := 0

def lampAddress : NodeAddress := ⟨⟨2, 0, 0, 0, 0, 1⟩, ⟨2, 0, 0, 0, 0, 2⟩⟩

theorem apart_lamp : Apart [lampAddress] := by
  intro a ha b hb _ _ _
  rw [mem_singleton.mp ha, mem_singleton.mp hb]

def longQuestion : List EtherEvent :=
  .send lampAddress ⟨2, 0, 0, 0, 0, 3⟩ 0 .Q 7 (List.replicate 300 104) ::
    [.transmit lampAddress (List.replicate 12 0), .deliver 0 openSurroundings,
      .transmit lampAddress (List.replicate 12 0), .deliver 1 openSurroundings,
      .confirm lampAddress, .transmit lampAddress (List.replicate 12 0),
      .deliver 0 openSurroundings, .deliver 2 openSurroundings, .deliver 2 openSurroundings]

theorem reassembled_as_sent_sample :
    HandsIntact plainSettings (Filtered longQuestion)
      (Runs.after (Ether.step plainSettings) longQuestion (.ok .init)) := by
  have hrequired : plainSettings.transmissionsRequired (replicate 300 104) = 2 := by
    rw [Settings.transmissionsRequired, length_replicate]
    rfl
  refine reassembled_as_sent plainSettings [lampAddress] apart_lamp longQuestion
    ⟨⟨mem_cons_self, rfl, ?_, by decide, ?_, ?_, by rintro m ⟨⟩⟩, ?_⟩ longQuestion
    (prefix_refl longQuestion)
  · grind
  · rw [hrequired]
    decide
  · rintro (⟨⟨⟩⟩ | ⟨⟨⟩⟩)
  · refine Runs.allFit_of_forall fun event hevent w => ?_
    simp only [mem_cons, not_mem_nil, or_false] at hevent
    rcases hevent with rfl | rfl | rfl | rfl | rfl | rfl | rfl | rfl | rfl
    all_goals cases w with
      | error fault => first | rfl | trivial
      | ok w => first | rfl | trivial

def markedBroadcast : List EtherEvent :=
  [.send lampAddress ⟨255, 255, 255, 255, 255, 255⟩ 0 .B 7 [35, 104],
    .transmit lampAddress (List.replicate 12 0), .deliver 0 openSurroundings]

/-- **What is handed over of a broadcast** need not be what was sent: the filter has taken the mark
off. -/
theorem not_reassembled_as_sent :
    ¬ ∀ (s : Settings) (nodes : List NodeAddress) (events : List EtherEvent), Apart nodes →
      Runs.AllFit (Ether.step s) (EtherEvent.Fits s nodes) events (.ok .init) →
      ∀ w, Runs.after (Ether.step s) events (.ok .init) = .ok w → ∀ x ∈ w.handed,
        ∃ m ∈ w.sent, m.sender.Has x.macaddr ∧ m.messageType = x.messageType ∧
          m.messageID = x.messageID ∧ x.totalMessage = m.message := by
  intro hclaim
  have hfits : Runs.AllFit (Ether.step plainSettings) (EtherEvent.Fits plainSettings [lampAddress])
      markedBroadcast (.ok .init) :=
    ⟨⟨mem_cons_self, rfl, by decide, by decide, by decide, by decide, by rintro m ⟨⟩⟩, rfl,
      trivial, trivial⟩
  obtain ⟨m, hm, -, -, -, hmessage⟩ :=
    hclaim plainSettings [lampAddress] markedBroadcast apart_lamp hfits _ rfl
      ⟨0, ⟨2, 0, 0, 0, 0, 1⟩, .B, 7, [104]⟩ mem_cons_self
  rw [mem_singleton.mp hm] at hmessage
  cases hmessage
end Mesh
