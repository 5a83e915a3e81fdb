import RalioFirmware.Mesh.Reassembly

/-!
# A request is handed over once

A node gets transmissions from anywhere, in any order and any number of times.  The log of received
requests keeps it from handling a request again while the entry lives; a request of its own is
answered once, unless it was a broadcast: broadcasts stay in the log of sent requests until they
expire, so that every node may answer, and a node that does so twice is heard twice.
-/

namespace Mesh

open Http List

/-! ## Runs -/

inductive NodeEvent where
  | receive (env : Surroundings) (macaddr : Mac) (dataArray : List UInt8)
  | storeSentRequest (targetBSSID messageID owner : Nat)
  | keepEntries (transmissions requests sent : Nat × Nat → Bool)
  /-- Connections come and go, and responses are sent. -/
  | change (encryptedConnections : List EncryptedConnectionLog)
      (responsesToSend : List ResponseData)

structure History where
  node : EspnowNode
  handed : List HandedMessage
  /-- The requests that were recorded as sent. -/
  recorded : List (Nat × Nat)
  /-- How often the entry of a received request has gone. -/
  forgotten : Nat × Nat → Nat

namespace History

def init : History := ⟨.init, [], [], fun _ => 0⟩

def act (s : Settings) : NodeEvent → History → Except Fault History
  | .receive env macaddr dataArray, x => do
    let (node, handed) ← x.node.espnowReceiveCallbackWrapper s env macaddr dataArray
    return { x with node, handed := x.handed ++ handed.toList }
  | .storeSentRequest targetBSSID messageID owner, x => .ok { x with
      node := x.node.storeSentRequest targetBSSID messageID owner
      recorded := x.recorded ++ [(targetBSSID, messageID)] }
  | .keepEntries transmissions requests sent, x => .ok { x with
      node := x.node.keepEntries transmissions requests sent
      forgotten := fun k =>
        x.forgotten k + if x.node.receivedRequests k ∧ ¬ requests k then 1 else 0 }
  | .change encryptedConnections responsesToSend, x =>
    .ok { x with node := { x.node with encryptedConnections, responsesToSend } }

def step (s : Settings) (event : NodeEvent) (x : Except Fault History) : Except Fault History :=
  x.bind (act s event)

end History

/-! ## What is promised -/

def HandedMessage.isRequest (macaddr : Mac) (messageID : Nat) (x : HandedMessage) : Bool :=
  (x.messageType = .Q ∨ x.messageType = .B) ∧ x.macaddr = macaddr ∧ x.messageID = messageID

def HandedMessage.isAnswer (macaddr : Mac) (messageID : Nat) (x : HandedMessage) : Bool :=
  x.messageType = .A ∧ x.macaddr = macaddr ∧ x.messageID = messageID

/-- **At most once.**  A request is handed over once, and again only after its entry has gone; an
answer is taken for a request that was recorded as sent; and, unless it was a broadcast, once for
each time. -/
structure AtMostOnce (x : History) : Prop where
  request : ∀ macaddr messageID, x.handed.countP (HandedMessage.isRequest macaddr messageID) ≤
    1 + x.forgotten (macToUint64 macaddr, messageID)
  answered : ∀ m ∈ x.handed, m.messageType = .A →
    (macToUint64 m.macaddr, m.messageID) ∈ x.recorded ∨
      (uint64BroadcastMac, m.messageID) ∈ x.recorded
  answer : ∀ macaddr messageID, (uint64BroadcastMac, messageID) ∉ x.recorded →
    x.handed.countP (HandedMessage.isAnswer macaddr messageID) ≤
      x.recorded.count (macToUint64 macaddr, messageID)

/-! ## What a transmission does to the logs -/

namespace EspnowNode

variable {s : Settings} {n n' : EspnowNode} {macaddr : Mac} {messageID : Nat}

def SameLogs (n n' : EspnowNode) : Prop :=
  n'.receivedRequests = n.receivedRequests ∧ n'.sentRequests = n.sentRequests

theorem SameLogs.refl (n : EspnowNode) : SameLogs n n := ⟨rfl, rfl⟩

theorem synchronizePeerSessionKey_logs (s : Settings) (random sessionKey : Nat) (mac : Mac)
    (n : EspnowNode) : SameLogs n (n.synchronizePeerSessionKey s random sessionKey mac).2 := by
  unfold synchronizePeerSessionKey
  split
  · exact SameLogs.refl n
  · split
    · exact SameLogs.refl n
    · split
      all_goals exact ⟨rfl, rfl⟩

variable {f : Frame}

variable {mi : MeshInstance}

theorem storeTransmission_cases {messageType : MessageType}
    {key : Nat × Nat} {goesOn : Bool}
    (h : n.storeTransmission s mi messageType key f = .ok (n', goesOn)) :
    ∃ transmissions, n' = { n with receivedEspnowTransmissions := transmissions } := by
  have hkept : ∀ (d : Option MessageData) (b : Bool),
      (Except.ok (n.setTransmission key d, b) : Except Fault _) = .ok (n', goesOn) →
        ∃ transmissions, n' = { n with receivedEspnowTransmissions := transmissions } := by
    rintro d b ⟨⟩
    exact ⟨_, rfl⟩
  have hsame : ∀ b : Bool, (Except.ok (n, b) : Except Fault _) = .ok (n', goesOn) →
      ∃ transmissions, n' = { n with receivedEspnowTransmissions := transmissions } := by
    rintro b ⟨⟩
    exact ⟨_, rfl⟩
  unfold storeTransmission at h
  split at h
  · split at h
    · split at h
      · exact hsame _ h
      · split at h
        · exact hsame _ h
        · exact hkept _ _ h
    · cases hd : MessageData.ofTransmission s f with
      | error fault =>
        rw [hd] at h
        cases h
      | ok d =>
        rw [hd] at h
        dsimp only [Bind.bind, Except.bind] at h
        split at h
        · exact hsame _ h
        · exact hkept _ _ h
  · split at h
    · exact hsame _ h
    · rename_i stored _
      cases hadd : stored.addToMessage s f with
      | error fault =>
        rw [hadd] at h
        cases h
      | ok added =>
        rw [hadd] at h
        dsimp only [Bind.bind, Except.bind] at h
        cases added with
        | some d => exact hkept _ _ h
        | none =>
          dsimp only at h
          split at h
          · exact hkept _ _ h
          · exact hsame _ h

/-- What comes of a message that is complete: a request is stored, and may be responded to; an
answer takes the request from the log, and may move the session key on. -/
inductive Processed (s : Settings) (random : Nat) (macaddr : Mac) (messageID : Nat)
    (n : EspnowNode) : MessageType → EspnowNode → Prop
  | request {messageType : MessageType} (htype : messageType = .Q ∨ messageType = .B)
      (responses : List ResponseData)
      (hresponses : ∀ r ∈ responses, r = ⟨macaddr, messageID⟩) :
      Processed s random macaddr messageID n messageType
        { n.storeReceivedRequest (macToUint64 macaddr) messageID with
          responsesToSend := n.responsesToSend ++ responses }
  | answer (hconnection : n.connection macaddr = none) :
      Processed s random macaddr messageID n .A
        (n.deleteSentRequest (macToUint64 macaddr) messageID)
  | answered (i : Nat) (hconnection : n.connection macaddr = some i) :
      Processed s random macaddr messageID n .A
        ((n.deleteSentRequest (macToUint64 macaddr) messageID).modifyConnection i fun e =>
          if e.ownSessionKey = messageID then
            { incrementOwnSessionKey s random e with desync := false }
          else e)

theorem processMessage_cases {random : Nat} {messageType : MessageType}
    {totalMessage : Text}
    (h : n.processMessage s random mi messageType macaddr messageID totalMessage = .ok n') :
    Processed s random macaddr messageID n messageType n' := by
  have hrequest : ∀ t : MessageType, t = .Q ∨ t = .B →
      (if (mi.requestHandler totalMessage).length > 0 then
        (Except.ok { n.storeReceivedRequest (macToUint64 macaddr) messageID with
          responsesToSend := n.responsesToSend ++ [⟨macaddr, messageID⟩] } : Except Fault _)
        else .ok (n.storeReceivedRequest (macToUint64 macaddr) messageID)) = .ok n' →
      Processed s random macaddr messageID n t n' := by
    intro t ht hn
    split at hn
    · cases hn
      exact .request ht _ fun r hr => mem_singleton.mp hr
    · cases hn
      have hp := @Processed.request s random macaddr messageID n t ht [] (by rintro r ⟨⟩)
      rw [append_nil] at hp
      exact hp
  unfold processMessage at h
  cases messageType with
  | Q => exact hrequest .Q (.inl rfl) h
  | B => exact hrequest .B (.inr rfl) h
  | A =>
    dsimp only at h
    split at h
    · rename_i hconnection
      cases h
      exact .answer hconnection
    · rename_i i hconnection
      cases h
      exact .answered i hconnection
  | S => cases h
  | P => cases h
  | C => cases h

variable {env : Surroundings}

variable {meshInstance : Nat}

theorem espnowReceiveCallback_cases
    {messageType : MessageType} {handed : Option HandedMessage}
    (h : n.espnowReceiveCallback s env meshInstance messageType macaddr f = .ok (n', handed)) :
    ∃ transmissions,
      handed = none ∧ n' = { n with receivedEspnowTransmissions := transmissions } ∨
      (∃ totalMessage, handed =
          some ⟨meshInstance, macaddr, messageType, f.messageID, totalMessage⟩) ∧
        Processed s env.random macaddr f.messageID
          { n with receivedEspnowTransmissions := transmissions } messageType n' := by
  unfold espnowReceiveCallback at h
  dsimp only at h
  generalize (createMacAndTypeValue (macToUint64 macaddr) messageType.char, f.messageID) = key at h
  cases hstore : n.storeTransmission s (env.instances meshInstance) messageType key f with
  | error fault =>
    rw [hstore] at h
    cases h
  | ok stored =>
    obtain ⟨n₁, goesOn⟩ := stored
    obtain ⟨transmissions, rfl⟩ := storeTransmission_cases hstore
    rw [hstore] at h
    dsimp only [Bind.bind, Except.bind] at h
    split at h
    · cases h
      exact ⟨transmissions, .inl ⟨rfl, rfl⟩⟩
    · split at h
      · cases h
      · rename_i d _
        cases hprocess : (({ n with receivedEspnowTransmissions := transmissions } :
            EspnowNode).setTransmission key none).processMessage s env.random
            (env.instances meshInstance) messageType macaddr f.messageID d.totalMessage with
        | error fault =>
          rw [hprocess] at h
          cases h
        | ok n₂ =>
          rw [hprocess] at h
          cases h
          exact ⟨_, .inr ⟨⟨_, rfl⟩, processMessage_cases hprocess⟩⟩

/-- What the callback does to the logs, and what it hands over. -/
def Delivered (messageType : MessageType) (macaddr : Mac) (messageID : Nat) (n n' : EspnowNode)
    (handed : Option HandedMessage) : Prop :=
  handed = none ∧ SameLogs n n' ∨
    ∃ m, handed = some m ∧ m.messageType = messageType ∧ m.macaddr = macaddr ∧
      m.messageID = messageID ∧
      ((messageType = .Q ∨ messageType = .B) ∧
          n'.receivedRequests =
            (n.storeReceivedRequest (macToUint64 macaddr) messageID).receivedRequests ∧
          n'.sentRequests = n.sentRequests ∨
        messageType = .A ∧ n'.receivedRequests = n.receivedRequests ∧
          n'.sentRequests = (n.deleteSentRequest (macToUint64 macaddr) messageID).sentRequests)

/-- **The callback** hands over at most one message, and marks it in a log. -/
theorem espnowReceiveCallback_logs
    {messageType : MessageType} {handed : Option HandedMessage}
    (h : n.espnowReceiveCallback s env meshInstance messageType macaddr f = .ok (n', handed)) :
    Delivered messageType macaddr f.messageID n n' handed := by
  obtain ⟨transmissions, ⟨rfl, rfl⟩ | ⟨⟨totalMessage, rfl⟩, hprocessed⟩⟩ :=
    espnowReceiveCallback_cases h
  · exact .inl ⟨rfl, rfl, rfl⟩
  · refine .inr ⟨_, rfl, rfl, rfl, rfl, ?_⟩
    cases hprocessed with
    | request htype responses hresponses => exact .inl ⟨htype, rfl, rfl⟩
    | answer hconnection => exact .inr ⟨rfl, rfl, rfl⟩
    | answered i hconnection => exact .inr ⟨rfl, rfl, rfl⟩

/-- What a transmission does to the logs: a request that is handed over was not in the log and is
there now; an answer that is taken was waited for, and is not waited for any more. -/
inductive Logged (n n' : EspnowNode) : Option HandedMessage → Prop where
  | nothing (hsent : n'.sentRequests = n.sentRequests)
      (hreceived : ∀ k, n.receivedRequests k = true → n'.receivedRequests k = true) :
      Logged n n' none
  | request (m : HandedMessage) (htype : m.messageType = .Q ∨ m.messageType = .B)
      (hnew : n.receivedRequests (macToUint64 m.macaddr, m.messageID) = false)
      (hreceived : n'.receivedRequests =
        (n.storeReceivedRequest (macToUint64 m.macaddr) m.messageID).receivedRequests)
      (hsent : n'.sentRequests = n.sentRequests) : Logged n n' (some m)
  | answer (m : HandedMessage) (htype : m.messageType = .A)
      (hwaited : (n.sentRequests (macToUint64 m.macaddr, m.messageID)).isSome = true ∨
        (n.sentRequests (uint64BroadcastMac, m.messageID)).isSome = true)
      (hreceived : n'.receivedRequests = n.receivedRequests)
      (hsent : n'.sentRequests =
        (n.deleteSentRequest (macToUint64 m.macaddr) m.messageID).sentRequests) :
      Logged n n' (some m)

theorem SameLogs.logged (h : SameLogs n n') : Logged n n' none := by
  refine .nothing h.2 fun k hk => ?_
  rw [h.1]
  exact hk

theorem SameLogs.trans {n₁ : EspnowNode} {handed : Option HandedMessage} (h : SameLogs n n₁)
    (h' : Logged n₁ n' handed) : Logged n n' handed := by
  obtain ⟨hreceived, hsent⟩ := h
  cases h' with
  | nothing hs hr =>
    refine .nothing (hs.trans hsent) fun k hk => hr k ?_
    rw [hreceived]
    exact hk
  | request m htype hnew hr hs =>
    refine .request m htype (hreceived ▸ hnew) ?_ (hs.trans hsent)
    rw [hr, storeReceivedRequest, storeReceivedRequest, hreceived]
  | answer m htype hwaited hr hs =>
    refine .answer m htype (hsent ▸ hwaited) (hr.trans hreceived) ?_
    rw [hs, deleteSentRequest, deleteSentRequest, hsent]

theorem Delivered.request {messageType : MessageType} {handed : Option HandedMessage}
    (h : Delivered messageType macaddr messageID n n' handed)
    (htype : messageType = .Q ∨ messageType = .B)
    (hnew : n.receivedRequests (macToUint64 macaddr, messageID) = false) :
    Logged n n' handed := by
  rcases h with ⟨rfl, hsame⟩ | ⟨m, rfl, rfl, rfl, rfl, ⟨-, hr, hs⟩ | ⟨hA, -, -⟩⟩
  · exact hsame.logged
  · exact .request m htype hnew hr hs
  · grind

theorem ignored_logged {handed : Option HandedMessage}
    (h : (Except.ok (n, none) : Except Fault _) = .ok (n', handed)) : Logged n n' handed := by
  cases h
  exact (SameLogs.refl n).logged

theorem receiveRequest_logs {messageType : MessageType}
    {handed : Option HandedMessage} (htype : messageType = .Q ∨ messageType = .B)
    (h : n.receiveRequest s env messageType macaddr f = .ok (n', handed)) :
    Logged n n' handed := by
  unfold receiveRequest at h
  split at h
  · exact ignored_logged h
  · split at h
    · exact ignored_logged h
    · split at h
      · exact ignored_logged h
      · rename_i manager _ hnew
        have hfresh : n.receivedRequests (macToUint64 macaddr, f.messageID) = false :=
          Bool.eq_false_iff.mpr hnew
        split at h
        · have hsync := synchronizePeerSessionKey_logs s env.random f.messageID macaddr n
          dsimp only at h
          generalize n.synchronizePeerSessionKey s env.random f.messageID macaddr = result
            at h hsync
          have hfresh' : result.2.receivedRequests (macToUint64 macaddr, f.messageID) = false := by
            rw [hsync.1]
            exact hfresh
          split at h
          · cases h
            exact hsync.logged
          · exact hsync.trans ((espnowReceiveCallback_logs h).request htype hfresh')
        · exact (espnowReceiveCallback_logs h).request htype hfresh

theorem requestSender_waited {requestMac : Mac} {owner : Nat}
    (h : n.requestSender macaddr f = some (requestMac, owner)) :
    (n.sentRequests (macToUint64 requestMac, f.messageID)).isSome = true ∨
      (n.sentRequests (uint64BroadcastMac, f.messageID)).isSome = true := by
  unfold requestSender at h
  dsimp only at h
  split at h
  · obtain ⟨owner', hwaited, heq⟩ := Option.map_eq_some_iff.mp h
    obtain ⟨rfl, -⟩ := Prod.mk.inj heq
    exact .inl (Option.isSome_of_eq_some hwaited)
  · split at h
    · rename_i owner' hwaited
      obtain ⟨rfl, -⟩ := Prod.mk.inj (Option.some.inj h)
      exact .inl (Option.isSome_of_eq_some hwaited)
    · obtain ⟨owner', hwaited, heq⟩ := Option.map_eq_some_iff.mp h
      obtain ⟨rfl, -⟩ := Prod.mk.inj heq
      rcases Option.or_eq_some_iff.mp hwaited with hwaited | ⟨-, hwaited⟩
      · exact .inl (Option.isSome_of_eq_some hwaited)
      · exact .inr (Option.isSome_of_eq_some hwaited)

theorem receiveFrame_logs {handed : Option HandedMessage}
    (h : n.receiveFrame s env macaddr f = .ok (n', handed)) : Logged n n' handed := by
  unfold receiveFrame at h
  split at h
  · exact receiveRequest_logs (.inl rfl) h
  · exact receiveRequest_logs (.inr rfl) h
  · split at h
    · exact ignored_logged h
    · rename_i requestMac owner hsender
      rcases espnowReceiveCallback_logs h with
        ⟨rfl, hsame⟩ | ⟨m, rfl, htype, rfl, hID, ⟨hQ | hB, -, -⟩ | ⟨-, hr, hs⟩⟩
      · exact hsame.logged
      · cases hQ
      · cases hB
      · rw [← hID] at hs
        refine .answer m htype ?_ hr hs
        rw [hID]
        exact requestSender_waited hsender
  · cases h
    exact (synchronizePeerSessionKey_logs ..).logged
  · cases h
    unfold handlePeerRequest
    split
    · exact (SameLogs.refl n).logged
    · obtain ⟨hreceived, hsent⟩ := synchronizePeerSessionKey_logs s env.random f.messageID macaddr
        (n.storeReceivedRequest (macToUint64 macaddr) f.messageID)
      refine .nothing hsent fun k hk => ?_
      rw [hreceived, storeReceivedRequest]
      dsimp only
      rw [hk, Bool.or_true]
  · exact ignored_logged h
  · cases h

/-- **Any bytes from anywhere.** -/
theorem wrapper_logs {dataArray : List UInt8}
    {handed : Option HandedMessage}
    (h : n.espnowReceiveCallbackWrapper s env macaddr dataArray = .ok (n', handed)) :
    Logged n n' handed := by
  unfold espnowReceiveCallbackWrapper at h
  split at h
  · exact ignored_logged h
  · split at h
    · exact ignored_logged h
    · split at h
      · exact ignored_logged h
      · exact receiveFrame_logs h

end EspnowNode

/-! ## Every event -/

namespace History

open EspnowNode

variable {s : Settings} {x : History}

/-- The invariant: an entry that lives allows for one delivery less. -/
structure Inv (x : History) : Prop where
  request : ∀ macaddr messageID, x.handed.countP (HandedMessage.isRequest macaddr messageID) ≤
    x.forgotten (macToUint64 macaddr, messageID) +
      if x.node.receivedRequests (macToUint64 macaddr, messageID) then 1 else 0
  sent : ∀ k, (x.node.sentRequests k).isSome = true → k ∈ x.recorded
  answered : ∀ m ∈ x.handed, m.messageType = .A →
    (macToUint64 m.macaddr, m.messageID) ∈ x.recorded ∨
      (uint64BroadcastMac, m.messageID) ∈ x.recorded
  answer : ∀ macaddr messageID, (uint64BroadcastMac, messageID) ∉ x.recorded →
    x.handed.countP (HandedMessage.isAnswer macaddr messageID) +
        (if (x.node.sentRequests (macToUint64 macaddr, messageID)).isSome then 1 else 0) ≤
      x.recorded.count (macToUint64 macaddr, messageID)

theorem inv_init : init.Inv := by
  refine ⟨fun _ _ => Nat.zero_le _, ?_, ?_, fun _ _ _ => Nat.le_refl 0⟩
  · rintro k ⟨⟩
  · rintro m ⟨⟩

theorem Inv.atMostOnce (h : x.Inv) : AtMostOnce x where
  request := by
    intro macaddr messageID
    have hcount := h.request macaddr messageID
    split at hcount
    · omega
    · omega
  answered := h.answered
  answer := fun macaddr messageID hunicast =>
    (Nat.le_add_right _ _).trans (h.answer macaddr messageID hunicast)

variable {m : HandedMessage}

theorem isRequest_iff {macaddr : Mac} {messageID : Nat} :
    m.isRequest macaddr messageID = true ↔
      (m.messageType = .Q ∨ m.messageType = .B) ∧ m.macaddr = macaddr ∧
        m.messageID = messageID := decide_eq_true_iff

theorem isAnswer_iff {macaddr : Mac} {messageID : Nat} :
    m.isAnswer macaddr messageID = true ↔
      m.messageType = .A ∧ m.macaddr = macaddr ∧ m.messageID = messageID := decide_eq_true_iff

theorem grown_le {p q : Bool} (h : p = true → q = true) :
    (if p = true then 1 else 0) ≤ (if q = true then 1 else 0) := by
  cases p with
  | false => exact Nat.zero_le _
  | true => rw [h rfl]

/-- **A transmission** keeps the accounts. -/
theorem Inv.logged (h : x.Inv) {n' : EspnowNode} {handed : Option HandedMessage}
    (hlogged : Logged x.node n' handed) :
    ({ x with node := n', handed := x.handed ++ handed.toList } : History).Inv := by
  cases hlogged with
  | nothing hsent hreceived =>
    rw [Option.toList_none, append_nil]
    refine ⟨fun macaddr messageID => ?_, ?_, h.answered, ?_⟩
    · exact (h.request macaddr messageID).trans
        (Nat.add_le_add_left (grown_le (hreceived _)) _)
    · rw [hsent]
      exact h.sent
    · rw [hsent]
      exact h.answer
  | request m htype hnew hreceived hsent =>
    have hnoAnswer : ∀ macaddr messageID, m.isAnswer macaddr messageID ≠ true := by
      intro macaddr messageID hanswer
      rw [(isAnswer_iff.mp hanswer).1] at htype
      rcases htype with htype | htype
      all_goals cases htype
    refine ⟨fun macaddr messageID => ?_, ?_, ?_, fun macaddr messageID hunicast => ?_⟩
    · have hcount := h.request macaddr messageID
      dsimp only
      rw [Option.toList_some, countP_append, countP_singleton, hreceived,
        storeReceivedRequest]
      dsimp only
      by_cases hm : m.isRequest macaddr messageID = true
      · -- The entry was not there, and is there now.
        obtain ⟨-, rfl, rfl⟩ := isRequest_iff.mp hm
        rw [hnew, if_neg Bool.false_ne_true] at hcount
        rw [if_pos hm, if_pos (by simp)]
        exact Nat.add_le_add_right hcount 1
      · rw [if_neg hm, Nat.add_zero]
        refine hcount.trans (Nat.add_le_add_left (grown_le fun hold => ?_) _)
        rw [hold, Bool.or_true]
    · rw [hsent]
      exact h.sent
    · intro m' hm' hA
      rcases mem_append.mp hm' with hm' | hm'
      · exact h.answered m' hm' hA
      · obtain rfl := Option.some.inj (Option.mem_toList.mp hm')
        exact absurd (isAnswer_iff.mpr ⟨hA, rfl, rfl⟩) (hnoAnswer _ _)
    · have hcount := h.answer macaddr messageID hunicast
      dsimp only
      rw [Option.toList_some, countP_append, countP_singleton,
        if_neg (hnoAnswer macaddr messageID), Nat.add_zero, hsent]
      exact hcount
  | answer m htype hwaited hreceived hsent =>
    have hnoRequest : ∀ macaddr messageID, m.isRequest macaddr messageID ≠ true := by
      intro macaddr messageID hrequest
      have hQ := (isRequest_iff.mp hrequest).1
      rw [htype] at hQ
      rcases hQ with hQ | hQ
      all_goals cases hQ
    refine ⟨fun macaddr messageID => ?_, fun k hk => ?_, ?_, fun macaddr messageID hunicast => ?_⟩
    · dsimp only
      rw [Option.toList_some, countP_append, countP_singleton,
        if_neg (hnoRequest macaddr messageID), Nat.add_zero, hreceived]
      exact h.request macaddr messageID
    · dsimp only at hk
      rw [hsent, deleteSentRequest] at hk
      dsimp only at hk
      split at hk
      · cases hk
      · exact h.sent k hk
    · intro m' hm' hA
      rcases mem_append.mp hm' with hm' | hm'
      · exact h.answered m' hm' hA
      · obtain rfl := Option.some.inj (Option.mem_toList.mp hm')
        exact hwaited.imp (h.sent _) (h.sent _)
    · have hcount := h.answer macaddr messageID hunicast
      dsimp only
      rw [Option.toList_some, countP_append, countP_singleton]
      by_cases hm : m.isAnswer macaddr messageID = true
      · -- The request was waited for, and is not any more.
        obtain ⟨-, rfl, rfl⟩ := isAnswer_iff.mp hm
        have hlive : (x.node.sentRequests (macToUint64 m.macaddr, m.messageID)).isSome = true :=
          hwaited.resolve_right fun hbroadcast => hunicast (h.sent _ hbroadcast)
        have hgone : (n'.sentRequests (macToUint64 m.macaddr, m.messageID)).isSome = false := by
          rw [hsent, deleteSentRequest]
          dsimp only
          rw [if_pos rfl]
          rfl
        rw [if_pos hlive] at hcount
        rw [if_pos hm, hgone, if_neg Bool.false_ne_true]
        exact hcount
      · rw [if_neg hm, Nat.add_zero]
        refine (Nat.add_le_add_left (grown_le fun hold => ?_) _).trans hcount
        rw [hsent, deleteSentRequest] at hold
        dsimp only at hold
        split at hold
        · cases hold
        · exact hold

/-- **Every event keeps the invariant.** -/
theorem Inv.act (h : x.Inv) {event : NodeEvent} {x' : History} (hact : act s event x = .ok x') :
    x'.Inv := by
  cases event with
  | receive env macaddr dataArray =>
    rw [History.act] at hact
    cases hwrapper : x.node.espnowReceiveCallbackWrapper s env macaddr dataArray with
    | error fault =>
      rw [hwrapper] at hact
      cases hact
    | ok result =>
      rw [hwrapper] at hact
      obtain ⟨n', handed⟩ := result
      cases hact
      exact h.logged (wrapper_logs hwrapper)
  | storeSentRequest targetBSSID messageID owner =>
    cases hact
    refine ⟨h.request, fun k hk => ?_, fun m hm hA => ?_, fun macaddr messageID' hunicast => ?_⟩
    · dsimp only [storeSentRequest] at hk
      dsimp only
      split at hk
      · rename_i heq
        exact mem_append_right _ (mem_singleton.mpr heq)
      · exact mem_append_left _ (h.sent k hk)
    · exact (h.answered m hm hA).imp (mem_append_left _) (mem_append_left _)
    · have hcount := h.answer macaddr messageID'
        fun hold => hunicast (mem_append_left _ hold)
      dsimp only
      rw [count_append, count_singleton]
      by_cases hkey : (targetBSSID, messageID) = (macToUint64 macaddr, messageID')
      · rw [if_pos (beq_iff_eq.mpr hkey)]
        have hle := grown_le (p := ((x.node.storeSentRequest targetBSSID messageID
          owner).sentRequests (macToUint64 macaddr, messageID')).isSome) (q := true) fun _ => rfl
        rw [if_pos rfl] at hle
        omega
      · refine (Nat.add_le_add_left (grown_le fun hold => ?_) _).trans
          (hcount.trans (Nat.le_add_right _ _))
        dsimp only [storeSentRequest] at hold
        rw [if_neg fun heq => hkey heq.symm] at hold
        exact hold
  | keepEntries transmissions requests sent =>
    cases hact
    refine ⟨fun macaddr messageID => ?_, fun k hk => ?_, h.answered,
      fun macaddr messageID hunicast => ?_⟩
    · have hcount := h.request macaddr messageID
      dsimp only [keepEntries]
      by_cases hkeeps : requests (macToUint64 macaddr, messageID) = true
      · simpa [hkeeps] using hcount
      · simpa [hkeeps] using hcount
    · dsimp only [keepEntries] at hk
      split at hk
      · exact h.sent k hk
      · cases hk
    · refine (Nat.add_le_add_left (grown_le fun hold => ?_) _).trans
        (h.answer macaddr messageID hunicast)
      dsimp only [keepEntries] at hold
      split at hold
      · exact hold
      · cases hold
  | change encryptedConnections responsesToSend =>
    cases hact
    exact ⟨h.request, h.sent, h.answered, h.answer⟩

end History

/-- What a run may look like, as long as no assertion has ended it. -/
def KeepsAccounts : Except Fault History → Prop
  | .error _ => True
  | .ok x => AtMostOnce x

/-- **A request is handed over once, and an answer is taken once**, whatever arrives, how often and
in which order. -/
theorem delivered_at_most_once (s : Settings) (events : List NodeEvent) :
    KeepsAccounts (Runs.after (History.step s) events (.ok .init)) := by
  have hinv : ∀ x, Runs.after (History.step s) events (.ok .init) = .ok x → x.Inv := by
    refine @Runs.invariant_of_step _ _ _
      (fun r : Except Fault History => ∀ x, r = .ok x → x.Inv)
      (fun event r hr x hx => ?_) events _ ?_
    · cases r with
      | error fault => cases hx
      | ok y => exact (hr y rfl).act hx
    · rintro x ⟨⟩
      exact History.inv_init
  cases hafter : Runs.after (History.step s) events (.ok .init) with
  | error fault => trivial
  | ok x => exact (hinv x hafter).atMostOnce

def answeredTwice : List NodeEvent :=
  let answer : Frame := ⟨MessageType.A.char, 0, true, lampAddress.ap, 7, [104]⟩
  [.storeSentRequest uint64BroadcastMac 7 0,
    .receive openSurroundings lampAddress.sta (answer.transmission plainSettings []),
    .receive openSurroundings lampAddress.sta (answer.transmission plainSettings [])]

/-- **A broadcast is answered as often as an answer arrives.** -/
theorem not_delivered_at_most_once :
    ¬ ∀ (s : Settings) (events : List NodeEvent) (x : History),
      Runs.after (History.step s) events (.ok .init) = .ok x → ∀ macaddr messageID,
        x.handed.countP (HandedMessage.isAnswer macaddr messageID) ≤ x.recorded.length := by
  intro hclaim
  have hcount := hclaim plainSettings answeredTwice _ rfl lampAddress.sta 7
  revert hcount
  decide

end Mesh
