import RalioFirmware.Mesh.MessageLog
import Mathlib.Logic.Function.Basic

/-!
# Broadcasts that are passed on

Any number of nodes in one ether.  A node broadcasts, hears what is in the air, hands it to its
sketch when all of it is there, and puts it in the air again later.  Every text carries a note of
the broadcast that it stems from, which no node looks at; what a sketch sees is what was
broadcast, however many nodes lie in between.
-/

namespace Mesh

open Http CString List Function
open Option (some.inj)

/-! ## The ether -/

structure Network (ι : Type) where
  /-- A node whose program has ended is none. -/
  nodes : ι → Option Node
  /-- The broadcasts that were made. -/
  made : List (ι × Original)
  /-- What can be heard. -/
  air : List (Original × Text)
  /-- The requests of which a node has the first transmission. -/
  pending : List (ι × Original × Text)
  /-- What a node's backlog stems from. -/
  stems : ι → List Original
  /-- What the message handlers got. -/
  seen : List (ι × Original × Node.Handed)

inductive RelayEvent (ι : Type) where
  | broadcast (i : ι) (content : Text)
  /-- The node gets the text number `j`, of which `k` bytes are the first transmission. -/
  | hear (i : ι) (j k : Nat)
  /-- The rest of the pending request number `j` has arrived. -/
  | receive (j : Nat) (messageHandler : MessageHandler)
  | forward (i : ι)
  | restart (i : ι)

namespace Network

variable {ι : Type} [DecidableEq ι]

def init : Network ι := ⟨fun _ => some Node.init, [], [], [], fun _ => [], []⟩

def setNode (i : ι) (n : Option Node) (s : Network ι) : Network ι :=
  { s with nodes := update s.nodes i n }

def broadcast (cfg : ι → Config) (i : ι) (content : Text) (n : Node) (s : Network ι) :
    Network ι :=
  match n.broadcast (cfg i) content with
  | .error _ => s.setNode i none
  | .ok (text, n') =>
    let o : Original := ⟨(cfg i).meshName, (cfg i).softAPmac, n.messageCount, content⟩
    { s.setNode i (some n') with made := (i, o) :: s.made, air := (o, text) :: s.air }

def hear (cfg : ι → Config) (i : ι) (o : Original) (text : Text) (k : Nat) (n : Node)
    (s : Network ι) : Network ι :=
  match n.defaultBroadcastFilter (cfg i) (text.take k) with
  | .error _ => s.setNode i none
  | .ok (none, n') => s.setNode i (some n')
  | .ok (some stored, n') =>
    { s.setNode i (some n') with pending := (i, o, stored ++ text.drop k) :: s.pending }

def receive (cfg : ι → Config) (i : ι) (o : Original) (request : Text)
    (messageHandler : MessageHandler) (n : Node) (s : Network ι) : Network ι :=
  match n.defaultRequestHandler (cfg i) request false messageHandler with
  | .error _ => s.setNode i none
  | .ok (none, n') => s.setNode i (some n')
  | .ok (some handed, n') =>
    { s.setNode i (some n') with
      seen := (i, o, handed) :: s.seen
      stems := update s.stems i
        (s.stems i ++ if (messageHandler handed.message).1 then [o] else []) }

def forward (i : ι) (n : Node) (s : Network ι) : Network ι :=
  match n.forwardNext with
  | none => s
  | some ((text, encrypted), n') =>
    { s.setNode i (some n') with
      -- An encrypted transmission is not a broadcast.
      air := if encrypted then s.air else ((s.stems i).headD default, text) :: s.air
      stems := update s.stems i (s.stems i).tail }

def act (cfg : ι → Config) : RelayEvent ι → Network ι → Network ι
  | .broadcast i content, s =>
    match s.nodes i with
    | none => s
    | some n => s.broadcast cfg i content n
  | .hear i j k, s =>
    match s.nodes i, s.air[j]? with
    | some n, some (o, text) => s.hear cfg i o text k n
    | _, _ => s
  | .receive j messageHandler, s =>
    match s.pending[j]? with
    | none => s
    | some (i, o, request) =>
      match s.nodes i with
      | none => s
      | some n => s.receive cfg i o request messageHandler n
  | .forward i, s =>
    match s.nodes i with
    | none => s
    | some n => s.forward i n
  | .restart i, s =>
    { s.setNode i (some Node.init) with stems := update s.stems i [] }

end Network

/-- A message handler may edit what goes on; here none does. -/
def RelayEvent.LeavesAlone {ι : Type} : RelayEvent ι → Prop
  | .receive _ messageHandler => ∀ message,
    (messageHandler message).1 = true → (messageHandler message).2 = message
  | _ => True

/-- What a sketch has seen is a broadcast that was made, for its mesh or for all of them. -/
structure Delivered {ι : Type} (cfg : ι → Config) (broadcasts : List (ι × Original)) (i : ι)
    (o : Original) (handed : Node.Handed) : Prop where
  made : ∃ sender, (sender, o) ∈ broadcasts ∧ o.meshName = (cfg sender).meshName ∧
    o.mac = (cfg sender).softAPmac
  content : handed.message = o.content
  messageID : handed.messageID = o.messageID
  originMac : handed.originMac = o.mac
  mesh : o.meshName = [] ∨ (cfg i).meshName = o.meshName

/-! ## What a node makes of a text -/

variable {ch : UInt8}

theorem strchr_cases {mem : List UInt8} {i : Nat} (h : strchr ch mem = some i) :
    (∃ front back, mem = front ++ ch :: back ∧ front.length = i ∧ ch ∉ front ∧ 0 ∉ front) ∨
      i = mem.length := by
  by_cases hch : ch = 0
  · subst hch
    induction mem generalizing i with
    | nil =>
      refine .inr ?_
      rw [strchr, if_pos rfl] at h
      exact (some.inj h).symm
    | cons b rest ih =>
      rw [strchr] at h
      split at h
      · rename_i hb
        obtain rfl := some.inj h
        exact .inl ⟨[], rest, by rw [hb]; rfl, rfl, by simp, by simp⟩
      · rename_i hb
        obtain ⟨j, hj, rfl⟩ := Option.map_eq_some_iff.mp h
        rcases ih hj with ⟨front, back, rfl, rfl, hfront, -⟩ | rfl
        · have hcons : (0 : UInt8) ∉ b :: front :=
            mem_cons.not.mpr (not_or.mpr ⟨Ne.symm hb, hfront⟩)
          exact .inl ⟨b :: front, back, rfl, rfl, hcons, hcons⟩
        · exact .inr rfl
  · exact .inl ((strchr_eq_some hch).mp h)

theorem indexOf_of_ne {s : Text} (h : s.indexOf ch 0 ≠ -1) :
    ∃ i : Nat, strchr ch s = some i ∧ s.indexOf ch 0 = i := by
  unfold Text.indexOf at h ⊢
  by_cases hempty : 0 ≥ s.length
  · exact absurd (if_pos hempty) h
  · rw [if_neg hempty, drop_zero] at h ⊢
    cases hfind : strchr ch s with
    | none =>
      grind
    | some i => exact ⟨i, rfl, congrArg Nat.cast (Nat.zero_add i)⟩

theorem front_unique {front front' back back' : List UInt8} (h : ch ∉ front)
    (h' : ch ∉ front') (heq : front ++ ch :: back = front' ++ ch :: back') : front = front' := by
  induction front generalizing front' with
  | nil =>
    cases front' with
    | nil => rfl
    | cons b front' =>
      obtain rfl : ch = b := (cons.inj heq).1
      exact absurd mem_cons_self h'
  | cons a front ih =>
    cases front' with
    | nil =>
      obtain rfl : a = ch := (cons.inj heq).1
      exact absurd mem_cons_self h
    | cons b front' =>
      obtain ⟨rfl, htail⟩ := cons.inj heq
      rw [ih (fun hm => h (mem_cons_of_mem _ hm))
        (fun hm => h' (mem_cons_of_mem _ hm)) htail]

variable {o : Original}

/-- **The filter takes only what is for its mesh, or for all of them**, wherever the first
transmission ends. -/
theorem Original.mesh_of_read {c : Config} {k id : Nat}
    (hname : c.metadataDelimiter ∉ o.meshName)
    (h : Node.readFirstTransmission c ((o.text c.metadataDelimiter).take k) = some id) :
    o.meshName = [] ∨ c.meshName = o.meshName := by
  have hprefix : (o.text c.metadataDelimiter).take k <+: o.text c.metadataDelimiter :=
    List.take_prefix _ _
  generalize (o.text c.metadataDelimiter).take k = first at h hprefix
  unfold Node.readFirstTransmission at h
  dsimp only at h
  split at h
  · cases h
  rename_i hindex
  obtain ⟨i, hfind, hi⟩ := indexOf_of_ne hindex
  rw [hi, Int.toNat_natCast] at h
  rcases strchr_cases hfind with ⟨front, back, rfl, rfl, hfront, hfrontZero⟩ | rfl
  · have htarget : Text.substring (front ++ c.metadataDelimiter :: back) 0 front.length =
        front := by
      have := substring_found [] front (c.metadataDelimiter :: back)
      simpa using this
    obtain ⟨rest, hrest⟩ := hprefix
    rw [Original.text_eq, append_assoc, cons_append] at hrest
    obtain rfl := front_unique hfront hname hrest
    rw [htarget] at h
    split at h
    · cases h
    · rename_i haccept
      by_cases hnil : o.meshName = []
      · exact .inl hnil
      · have hequals : c.meshName.equals o.meshName = true := by
          by_contra hno
          exact haccept ⟨hnil, hno⟩
        exact .inr ((Text.equals_iff (.inr hfrontZero)).mp hequals)
  · -- Only the NUL behind the transmission was found, and nothing is behind that.
    have hend : Text.indexOf first c.metadataDelimiter (first.length + 1) = -1 := by
      rw [Text.indexOf, if_pos (by omega)]
    rw [hend, if_pos rfl] at h
    split at h
    · cases h
    · cases h

theorem uint64ToMac_macToUint64 (mac : Mac) : uint64ToMac (macToUint64 mac) = mac := by
  obtain ⟨b0, b1, b2, b3, b4, b5⟩ := mac
  have h0 := b0.toNat_lt
  have h1 := b1.toNat_lt
  have h2 := b2.toNat_lt
  have h3 := b3.toNat_lt
  have h4 := b4.toNat_lt
  have h5 := b5.toNat_lt
  have hbyte : ∀ (n : Nat) (b : UInt8), n % 256 = b.toNat → UInt8.ofNat n = b := by
    intro n b h
    rw [← UInt8.toNat_inj, UInt8.toNat_ofNat', h]
  rw [uint64ToMac, macToUint64]
  dsimp only
  congr 1
  all_goals
    refine hbyte _ _ ?_
    omega

theorem Original.originMac (hcount : o.count < 65536) :
    uint64ToMac (o.messageID / 65536) = o.mac := by
  have hdiv : o.messageID / 65536 = macToUint64 o.mac := by
    rw [Original.messageID]
    omega
  rw [hdiv, uint64ToMac_macToUint64]

variable {messageHandler : MessageHandler}

namespace Node

variable {n n' : Node} {c : Config} {id : Nat}

/-- The log has nothing to do with the backlog and the counter. -/
def Beside (n n' : Node) : Prop :=
  n'.forwardingBacklog = n.forwardingBacklog ∧ n'.messageCount = n.messageCount

theorem updateMessageQueue_beside {iterator : Nat}
    (h : n.updateMessageQueue iterator = .ok n') : n.Beside n' := by
  unfold updateMessageQueue at h
  dsimp only at h
  split at h
  · unfold eraseOldest at h
    split at h
    · cases h
    · split at h
      · simp only [bind, Except.bind] at h
        split at h
        · obtain rfl := Except.ok.inj h
          exact ⟨rfl, rfl⟩
        · cases h
      · cases h
  · obtain rfl := Except.ok.inj h
    exact ⟨rfl, rfl⟩

variable {b : Bool}

theorem emplace_beside {count : Nat} {b' : Bool}
    (h : ((n.emplace id count).updateMessageQueue n.allocated).bind (fun m => .ok (b, m)) =
      .ok (b', n')) : n.Beside n' := by
  cases hupdate : (n.emplace id count).updateMessageQueue n.allocated with
  | error fault =>
    rw [hupdate] at h
    cases h
  | ok m =>
    rw [hupdate] at h
    obtain ⟨-, rfl⟩ := Prod.mk.inj (Except.ok.inj h)
    exact @updateMessageQueue_beside (n.emplace id count) _ _ hupdate

theorem insertPreliminaryMessageID_beside
    (h : n.insertPreliminaryMessageID c id = .ok (b, n')) : n.Beside n' := by
  unfold insertPreliminaryMessageID at h
  split at h
  · obtain ⟨-, rfl⟩ := Prod.mk.inj (Except.ok.inj h)
    exact ⟨rfl, rfl⟩
  · split at h
    · exact emplace_beside h
    · split at h
      all_goals
        obtain ⟨-, rfl⟩ := Prod.mk.inj (Except.ok.inj h)
        exact ⟨rfl, rfl⟩

theorem insertCompletedMessageID_beside
    (h : n.insertCompletedMessageID c id = .ok (b, n')) : n.Beside n' := by
  unfold insertCompletedMessageID at h
  split at h
  · obtain ⟨-, rfl⟩ := Prod.mk.inj (Except.ok.inj h)
    exact ⟨rfl, rfl⟩
  · split at h
    · exact emplace_beside h
    · split at h
      all_goals
        obtain ⟨-, rfl⟩ := Prod.mk.inj (Except.ok.inj h)
        exact ⟨rfl, rfl⟩

/-- **What the filter stores is what came, with the mark.** -/
theorem defaultBroadcastFilter_ok {first : Text} {stored : Option Text}
    (h : n.defaultBroadcastFilter c first = .ok (stored, n')) :
    n.Beside n' ∧ ∀ t, stored = some t →
      t = c.metadataDelimiter :: first ∧ ∃ id, readFirstTransmission c first = some id := by
  unfold defaultBroadcastFilter at h
  cases hread : readFirstTransmission c first with
  | none =>
    rw [hread] at h
    obtain ⟨rfl, rfl⟩ := Prod.mk.inj (Except.ok.inj h)
    exact ⟨⟨rfl, rfl⟩, fun t ht => by cases ht⟩
  | some id =>
    rw [hread] at h
    dsimp only at h
    cases hinsert : n.insertPreliminaryMessageID c id with
    | error fault =>
      rw [hinsert] at h
      cases h
    | ok r =>
      obtain ⟨inserted, m⟩ := r
      rw [hinsert] at h
      cases inserted with
      | false =>
        obtain ⟨rfl, rfl⟩ := Prod.mk.inj (Except.ok.inj h)
        exact ⟨insertPreliminaryMessageID_beside hinsert, fun t ht => by cases ht⟩
      | true =>
        obtain ⟨rfl, rfl⟩ := Prod.mk.inj (Except.ok.inj h)
        refine ⟨insertPreliminaryMessageID_beside hinsert, ?_⟩
        intro t ht
        exact ⟨(some.inj ht).symm, id, rfl⟩

/-- **The request handler hands on what was broadcast, and puts up the same text again.** -/
theorem defaultRequestHandler_ok
    {handed : Option Handed} (hname : c.metadataDelimiter ∉ o.meshName) (hcount : o.count < 65536)
    (hleaves : ∀ message, (messageHandler message).1 = true →
      (messageHandler message).2 = message)
    (h : n.defaultRequestHandler c (c.metadataDelimiter :: o.text c.metadataDelimiter) false
      messageHandler = .ok (handed, n')) :
    n'.messageCount = n.messageCount ∧
      ((handed = none ∧ n'.forwardingBacklog = n.forwardingBacklog) ∨
        (handed = some ⟨o.messageID, o.mac, o.content⟩ ∧
          n'.forwardingBacklog = n.forwardingBacklog ++
            if (messageHandler o.content).1 then [(o.text c.metadataDelimiter, false)]
            else [])) := by
  unfold defaultRequestHandler at h
  by_cases hzero : 0 ∈ o.meshName
  · rw [Original.readRequest_nul hname hzero] at h
    obtain ⟨rfl, rfl⟩ := Prod.mk.inj (Except.ok.inj h)
    exact ⟨rfl, .inl ⟨rfl, rfl⟩⟩
  rw [Original.readRequest_marked hname hzero hcount] at h
  dsimp only at h
  cases hinsert : n.insertCompletedMessageID c
    (o.parts (o.meshName ++ [c.metadataDelimiter]) c.metadataDelimiter).messageID with
  | error fault =>
    rw [hinsert] at h
    cases h
  | ok r =>
    obtain ⟨inserted, m⟩ := r
    rw [hinsert] at h
    obtain ⟨hbacklog, hmcount⟩ := insertCompletedMessageID_beside hinsert
    cases inserted with
    | false =>
      obtain ⟨rfl, rfl⟩ := Prod.mk.inj (Except.ok.inj h)
      exact ⟨hmcount, .inl ⟨rfl, hbacklog⟩⟩
    | true =>
      simp only [bind, Except.bind, ↓reduceIte, handleMessage, Original.parts_message] at h
      have hmetadata := Original.parts_metadata c.metadataDelimiter o
      have hmac := Original.originMac hcount
      split at h
      · rename_i hgoes
        split at h
        · obtain ⟨rfl, rfl⟩ := Prod.mk.inj (Except.ok.inj h)
          refine ⟨hmcount, .inr ⟨by rw [← hmac]; rfl, ?_⟩⟩
          rw [if_pos hgoes]
          dsimp only
          rw [hbacklog, hleaves _ hgoes, Original.parts]
          dsimp only
          rw [hmetadata]
          simp [Original.text]
        · cases h
      · rename_i hstays
        obtain ⟨rfl, rfl⟩ := Prod.mk.inj (Except.ok.inj h)
        refine ⟨hmcount, .inr ⟨by rw [← hmac]; rfl, ?_⟩⟩
        rw [if_neg hstays, append_nil]
        exact hbacklog

end Node

/-! ## The invariant -/

namespace Network

variable {ι : Type} {cfg : ι → Config} {s : Network ι}

/-- The broadcast was made by a node of this name and this address. -/
def Made (cfg : ι → Config) (broadcasts : List (ι × Original)) (o : Original) : Prop :=
  o.count < 65536 ∧ ∃ sender, (sender, o) ∈ broadcasts ∧ o.meshName = (cfg sender).meshName ∧
    o.mac = (cfg sender).softAPmac

/-- Everything under way is the text of the broadcast that it stems from. -/
structure Inv (cfg : ι → Config) (d : UInt8) (s : Network ι) : Prop where
  count_lt : ∀ i n, s.nodes i = some n → n.messageCount < 65536
  backlog : ∀ i n, s.nodes i = some n →
    n.forwardingBacklog = (s.stems i).map fun o => (o.text d, false)
  stems : ∀ i, ∀ o ∈ s.stems i, Made cfg s.made o
  air : ∀ o text, (o, text) ∈ s.air → text = o.text d ∧ Made cfg s.made o
  pending : ∀ i o request, (i, o, request) ∈ s.pending →
    request = d :: o.text d ∧ Made cfg s.made o ∧ (o.meshName = [] ∨ (cfg i).meshName = o.meshName)
  seen : ∀ i o handed, (i, o, handed) ∈ s.seen → Delivered cfg s.made i o handed

theorem inv_init (d : UInt8) : (init : Network ι).Inv cfg d where
  count_lt := by
    intro i n hn
    obtain rfl := some.inj hn
    decide
  backlog := by
    intro i n hn
    obtain rfl := some.inj hn
    rfl
  stems := by intro i o h; cases h
  air := by intro o text h; cases h
  pending := by intro i o request h; cases h
  seen := by intro i o handed h; cases h

variable [DecidableEq ι]

variable {i : ι} {m : Node}

theorem nodes_setNode {j : ι} {n : Option Node}
    (h : (s.setNode i n).nodes j = some m) :
    (j = i ∧ n = some m) ∨ (j ≠ i ∧ s.nodes j = some m) := by
  by_cases hij : j = i
  · subst hij
    rw [setNode] at h
    dsimp only at h
    rw [update_self] at h
    exact .inl ⟨rfl, h⟩
  · rw [setNode] at h
    dsimp only at h
    rw [update_of_ne hij] at h
    exact .inr ⟨hij, h⟩

variable {d : UInt8}

theorem Inv.setNode (h : s.Inv cfg d) {i : ι} {n : Option Node} {stems : List Original}
    (hn : ∀ m, n = some m → m.messageCount < 65536 ∧
      m.forwardingBacklog = stems.map fun o => (o.text d, false))
    (hstems : ∀ o ∈ stems, Made cfg s.made o) :
    ({ s.setNode i n with stems := update s.stems i stems } : Network ι).Inv cfg d where
  count_lt := by
    intro j m hm
    rcases nodes_setNode hm with ⟨-, hsome⟩ | ⟨-, hm⟩
    · exact (hn m hsome).1
    · exact h.count_lt j m hm
  backlog := by
    intro j m hm
    rcases nodes_setNode hm with ⟨rfl, hsome⟩ | ⟨hne, hm⟩
    · grind
    · dsimp only
      rw [update_of_ne hne]
      exact h.backlog j m hm
  stems := by
    intro j o ho
    by_cases hij : j = i
    · subst hij
      dsimp only at ho
      rw [update_self] at ho
      exact hstems o ho
    · dsimp only at ho
      rw [update_of_ne hij] at ho
      exact h.stems j o ho
  air := h.air
  pending := h.pending
  seen := h.seen

theorem Inv.setBeside (h : s.Inv cfg d) {n : Node} (hi : s.nodes i = some n)
    (hm : n.Beside m) : (s.setNode i (some m)).Inv cfg d := by
  have hset := @Inv.setNode ι cfg s _ d h i (some m) (s.stems i) ?_ (h.stems i)
  · rw [update_eq_self] at hset
    exact hset
  · intro m' hm'
    obtain rfl := some.inj hm'
    rw [hm.1, hm.2]
    exact ⟨h.count_lt i n hi, h.backlog i n hi⟩

theorem Inv.stop (h : s.Inv cfg d) (i : ι) : (s.setNode i none).Inv cfg d := by
  have hset := @Inv.setNode ι cfg s _ d h i none (s.stems i) (fun m hm => by cases hm) (h.stems i)
  rw [update_eq_self] at hset
  exact hset

/-! ## Each event -/

theorem Inv.broadcast (hd : ∀ i, (cfg i).metadataDelimiter = d) (h : s.Inv cfg d)
    {n : Node} (hi : s.nodes i = some n) (content : Text) :
    (s.broadcast cfg i content n).Inv cfg d := by
  unfold Network.broadcast Node.broadcast
  split
  · exact h.stop i
  · rename_i text n' hok
    split at hok
    · obtain ⟨rfl, rfl⟩ := Prod.mk.inj (Except.ok.inj hok)
      have hset := @Inv.setNode ι cfg s _ d h i
        (some { n with messageCount := (n.messageCount + 1) % 65536 }) (s.stems i) ?_ (h.stems i)
      · rw [update_eq_self] at hset
        have hmade : ∀ o, Made cfg s.made o → Made cfg ((i, Original.mk (cfg i).meshName
            (cfg i).softAPmac n.messageCount content) :: s.made) o := by
          rintro o ⟨hcount, sender, hmem, hrest⟩
          exact ⟨hcount, sender, mem_cons_of_mem _ hmem, hrest⟩
        refine ⟨hset.count_lt, hset.backlog, fun j o ho => hmade o (hset.stems j o ho), ?_, ?_, ?_⟩
        · intro o text hmem
          rcases mem_cons.mp hmem with heq | hmem
          · obtain ⟨rfl, rfl⟩ := Prod.mk.inj heq
            refine ⟨?_, h.count_lt i n hi, i, mem_cons_self, rfl, rfl⟩
            rw [hd i]
            rfl
          · exact ⟨(hset.air o text hmem).1, hmade o (hset.air o text hmem).2⟩
        · intro j o request hmem
          obtain ⟨hrequest, hm, hmesh⟩ := hset.pending j o request hmem
          exact ⟨hrequest, hmade o hm, hmesh⟩
        · intro j o handed hmem
          obtain ⟨⟨sender, hm, hrest⟩, h2, h3, h4, h5⟩ := hset.seen j o handed hmem
          exact ⟨⟨sender, mem_cons_of_mem _ hm, hrest⟩, h2, h3, h4, h5⟩
      · intro m hm
        obtain rfl := some.inj hm
        exact ⟨Nat.mod_lt _ (by decide), h.backlog i n hi⟩
    · cases hok

theorem Inv.hear (hd : ∀ i, (cfg i).metadataDelimiter = d) (hname : ∀ i, d ∉ (cfg i).meshName)
    (h : s.Inv cfg d) {n : Node} (hi : s.nodes i = some n) {text : Text}
    (hair : (o, text) ∈ s.air) (k : Nat) : (s.hear cfg i o text k n).Inv cfg d := by
  obtain ⟨rfl, hmade⟩ := h.air o text hair
  unfold Network.hear
  split
  · exact h.stop i
  · rename_i n' hok
    exact h.setBeside hi (Node.defaultBroadcastFilter_ok hok).1
  · rename_i stored n' hok
    obtain ⟨hbeside, hstored⟩ := Node.defaultBroadcastFilter_ok hok
    obtain ⟨rfl, id, hread⟩ := hstored stored rfl
    have hset := h.setBeside hi hbeside
    refine ⟨hset.count_lt, hset.backlog, hset.stems, hset.air, ?_, hset.seen⟩
    intro j o' request hmem
    rcases mem_cons.mp hmem with heq | hmem
    · obtain ⟨rfl, hrest⟩ := Prod.mk.inj heq
      obtain ⟨rfl, rfl⟩ := Prod.mk.inj hrest
      obtain ⟨-, sender, -, hmesh, -⟩ := hmade
      refine ⟨by rw [hd, cons_append, take_append_drop], h.air _ _ hair |>.2, ?_⟩
      have hfree : (cfg j).metadataDelimiter ∉ o'.meshName := by grind
      rw [← hd j] at hread
      exact Original.mesh_of_read hfree hread
    · exact hset.pending j o' request hmem

theorem Inv.receive (hd : ∀ i, (cfg i).metadataDelimiter = d) (hname : ∀ i, d ∉ (cfg i).meshName)
    (h : s.Inv cfg d) {n : Node} (hi : s.nodes i = some n) {request : Text}
    (hpending : (i, o, request) ∈ s.pending)
    (hleaves : ∀ message, (messageHandler message).1 = true →
      (messageHandler message).2 = message) :
    (s.receive cfg i o request messageHandler n).Inv cfg d := by
  obtain ⟨rfl, hmade, hmesh⟩ := h.pending i o request hpending
  have hdi := hd i
  have hfree : (cfg i).metadataDelimiter ∉ o.meshName := by
    obtain ⟨-, sender, -, hsender, -⟩ := hmade
    rw [hdi, hsender]
    exact hname sender
  unfold Network.receive
  split
  · exact h.stop i
  · rename_i n' hok
    rw [← hdi] at hok
    obtain ⟨hcount, hcases⟩ := Node.defaultRequestHandler_ok hfree hmade.1 hleaves hok
    rcases hcases with ⟨-, hbacklog⟩ | ⟨hsome, -⟩
    · exact h.setBeside hi ⟨hbacklog, hcount⟩
    · cases hsome
  · rename_i handed n' hok
    rw [← hdi] at hok
    obtain ⟨hcount, hcases⟩ := Node.defaultRequestHandler_ok hfree hmade.1 hleaves hok
    rcases hcases with ⟨hnone, -⟩ | ⟨hsome, hbacklog⟩
    · cases hnone
    obtain rfl := some.inj hsome
    rw [hdi] at hbacklog
    dsimp only
    have hset := @Inv.setNode ι cfg s _ d h i (some n')
      (s.stems i ++ if (messageHandler o.content).1 then [o] else []) ?_ ?_
    · refine ⟨hset.count_lt, hset.backlog, hset.stems, hset.air, hset.pending, ?_⟩
      intro j o' handed hmem
      rcases mem_cons.mp hmem with heq | hmem
      · obtain ⟨rfl, hrest⟩ := Prod.mk.inj heq
        obtain ⟨rfl, rfl⟩ := Prod.mk.inj hrest
        exact ⟨hmade.2, rfl, rfl, rfl, hmesh⟩
      · exact hset.seen j o' handed hmem
    · intro m hm
      obtain rfl := some.inj hm
      rw [hcount, hbacklog, h.backlog i n hi]
      refine ⟨h.count_lt i n hi, ?_⟩
      split
      · rw [map_append]
        rfl
      · rw [append_nil, append_nil]
    · intro o' ho'
      rcases mem_append.mp ho' with ho' | ho'
      · exact h.stems i o' ho'
      · split at ho'
        · grind
        · cases ho'

theorem Inv.forward (h : s.Inv cfg d) {n : Node} (hi : s.nodes i = some n) :
    (s.forward i n).Inv cfg d := by
  have hbacklog := h.backlog i n hi
  unfold Network.forward Node.forwardNext
  cases hstems : s.stems i with
  | nil =>
    grind
  | cons o rest =>
    rw [hstems, map_cons] at hbacklog
    rw [hbacklog]
    dsimp only
    have ho : Made cfg s.made o := h.stems i o (by rw [hstems]; exact mem_cons_self)
    have hset := @Inv.setNode ι cfg s _ d h i
      (some { n with forwardingBacklog := rest.map fun o => (o.text d, false) }) rest ?_ ?_
    · refine ⟨hset.count_lt, hset.backlog, hset.stems, ?_, hset.pending, hset.seen⟩
      intro o' text hmem
      rcases mem_cons.mp hmem with heq | hmem
      · obtain ⟨rfl, rfl⟩ := Prod.mk.inj heq
        exact ⟨rfl, ho⟩
      · exact hset.air o' text hmem
    · intro m hm
      obtain rfl := some.inj hm
      exact ⟨h.count_lt i n hi, rfl⟩
    · intro o' ho'
      exact h.stems i o' (by rw [hstems]; exact mem_cons_of_mem _ ho')

/-- **One event keeps the invariant.** -/
theorem Inv.act (hd : ∀ i, (cfg i).metadataDelimiter = d) (hname : ∀ i, d ∉ (cfg i).meshName)
    (event : RelayEvent ι) (s : Network ι) (h : s.Inv cfg d) (hleaves : event.LeavesAlone) :
    (act cfg event s).Inv cfg d := by
  cases event with
  | broadcast i content =>
    unfold Network.act
    dsimp only
    cases hi : s.nodes i with
    | none => exact h
    | some n => exact h.broadcast hd hi content
  | hear i j k =>
    unfold Network.act
    dsimp only
    cases hi : s.nodes i with
    | none => exact h
    | some n =>
      cases hj : s.air[j]? with
      | none => exact h
      | some heard => exact h.hear hd hname hi (mem_of_getElem? hj) k
  | receive j messageHandler =>
    unfold Network.act
    dsimp only
    cases hj : s.pending[j]? with
    | none => exact h
    | some entry =>
      obtain ⟨i, o, request⟩ := entry
      dsimp only
      cases hi : s.nodes i with
      | none => exact h
      | some n => exact h.receive hd hname hi (mem_of_getElem? hj) hleaves
  | forward i =>
    unfold Network.act
    dsimp only
    cases hi : s.nodes i with
    | none => exact h
    | some n => exact h.forward hi
  | restart i =>
    refine @Inv.setNode ι cfg s _ d h i (some Node.init) [] ?_ (by intro o ho; cases ho)
    intro m hm
    obtain rfl := some.inj hm
    exact ⟨by decide, rfl⟩

end Network

/-! ## Whole runs -/

/-- **What any sketch sees is a broadcast as it was made**, for its mesh or for all of them, over
any number of nodes. -/
theorem relayed_as_broadcast {ι : Type} [DecidableEq ι] (cfg : ι → Config) (d : UInt8)
    (hd : ∀ i, (cfg i).metadataDelimiter = d) (hname : ∀ i, d ∉ (cfg i).meshName)
    (events : List (RelayEvent ι)) (hleaves : ∀ event ∈ events, event.LeavesAlone) (i : ι)
    (o : Original) (handed : Node.Handed)
    (hseen : (i, o, handed) ∈ (Runs.after (Network.act cfg) events Network.init).seen) :
    Delivered cfg (Runs.after (Network.act cfg) events Network.init).made i o handed := by
  have hfit : Runs.AllFit (Network.act cfg) (fun event _ => RelayEvent.LeavesAlone event) events
      Network.init := Runs.allFit_of_forall fun event he _ => hleaves event he
  have hinv := Runs.invariant (fun event s h hfits => Network.Inv.act hd hname event s h hfits)
    (Network.inv_init d) hfit
  exact hinv.seen i o handed hseen

/-! ## Three nodes in a row -/

def row (meshName : Nat → Text) (i : Nat) : Config :=
  { sampleConfig with
    meshName := meshName i
    softAPmac := ⟨222, 173, 190, 239, 0, UInt8.ofNat i⟩ }

def twoHops (middle : MessageHandler) : List (RelayEvent Nat) :=
  [.broadcast 0 [104, 23, 0, 105], .hear 1 0 234, .receive 0 middle, .forward 1, .hear 2 0 234,
    .receive 0 fun message => (false, message)]

def greeting : Original := ⟨[77], ⟨222, 173, 190, 239, 0, 0⟩, 0, [104, 23, 0, 105]⟩

theorem relayed_as_broadcast_sample :
    Delivered (row fun _ => [77])
      (Runs.after (Network.act (row fun _ => [77])) (twoHops fun message => (true, message))
        Network.init).made
      2 greeting ⟨greeting.messageID, greeting.mac, greeting.content⟩ := by
  refine relayed_as_broadcast (row fun _ => [77]) 23 (fun _ => rfl) ?_ _ ?_ 2 greeting _ ?_
  · intro i
    exact (by decide : (23 : UInt8) ∉ [77])
  · intro event hevent
    simp only [twoHops, mem_cons, not_mem_nil, or_false] at hevent
    rcases hevent with rfl | rfl | rfl | rfl | rfl | rfl
    · trivial
    · trivial
    · exact fun _ _ => rfl
    · trivial
    · trivial
    · exact fun _ _ => rfl
  · have hseen : (Runs.after (Network.act (row fun _ => [77]))
        (twoHops fun message => (true, message)) Network.init).seen.head? =
        some (2, greeting, ⟨greeting.messageID, greeting.mac, greeting.content⟩) := rfl
    exact mem_of_mem_head? hseen

/-- **A broadcast without a mesh name is for everybody, and edits go on**: a node of the mesh `M`
sees what a node without a mesh broadcast, and the node behind an editing one sees the edit. -/
theorem not_relayed_as_broadcast :
    (∃ o handed, (Runs.after (Network.act (row fun i => if i = 0 then [] else [77]))
        [.broadcast 0 [104], .hear 1 0 234, .receive 0 fun message => (false, message)]
        Network.init).seen = [(1, o, handed)] ∧
      (row (fun i => if i = 0 then [] else [77]) 1).meshName ≠ o.meshName) ∧
      ∃ handed seen, (Runs.after (Network.act (row fun _ => [77]))
          (twoHops fun message => (true, message ++ [33])) Network.init).seen =
            (2, greeting, handed) :: seen ∧ handed.message ≠ greeting.content :=
  ⟨⟨_, _, rfl, by decide⟩, ⟨_, _, rfl, by decide⟩⟩

end Mesh
