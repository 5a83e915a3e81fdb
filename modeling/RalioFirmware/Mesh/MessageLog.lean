import RalioFirmware.Mesh.Metadata
import RalioFirmware.Basis.Runs
import Mathlib.Data.List.Nodup

/-!
# The log of message IDs

The map and the queue are filled and emptied together, the oldest ID first, and the counters in
the map bound how often a message is accepted and handed on while its ID is there.  A new size
does not take IDs out; when it is below the number of those that the log holds, the log is too
large from then on, and the next new ID fails an assertion.
-/

namespace Mesh

open Http List

/-! ## Runs -/

inductive Event where
  | broadcast (message : Text)
  | encryptedBroadcast (message : Text)
  | firstTransmission (text : Text)
  | request (text : Text) (encrypted : Bool) (messageHandler : MessageHandler)
  | setMessageLogSize (messageLogSize : Nat)
  | clearMessageLogs
  | forward

structure Watched where
  node : Node
  /-- How often the filter has accepted a message since its ID was logged. -/
  accepted : Nat → Nat
  /-- How often the message handler got it since then. -/
  handed : Nat → Nat
  /-- The requests whose messages the handler ever got. -/
  handled : List Text
  /-- What this node's own broadcasts are, as requests. -/
  own : List Text

namespace Watched

def init : Watched := ⟨Node.init, fun _ => 0, fun _ => 0, [], []⟩

def bump : Option Nat → (Nat → Nat) → Nat → Nat
  | none, f => f
  | some id, f => fun i => if i = id then f i + 1 else f i

def whileLogged (n : Node) (f : Nat → Nat) : Nat → Nat :=
  fun id => if (n.find id).isSome then f id else 0

/-- The filter or the request handler has left the node as `n`. -/
def count (accepted handed : Option Nat) (n : Node) (w : Watched) : Watched :=
  { w with
    node := n
    accepted := whileLogged n (bump accepted w.accepted)
    handed := whileLogged n (bump handed w.handed) }

def filter (c : Config) (text : Text) (w : Watched) : Except Fault Watched := do
  let (stored, n) ← w.node.defaultBroadcastFilter c text
  return w.count (if stored.isSome then Node.readFirstTransmission c text else none) none n

def request (c : Config) (text : Text) (encrypted : Bool) (messageHandler : MessageHandler)
    (w : Watched) : Except Fault Watched := do
  let (handed, n) ← w.node.defaultRequestHandler c text encrypted messageHandler
  return { w.count none (handed.map Node.Handed.messageID) n with
    handled := if handed.isSome then text :: w.handled else w.handled }

def act (c : Config) : Event → Watched → Except Fault Watched
  | .broadcast message, w => do
    let (text, n) ← w.node.broadcast c message
    return { w with node := n, own := (c.metadataDelimiter :: text) :: w.own }
  | .encryptedBroadcast message, w => do
    let (text, n) ← w.node.encryptedBroadcast c message
    return { w with node := n, own := text :: w.own }
  | .firstTransmission text, w => w.filter c text
  | .request text encrypted messageHandler, w => w.request c text encrypted messageHandler
  | .setMessageLogSize messageLogSize, w => do
    let n ← w.node.setMessageLogSize messageLogSize
    return { w with node := n }
  | .clearMessageLogs, w => .ok (w.count none none w.node.clearMessageLogs)
  | .forward, w =>
    match w.node.forwardNext with
    | none => .ok w
    | some (_, n) => .ok { w with node := n }

def step (c : Config) (event : Event) (w : Except Fault Watched) : Except Fault Watched :=
  w.bind (act c event)

end Watched

/-! ## What is promised -/

def Node.deref (n : Node) (iterator : Nat) : Option Nat :=
  (n.messageIDs.find? fun e => e.iterator = iterator).map Entry.id

structure Watched.Sound (c : Config) (w : Watched) : Prop where
  /-- The iterators of the queue lead to the IDs of the map, each of them once. -/
  synced : (w.node.messageIdOrder.map w.node.deref).Perm
    (w.node.messageIDs.map fun e => some e.id)
  once : (w.node.messageIDs.map Entry.id).Nodup
  bounded : w.node.messageIDs.length ≤ w.node.messageLogSize
  handed : ∀ e ∈ w.node.messageIDs, w.handed e.id ≤ 1
  accepted : ∀ e ∈ w.node.messageIDs,
    w.accepted e.id ≤ c.broadcastReceptionRedundancy + 1
  own : ∀ text ∈ w.own, text ∉ w.handled

def Kept (c : Config) : Except Fault Watched → Prop
  | .error _ => True
  | .ok w => w.Sound c

/-- A new size has room for what is logged; `setMessageLogSize` asserts that it is not zero. -/
def Event.Fits : Event → Except Fault Watched → Prop
  | .setMessageLogSize messageLogSize, .ok w =>
    1 ≤ messageLogSize → w.node.messageIDs.length ≤ messageLogSize
  | _, _ => True

/-! ## The map and the queue -/

namespace Node

/-- The log in good order: the queue has the iterators of the map, oldest first. -/
structure Log (n : Node) : Prop where
  order : n.messageIdOrder = n.messageIDs.map Entry.iterator
  allocated : ∀ e ∈ n.messageIDs, e.iterator < n.allocated
  iterators : (n.messageIDs.map Entry.iterator).Nodup
  ids : (n.messageIDs.map Entry.id).Nodup
  bounded : n.messageIDs.length ≤ n.messageLogSize
  nonempty : 1 ≤ n.messageLogSize

variable {n : Node} {id count : Nat} {e : Entry}

theorem find_some (h : n.find id = some e) : e ∈ n.messageIDs ∧ e.id = id :=
  ⟨mem_of_find?_eq_some h, by simpa using find?_some h⟩

theorem find_none : n.find id = none ↔ ∀ e ∈ n.messageIDs, e.id ≠ id := by
  simp [find, find?_eq_none]

theorem find_isSome : (n.find id).isSome ↔ ∃ e ∈ n.messageIDs, e.id = id := by
  simp [find, find?_isSome]

/-- The log with an ID more, and without those that have no room. -/
def logged (id count : Nat) (n : Node) : Node :=
  { n with
    messageIDs := (n.messageIDs ++ [Entry.mk n.allocated id count]).drop
      (n.messageIDs.length + 1 - n.messageLogSize)
    messageIdOrder := (n.messageIdOrder ++ [n.allocated]).drop
      (n.messageIDs.length + 1 - n.messageLogSize)
    allocated := n.allocated + 1 }

theorem eraseOldest_eq {rest : List Entry} {order : List Nat} (hids : n.messageIDs = e :: rest)
    (horder : n.messageIdOrder = e.iterator :: order)
    (hne : ∀ a ∈ rest, a.iterator ≠ e.iterator) :
    n.eraseOldest = .ok { n with messageIDs := rest, messageIdOrder := order } := by
  have hfilter : rest.filter (fun a => decide (a.iterator ≠ e.iterator)) = rest :=
    filter_eq_self.mpr fun a ha => decide_eq_true (hne a ha)
  unfold eraseOldest
  rw [horder, hids]
  dsimp only
  rw [if_pos (by simp), filter_cons_of_neg (by simp), hfilter]

/-- **A new ID takes the place of the oldest one**, and no assertion fails. -/
theorem Log.updateMessageQueue (h : n.Log) (id count : Nat) :
    (n.emplace id count).updateMessageQueue n.allocated = .ok (n.logged id count) := by
  have hbounded := h.bounded
  have hpos := h.nonempty
  have hlength : (n.emplace id count).messageIDs.length = n.messageIDs.length + 1 := by
    rw [emplace, length_append]
    rfl
  unfold Node.updateMessageQueue
  dsimp only
  rw [hlength]
  split
  · rename_i hfull
    have hdrop : n.messageIDs.length + 1 - n.messageLogSize = 1 := by
      have : n.messageIDs.length + 1 > n.messageLogSize := hfull
      omega
    have hsize : n.messageIDs.length = n.messageLogSize := by omega
    obtain ⟨e, rest, hmap⟩ := exists_cons_of_length_pos (Nat.lt_of_lt_of_eq hpos hsize.symm)
    have horder : n.messageIdOrder = e.iterator :: rest.map Entry.iterator := by
      rw [h.order, hmap, map_cons]
    have hne : ∀ a ∈ rest ++ [Entry.mk n.allocated id count], a.iterator ≠ e.iterator := by
      intro a ha
      rcases mem_append.mp ha with ha | ha
      · have hnodup := h.iterators
        rw [hmap, map_cons, nodup_cons] at hnodup
        exact fun heq => hnodup.1 (heq ▸ mem_map_of_mem ha)
      · rw [mem_singleton.mp ha]
        have := h.allocated e (by rw [hmap]; exact mem_cons_self)
        exact Nat.ne_of_gt this
    have herase := @eraseOldest_eq
      { n.emplace id count with messageIdOrder := n.messageIdOrder ++ [n.allocated] } e
      (rest ++ [Entry.mk n.allocated id count]) (rest.map Entry.iterator ++ [n.allocated])
      (by rw [emplace, hmap]; rfl) (by rw [horder]; rfl) hne
    have hassert : (rest ++ [Entry.mk n.allocated id count]).length = n.messageLogSize ∧
        (rest ++ [Entry.mk n.allocated id count]).length =
          (rest.map Entry.iterator ++ [n.allocated]).length := by
      rw [hmap, length_cons] at hsize
      exact ⟨by simpa using hsize, by simp⟩
    rw [emplace] at herase ⊢
    dsimp only at herase ⊢
    rw [herase, logged, hdrop, hmap, horder]
    exact if_pos hassert
  · rename_i hroom
    have hdrop : n.messageIDs.length + 1 - n.messageLogSize = 0 := by
      have : ¬ n.messageIDs.length + 1 > n.messageLogSize := hroom
      omega
    rw [logged, hdrop]
    rfl

theorem mem_logged (h : e ∈ (n.logged id count).messageIDs) :
    e ∈ n.messageIDs ∨ e = Entry.mk n.allocated id count := by
  rcases mem_append.mp (mem_of_mem_drop h) with h | h
  · exact .inl h
  · exact .inr (mem_singleton.mp h)

theorem nodup_snoc {l : List Nat} (h : l.Nodup) {a : Nat} (ha : a ∉ l) : (l ++ [a]).Nodup := by
  refine nodup_append.mpr ⟨h, by simp, ?_⟩
  intro b hb c hc heq
  exact ha ((mem_singleton.mp hc) ▸ heq ▸ hb)

theorem Log.logged (h : n.Log) (hnew : n.find id = none) : (n.logged id count).Log where
  order := by simp [Node.logged, h.order, map_drop]
  allocated := by
    intro e he
    rcases mem_logged he with he | rfl
    · exact Nat.lt_succ_of_lt (h.allocated e he)
    · exact Nat.lt_succ_self _
  iterators := by
    have hnotMem : n.allocated ∉ n.messageIDs.map Entry.iterator := by
      intro hmem
      obtain ⟨e, he, heq⟩ := mem_map.mp hmem
      exact absurd heq (Nat.ne_of_lt (h.allocated e he))
    refine List.Nodup.sublist ((drop_sublist _ _).map _) ?_
    rw [map_append, map_singleton]
    exact nodup_snoc h.iterators hnotMem
  ids := by
    have hnotMem : id ∉ n.messageIDs.map Entry.id := by
      intro hmem
      obtain ⟨e, he, heq⟩ := mem_map.mp hmem
      exact find_none.mp hnew e he heq
    refine List.Nodup.sublist ((drop_sublist _ _).map _) ?_
    rw [map_append, map_singleton]
    exact nodup_snoc h.ids hnotMem
  bounded := by
    simp only [Node.logged, length_drop, length_append, length_singleton]
    omega
  nonempty := h.nonempty

theorem mem_setCount (h : e ∈ (n.setCount id count).messageIDs) :
    (e ∈ n.messageIDs ∧ e.id ≠ id) ∨
      ∃ a ∈ n.messageIDs, a.id = id ∧ e = { a with count } := by
  obtain ⟨a, ha, rfl⟩ := mem_map.mp h
  split
  · rename_i hid
    exact .inr ⟨a, ha, hid, rfl⟩
  · rename_i hid
    exact .inl ⟨ha, hid⟩

theorem setCount_map {A : Type} (f : Entry → A) (hf : ∀ e k, f { e with count := k } = f e) :
    (n.setCount id count).messageIDs.map f = n.messageIDs.map f := by
  rw [setCount, map_map]
  refine map_congr_left fun e _ => ?_
  rw [Function.comp_apply]
  split
  · exact hf e count
  · rfl

theorem Log.setCount (h : n.Log) : (n.setCount id count).Log where
  order := by
    rw [setCount_map Entry.iterator fun _ _ => rfl]
    exact h.order
  allocated := by
    intro e he
    rcases mem_setCount he with ⟨he, -⟩ | ⟨a, ha, -, rfl⟩
    · exact h.allocated e he
    · exact h.allocated a ha
  iterators := by
    rw [setCount_map Entry.iterator fun _ _ => rfl]
    exact h.iterators
  ids := by
    rw [setCount_map Entry.id fun _ _ => rfl]
    exact h.ids
  bounded := by
    rw [Node.setCount, length_map]
    exact h.bounded
  nonempty := h.nonempty

variable {c : Config}

theorem Log.entry_unique {a b : Entry} (h : n.Log) (ha : a ∈ n.messageIDs)
    (hb : b ∈ n.messageIDs) (hid : a.id = b.id) : a = b :=
  inj_on_of_nodup_map h.ids ha hb hid

/-- **What the filter does to the log.** -/
theorem Log.insertPreliminaryMessageID (h : n.Log) (c : Config) (id : Nat) :
    n.insertPreliminaryMessageID c id = .ok (false, n) ∨
      (n.find id = none ∧ n.insertPreliminaryMessageID c id = .ok (true, n.logged id 0)) ∨
      ∃ e, n.find id = some e ∧ e.count < c.broadcastReceptionRedundancy ∧
        n.insertPreliminaryMessageID c id = .ok (true, n.setCount id (e.count + 1)) := by
  unfold Node.insertPreliminaryMessageID
  split
  · exact .inl rfl
  · cases hfind : n.find id with
    | none =>
      refine .inr (.inl ⟨rfl, ?_⟩)
      dsimp only
      rw [h.updateMessageQueue]
      rfl
    | some e =>
      dsimp only
      split
      · rename_i hlt
        exact .inr (.inr ⟨e, rfl, hlt, rfl⟩)
      · exact .inl rfl

/-- **What the request handler does to it.** -/
theorem Log.insertCompletedMessageID (h : n.Log) (c : Config) (id : Nat) :
    n.insertCompletedMessageID c id = .ok (false, n) ∨
      (isOwn c id = false ∧ n.find id = none ∧
        n.insertCompletedMessageID c id = .ok (true, n.logged id MESSAGE_COMPLETE)) ∨
      ∃ e, isOwn c id = false ∧ n.find id = some e ∧ e.count < MESSAGE_COMPLETE ∧
        n.insertCompletedMessageID c id = .ok (true, n.setCount id MESSAGE_COMPLETE) := by
  unfold Node.insertCompletedMessageID
  split
  · exact .inl rfl
  · rename_i hown
    have hother : isOwn c id = false := by simpa using hown
    cases hfind : n.find id with
    | none =>
      refine .inr (.inl ⟨hother, rfl, ?_⟩)
      dsimp only
      rw [h.updateMessageQueue]
      rfl
    | some e =>
      grind

theorem Log.deref (h : n.Log) (he : e ∈ n.messageIDs) : n.deref e.iterator = some e.id := by
  unfold Node.deref
  have hsome : (n.messageIDs.find? fun a => a.iterator = e.iterator).isSome := by
    rw [find?_isSome]
    exact ⟨e, he, by simp⟩
  obtain ⟨a, ha⟩ := Option.isSome_iff_exists.mp hsome
  have hmem := mem_of_find?_eq_some ha
  have hiter : a.iterator = e.iterator := by simpa using find?_some ha
  rw [ha, inj_on_of_nodup_map h.iterators hmem he hiter]
  rfl

theorem Log.synced (h : n.Log) :
    n.messageIdOrder.map n.deref = n.messageIDs.map fun e => some e.id := by
  rw [h.order, map_map]
  exact map_congr_left fun e he => h.deref he

theorem Log.congr {mac : Mac} {backlog : List (Text × Bool)} {messageCount : Nat} (h : n.Log) :
    ({ n with originMac := mac, forwardingBacklog := backlog, messageCount } : Node).Log :=
  ⟨h.order, h.allocated, h.iterators, h.ids, h.bounded, h.nonempty⟩

theorem handleMessage_cases (c : Config) (p : Parts) (encrypted : Bool)
    (messageHandler : MessageHandler) (n : Node) :
    (∃ fault, n.handleMessage c p encrypted messageHandler = .error fault) ∨
      ∃ mac backlog, n.handleMessage c p encrypted messageHandler =
        .ok (some ⟨p.messageID, mac, p.message⟩,
          { n with originMac := mac, forwardingBacklog := backlog }) := by
  unfold handleMessage
  dsimp only
  split
  · split
    · exact .inr ⟨_, _, rfl⟩
    · exact .inl ⟨_, rfl⟩
  · exact .inr ⟨_, _, rfl⟩

end Node

/-! ## The counters -/

def Counted (c : Config) (e : Entry) (accepted handed : Nat) : Prop :=
  (e.count ≤ c.broadcastReceptionRedundancy ∧ accepted ≤ e.count + 1 ∧ handed = 0) ∨
    (e.count = MESSAGE_COMPLETE ∧ accepted ≤ c.broadcastReceptionRedundancy + 1 ∧ handed ≤ 1)

theorem Counted.handed {c : Config} {e : Entry} {accepted handed : Nat}
    (h : Counted c e accepted handed) : handed ≤ 1 := by
  rcases h with ⟨-, -, h⟩ | ⟨-, -, h⟩
  · omega
  · exact h

theorem Counted.accepted {c : Config} {e : Entry} {accepted handed : Nat}
    (h : Counted c e accepted handed) : accepted ≤ c.broadcastReceptionRedundancy + 1 := by
  rcases h with ⟨h, h', -⟩ | ⟨-, h, -⟩
  · omega
  · exact h

theorem Counted.incomplete {c : Config} {e : Entry} {accepted handed : Nat}
    (h : Counted c e accepted handed) (hlt : e.count < MESSAGE_COMPLETE) :
    e.count ≤ c.broadcastReceptionRedundancy ∧ accepted ≤ e.count + 1 ∧ handed = 0 := by
  rcases h with h | ⟨h, -, -⟩
  · exact h
  · exact absurd h (Nat.ne_of_lt hlt)

/-! ## The invariant -/

namespace Watched

structure Inv (c : Config) (w : Watched) : Prop where
  log : w.node.Log
  count_lt : w.node.messageCount < 65536
  counted : ∀ e ∈ w.node.messageIDs, Counted c e (w.accepted e.id) (w.handed e.id)
  absent : ∀ id, w.node.find id = none → w.accepted id = 0 ∧ w.handed id = 0
  handled : ∀ text ∈ w.handled, ∃ p, Node.readRequest c text = some p ∧
    Node.isOwn c p.messageID = false
  own : ∀ text ∈ w.own, ∀ p, Node.readRequest c text = some p →
    Node.isOwn c p.messageID = true

variable {c : Config} {w : Watched} {n : Node} {f : Nat → Nat} {id : Nat}

theorem inv_init (c : Config) : init.Inv c where
  log :=
    { order := rfl
      allocated := by intro e he; cases he
      iterators := nodup_nil
      ids := nodup_nil
      bounded := by decide
      nonempty := by decide }
  count_lt := by decide
  counted := by intro e he; cases he
  absent := fun _ _ => ⟨rfl, rfl⟩
  handled := by intro text h; cases h
  own := by intro text h; cases h

/-- **The invariant is what is promised.** -/
theorem Inv.sound (h : w.Inv c) : w.Sound c where
  synced := by rw [h.log.synced]
  once := h.log.ids
  bounded := h.log.bounded
  handed := fun e he => (h.counted e he).handed
  accepted := fun e he => (h.counted e he).accepted
  own := by
    intro text hown hhandled
    obtain ⟨p, hread, hp⟩ := h.handled text hhandled
    rw [h.own text hown p hread] at hp
    cases hp

theorem whileLogged_mem {e : Entry} (he : e ∈ n.messageIDs) : whileLogged n f e.id = f e.id :=
  if_pos (Node.find_isSome.mpr ⟨e, he, rfl⟩)

theorem whileLogged_none (h : n.find id = none) : whileLogged n f id = 0 := by
  rw [whileLogged, h]
  rfl

theorem bump_self : bump (some id) f id = f id + 1 := if_pos rfl

theorem bump_other {i : Nat} (h : i ≠ id) : bump (some id) f i = f i := if_neg h

theorem Inv.count (h : w.Inv c) (accepted handed : Option Nat) (hlog : n.Log)
    (hcount : n.messageCount < 65536)
    (hcounted : ∀ e ∈ n.messageIDs,
      Counted c e (bump accepted w.accepted e.id) (bump handed w.handed e.id)) :
    (w.count accepted handed n).Inv c where
  log := hlog
  count_lt := hcount
  counted := by
    intro e he
    have ha := @whileLogged_mem n (bump accepted w.accepted) e he
    have hh := @whileLogged_mem n (bump handed w.handed) e he
    rw [Watched.count]
    dsimp only
    rw [ha, hh]
    exact hcounted e he
  absent := fun _ hnone => ⟨whileLogged_none hnone, whileLogged_none hnone⟩
  handled := h.handled
  own := h.own

theorem Inv.counted_logged (h : w.Inv c) {count : Nat} (hnew : w.node.find id = none)
    {accepted handed : Option Nat} (ha : accepted = none ∨ accepted = some id)
    (hh : handed = none ∨ handed = some id)
    (hentry : Counted c ⟨w.node.allocated, id, count⟩ (bump accepted (fun _ => 0) id)
      (bump handed (fun _ => 0) id)) :
    ∀ e ∈ (w.node.logged id count).messageIDs,
      Counted c e (bump accepted w.accepted e.id) (bump handed w.handed e.id) := by
  intro e he
  rcases Node.mem_logged he with he | rfl
  · have hne := Node.find_none.mp hnew e he
    have hsame : ∀ (i : Option Nat) (f : Nat → Nat), i = none ∨ i = some id →
        bump i f e.id = f e.id := by
      rintro i f (rfl | rfl)
      · rfl
      · exact bump_other hne
    rw [hsame _ _ ha, hsame _ _ hh]
    exact h.counted e he
  · obtain ⟨h1, h2⟩ := h.absent id hnew
    have hsame : ∀ (i : Option Nat) (f : Nat → Nat), f id = 0 →
        bump i f id = bump i (fun _ => 0) id := by
      intro i f hf
      cases i with
      | none => exact hf
      | some j => simp only [bump, hf]
    dsimp only
    rw [hsame _ _ h1, hsame _ _ h2]
    exact hentry

theorem Inv.counted_setCount (h : w.Inv c) {count : Nat} {e : Entry}
    (hfind : w.node.find id = some e) {accepted handed : Option Nat}
    (ha : accepted = none ∨ accepted = some id) (hh : handed = none ∨ handed = some id)
    (hentry : Counted c { e with count } (bump accepted w.accepted id)
      (bump handed w.handed id)) :
    ∀ a ∈ (w.node.setCount id count).messageIDs,
      Counted c a (bump accepted w.accepted a.id) (bump handed w.handed a.id) := by
  intro a hmem
  obtain ⟨he, hid⟩ := Node.find_some hfind
  rcases Node.mem_setCount hmem with ⟨hmem, hne⟩ | ⟨b, hb, hbid, rfl⟩
  · have hsame : ∀ (i : Option Nat) (f : Nat → Nat), i = none ∨ i = some id →
        bump i f a.id = f a.id := by
      rintro i f (rfl | rfl)
      · rfl
      · exact bump_other hne
    rw [hsame _ _ ha, hsame _ _ hh]
    exact h.counted a hmem
  · obtain rfl := h.log.entry_unique hb he (hbid.trans hid.symm)
    rw [hbid]
    exact hentry

/-! ## Each event -/

theorem Inv.filter (h : w.Inv c) (text : Text) :
    ∃ w', w.filter c text = .ok w' ∧ w'.Inv c := by
  unfold Watched.filter Node.defaultBroadcastFilter
  cases hread : Node.readFirstTransmission c text with
  | none => exact ⟨_, rfl, h.count none none h.log h.count_lt h.counted⟩
  | some id =>
    dsimp only
    rcases h.log.insertPreliminaryMessageID c id with hno | ⟨hnew, hyes⟩ | ⟨e, hold, hlt, hyes⟩
    · rw [hno]
      exact ⟨_, rfl, h.count none none h.log h.count_lt h.counted⟩
    · rw [hyes]
      refine ⟨_, rfl, h.count (some id) none (h.log.logged hnew) h.count_lt ?_⟩
      refine h.counted_logged hnew (.inr rfl) (.inl rfl) (.inl ⟨Nat.zero_le _, ?_, rfl⟩)
      rw [bump_self]
    · rw [hyes]
      refine ⟨_, rfl, h.count (some id) none h.log.setCount h.count_lt ?_⟩
      obtain ⟨he, hid⟩ := Node.find_some hold
      have hlimit := c.redundancy_lt
      have hcounted := (h.counted e he).incomplete (Nat.lt_trans hlt hlimit)
      rw [hid] at hcounted
      refine h.counted_setCount hold (.inr rfl) (.inl rfl) (.inl ⟨hlt, ?_, hcounted.2.2⟩)
      rw [bump_self]
      exact Nat.succ_le_succ hcounted.2.1

variable {p : Node.Parts} {w' : Watched}

/-- **A message that is handed on was another node's.** -/
theorem Inv.handleMessage (h : w.Inv c) {text : Text} {encrypted : Bool}
    {messageHandler : MessageHandler} (hread : Node.readRequest c text = some p)
    (hother : Node.isOwn c p.messageID = false) (hnext : (w.count none (some p.messageID) n).Inv c)
    (hact : ((n.handleMessage c p encrypted messageHandler).bind fun r =>
      .ok { w.count none (r.1.map Node.Handed.messageID) r.2 with
        handled := if r.1.isSome then text :: w.handled else w.handled }) = .ok w') :
    w'.Inv c := by
  have hhandled : ∀ t ∈ text :: w.handled, ∃ p, Node.readRequest c t = some p ∧
      Node.isOwn c p.messageID = false := by
    intro t ht
    rcases mem_cons.mp ht with rfl | ht
    · exact ⟨p, hread, hother⟩
    · exact h.handled t ht
  rcases Node.handleMessage_cases c p encrypted messageHandler n with
    ⟨fault, hfault⟩ | ⟨mac, backlog, hok⟩
  · rw [hfault] at hact
    cases hact
  · rw [hok] at hact
    obtain rfl := Except.ok.inj hact
    exact ⟨hnext.log.congr, hnext.count_lt, hnext.counted, hnext.absent, hhandled, h.own⟩

theorem Inv.request (h : w.Inv c) (text : Text) (encrypted : Bool)
    (messageHandler : MessageHandler) {w' : Watched}
    (hact : w.request c text encrypted messageHandler = .ok w') : w'.Inv c := by
  unfold Watched.request Node.defaultRequestHandler at hact
  cases hread : Node.readRequest c text with
  | none =>
    rw [hread] at hact
    obtain rfl := Except.ok.inj hact
    exact h.count none none h.log h.count_lt h.counted
  | some p =>
    rw [hread] at hact
    dsimp only at hact
    rcases h.log.insertCompletedMessageID c p.messageID with
      hno | ⟨hother, hnew, hyes⟩ | ⟨e, hother, hold, hlt, hyes⟩
    · rw [hno] at hact
      obtain rfl := Except.ok.inj hact
      exact h.count none none h.log h.count_lt h.counted
    · rw [hyes] at hact
      have hnext : (w.count none (some p.messageID)
          (w.node.logged p.messageID MESSAGE_COMPLETE)).Inv c := by
        refine h.count none (some p.messageID) (h.log.logged hnew) h.count_lt ?_
        refine h.counted_logged hnew (.inl rfl) (.inr rfl) (.inr ⟨rfl, Nat.zero_le _, ?_⟩)
        rw [bump_self]
      exact h.handleMessage hread hother hnext hact
    · rw [hyes] at hact
      have hnext : (w.count none (some p.messageID)
          (w.node.setCount p.messageID MESSAGE_COMPLETE)).Inv c := by
        refine h.count none (some p.messageID) h.log.setCount h.count_lt ?_
        obtain ⟨he, hid⟩ := Node.find_some hold
        obtain ⟨hle, haccepted, hhanded⟩ := (h.counted e he).incomplete hlt
        rw [hid] at haccepted hhanded
        refine h.counted_setCount hold (.inl rfl) (.inr rfl) (.inr ⟨rfl, ?_, ?_⟩)
        · exact Nat.le_trans haccepted (Nat.succ_le_succ hle)
        · rw [bump_self, hhanded]
      exact h.handleMessage hread hother hnext hact

/-- **A broadcast of this node is read as its own**, if it comes back at all. -/
theorem own_marked (hname : c.metadataDelimiter ∉ c.meshName) {count : Nat}
    (hcount : count < 65536) (message : Text)
    (hread : Node.readRequest c (c.metadataDelimiter ::
      (Original.mk c.meshName c.softAPmac count message).text c.metadataDelimiter) = some p) :
    Node.isOwn c p.messageID = true := by
  by_cases hzero : 0 ∈ c.meshName
  · rw [Original.readRequest_nul hname hzero] at hread
    cases hread
  · rw [Original.readRequest_marked hname hzero hcount] at hread
    obtain rfl := Option.some.inj hread
    exact Original.isOwn hcount

theorem own_encrypted {count : Nat} (hcount : count < 65536) (message : Text)
    (hread : Node.readRequest c ((Original.mk c.meshName c.softAPmac count message).encryptedText
      c.metadataDelimiter) = some p) : Node.isOwn c p.messageID = true := by
  rw [Original.readRequest_encrypted hcount] at hread
  obtain rfl := Option.some.inj hread
  exact Original.isOwn hcount

theorem Inv.broadcasts (h : w.Inv c) {text : Text} (hown : ∀ p, Node.readRequest c text = some p →
    Node.isOwn c p.messageID = true) :
    ({ w with
      node := { w.node with messageCount := (w.node.messageCount + 1) % 65536 }
      own := text :: w.own } : Watched).Inv c where
  log := h.log.congr
  count_lt := Nat.mod_lt _ (by decide)
  counted := h.counted
  absent := h.absent
  handled := h.handled
  own := by
    intro t ht
    rcases mem_cons.mp ht with rfl | ht
    · exact hown
    · exact h.own t ht

/-- **One event keeps the invariant**, or ends the program. -/
theorem Inv.act (hname : c.metadataDelimiter ∉ c.meshName) (h : w.Inv c) (event : Event)
    (hfits : event.Fits (.ok w)) (hact : act c event w = .ok w') : w'.Inv c := by
  cases event with
  | broadcast message =>
    simp only [Watched.act, Node.broadcast] at hact
    split at hact
    · obtain rfl := Except.ok.inj hact
      exact h.broadcasts fun p => own_marked hname h.count_lt message
    · cases hact
  | encryptedBroadcast message =>
    simp only [Watched.act, Node.encryptedBroadcast] at hact
    split at hact
    · obtain rfl := Except.ok.inj hact
      exact h.broadcasts fun p => own_encrypted h.count_lt message
    · cases hact
  | firstTransmission text =>
    obtain ⟨w'', hok, hinv⟩ := h.filter text
    obtain rfl := Except.ok.inj (hok.symm.trans hact)
    exact hinv
  | request text encrypted messageHandler => exact h.request text encrypted messageHandler hact
  | setMessageLogSize messageLogSize =>
    simp only [Watched.act, Node.setMessageLogSize] at hact
    split at hact
    · rename_i hpos
      obtain rfl := Except.ok.inj hact
      exact ⟨⟨h.log.order, h.log.allocated, h.log.iterators, h.log.ids, hfits hpos, hpos⟩,
        h.count_lt, h.counted, h.absent, h.handled, h.own⟩
    · cases hact
  | clearMessageLogs =>
    obtain rfl := Except.ok.inj hact
    refine h.count none none ?_ h.count_lt (by intro e he; cases he)
    exact ⟨rfl, (by intro e he; cases he), nodup_nil, nodup_nil, Nat.zero_le _,
      h.log.nonempty⟩
  | forward =>
    simp only [Watched.act, Node.forwardNext] at hact
    cases hbacklog : w.node.forwardingBacklog with
    | nil =>
      rw [hbacklog] at hact
      obtain rfl := Except.ok.inj hact
      exact h
    | cons messageData backlog =>
      rw [hbacklog] at hact
      obtain rfl := Except.ok.inj hact
      exact ⟨h.log.congr, h.count_lt, h.counted, h.absent, h.handled, h.own⟩

end Watched

/-! ## Whole runs -/

def Invariant (c : Config) : Except Fault Watched → Prop
  | .error _ => True
  | .ok w => w.Inv c

variable {c : Config}

theorem Invariant.step (hname : c.metadataDelimiter ∉ c.meshName) (event : Event)
    (s : Except Fault Watched) (h : Invariant c s) (hfits : event.Fits s) :
    Invariant c (Watched.step c event s) := by
  cases s with
  | error fault => trivial
  | ok w =>
    rw [Watched.step, Except.bind]
    cases hact : Watched.act c event w with
    | error fault => trivial
    | ok w' => exact Watched.Inv.act hname h event hfits hact

theorem Invariant.kept {s : Except Fault Watched} (h : Invariant c s) : Kept c s := by
  cases s with
  | error fault => trivial
  | ok w => exact Watched.Inv.sound h

theorem fits_of_kept (event : Event) (s : Except Fault Watched)
    (h : Kept c (Watched.step c event s)) : event.Fits s := by
  cases event with
  | setMessageLogSize messageLogSize =>
    cases s with
    | error fault => trivial
    | ok w =>
      intro hpos
      have hstep : Watched.step c (.setMessageLogSize messageLogSize) (.ok w) =
          .ok { w with node := { w.node with messageLogSize } } := by
        simp only [Watched.step, Except.bind, Watched.act, Node.setMessageLogSize, ge_iff_le,
          if_pos hpos]
        rfl
      rw [hstep] at h
      exact h.bounded
  | _ => trivial

/-- **The log is sound all through a run just when no new size is below what it holds.** -/
theorem messageLog_sound_iff (c : Config) (hname : c.metadataDelimiter ∉ c.meshName)
    (events : List Event) :
    (∀ start, start <+: events →
        Kept c (Runs.after (Watched.step c) start (.ok Watched.init))) ↔
      Runs.AllFit (Watched.step c) Event.Fits events (.ok Watched.init) := by
  refine @Runs.always_iff_allFit _ _ _ _ (Invariant c) (Kept c) (fun _ h => h.kept)
    (fun event s h hfits => Invariant.step hname event s h hfits)
    (fun event s _ h => fits_of_kept event s h) events (.ok Watched.init) ?_
  exact Watched.inv_init c

/-! ## A run of three messages -/

theorem allowed_etb : AllowedDelimiter 23 := by decide

theorem default_redundancy_lt : 2 < 255 := by decide

def sampleConfig : Config where
  metadataDelimiter := 23
  allowed := allowed_etb
  meshName := [77, 101, 115, 104]
  softAPmac := ⟨222, 173, 190, 239, 0, 1⟩
  broadcastReceptionRedundancy := 2
  redundancy_lt := default_redundancy_lt
  maxMessageLength := 702
  beside := fun _ => 0

def neighbour (count : Nat) : Text :=
  (Original.mk [77, 101, 115, 104] ⟨222, 173, 190, 239, 0, 2⟩ count [104, 105]).text 23

theorem messageLog_sound_iff_sample :
    (23 : UInt8) ∉ sampleConfig.meshName ∧
      ∀ start, start <+: [Event.firstTransmission (neighbour 0),
          .request (23 :: neighbour 0) false fun message => (true, message),
          .broadcast [104], .setMessageLogSize 5] →
        Kept sampleConfig (Runs.after (Watched.step sampleConfig) start (.ok Watched.init)) := by
  refine ⟨by decide, (messageLog_sound_iff sampleConfig (by decide) _).mpr ?_⟩
  exact ⟨trivial, trivial, trivial, fun _ => (by decide : 1 ≤ 5), trivial⟩

/-- **A log that is made smaller than it is stays too large**, and the next new ID ends the
program. -/
theorem not_messageLog_sound :
    ¬ Kept sampleConfig (Runs.after (Watched.step sampleConfig)
        [.firstTransmission (neighbour 0), .firstTransmission (neighbour 1),
          .setMessageLogSize 1] (.ok Watched.init)) ∧
      Runs.after (Watched.step sampleConfig)
        [.firstTransmission (neighbour 0), .firstTransmission (neighbour 1),
          .setMessageLogSize 1, .firstTransmission (neighbour 2)] (.ok Watched.init) =
        .error .assertFailed := by
  constructor
  · intro h
    have hbounded : 2 ≤ 1 := h.bounded
    exact absurd hbounded (by decide)
  · rfl

end Mesh
