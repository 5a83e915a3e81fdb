import RalioFirmware.Mesh.Connections
import RalioFirmware.Basis.Runs
import Mathlib.Data.List.InsertIdx
import Mathlib.Data.List.Nodup

/-!
# The connection table and what goes with it

The table, the peers of the SDK, the tracker of the soonest expiry and the queue of responses keep
in step through every operation, whatever the SDK answers, as long as the arithmetic of the
trackers holds: a remaining duration is added to the time that has gone by in 32 bits, and a
tracker that is too old starts anew.  A renewal that is too long makes a connection expire at
once, and nobody is told.
-/

namespace Mesh

/-! ## Runs -/

inductive ConnectionEvent where
  /-- Time goes by. -/
  | advance (ms : Nat)
  | addEncryptedConnection (peerStaMac peerApMac : Mac) (peerSessionKey ownSessionKey : Nat)
      (hashKey : List UInt8) (sdk : Bool)
  | addTemporaryEncryptedConnection (peerStaMac peerApMac : Mac)
      (peerSessionKey ownSessionKey : Nat) (hashKey : List UInt8) (duration : Nat) (sdk : Bool)
      (tick : Nat)
  /-- The duration of the connection to a node is set. -/
  | setRemainingDuration (peerMac : Mac) (duration tick : Nat)
  | temporaryEncryptedConnectionToPermanent (peerMac : Mac)
  | removeEncryptedConnection (peerMac : Mac) (mutexFree sdk : Bool)
  | removeEncryptedConnectionUnprotected (peerMac : Mac) (sdk : Bool)
  | performEspnowMaintenance (tick fuel : Nat) (sdk : List Bool)
  | handlePostponedRemovals (tick fuel : Nat) (sdk : List Bool)
  | deactivateEspnow
  | answer (mac : Mac) (requestID : Nat)
  /-- A response was sent, or is too old. -/
  | dropResponse (i : Nat)

namespace ConnectionManager

def act : ConnectionEvent → ConnectionManager → Except Halt ConnectionManager
  | .advance ms, m => .ok { m with now := m.now + ms }
  | .addEncryptedConnection sta ap peerKey ownKey hashKey sdk, m =>
    (m.addEncryptedConnection sta ap peerKey ownKey hashKey sdk).map Prod.snd
  | .addTemporaryEncryptedConnection sta ap peerKey ownKey hashKey duration sdk tick, m =>
    (m.addTemporaryEncryptedConnection sta ap peerKey ownKey hashKey duration sdk tick).map
      Prod.snd
  | .setRemainingDuration peerMac duration tick, m =>
    match m.iterator peerMac with
    | none => .ok m
    | some i => .ok (m.setRemainingDuration i duration tick)
  | .temporaryEncryptedConnectionToPermanent peerMac, m =>
    .ok (m.temporaryEncryptedConnectionToPermanent peerMac)
  | .removeEncryptedConnection peerMac mutexFree sdk, m =>
    (m.removeEncryptedConnection peerMac mutexFree sdk).map Prod.snd
  | .removeEncryptedConnectionUnprotected peerMac sdk, m =>
    (m.removeEncryptedConnectionUnprotected (m.iterator peerMac) sdk).map fun r => r.2.2
  | .performEspnowMaintenance tick fuel sdk, m => m.performEspnowMaintenance tick fuel sdk
  | .handlePostponedRemovals tick fuel sdk, m => m.handlePostponedRemovals tick fuel sdk
  | .deactivateEspnow, m => .ok m.deactivateEspnow
  | .answer mac requestID, m => .ok (m.answer mac requestID)
  | .dropResponse i, m => .ok { m with responsesToSend := m.responsesToSend.eraseIdx i }

def step (event : ConnectionEvent) (m : Except Halt ConnectionManager) :
    Except Halt ConnectionManager := m.bind (act event)

/-- The trackers in use: those of the entries, and the soonest one. -/
def trackers (m : ConnectionManager) : List ExpiringTimeTracker :=
  m.encryptedConnections.filterMap (·.timeTracker) ++ m.soonestExpiring.toList

/-! ## What is promised -/

structure Sound (m : ConnectionManager) : Prop where
  peers : ∀ mac, mac ∈ m.peers ↔ mac ∈ m.encryptedConnections.map (·.peerStaMac)
  bounded : m.encryptedConnections.length ≤ maxEncryptedConnections
  distinct : (m.encryptedConnections.map (·.peerStaMac)).Nodup
  scheduled : ∀ e ∈ m.encryptedConnections, e.scheduledForRemoval = true →
    ∃ t, e.timeTracker = some t ∧ t.expired m.now = true
  soonest : ∀ e ∈ m.encryptedConnections, ∀ t, e.timeTracker = some t →
    ∃ k, m.soonestExpiring = some k ∧ (t.expired m.now = true → k.expired m.now = true) ∧
      k.remainingDuration m.now ≤ t.remainingDuration m.now
  responses : ∀ r ∈ m.responsesToSend, usesEncryption r.requestID = true →
    ∃ e ∈ m.encryptedConnections, e.connectedTo r.recipientMac = true

end ConnectionManager

/-- No assertion fails; a loop that is still running has not reached a state. -/
def TableKept : Except Halt ConnectionManager → Prop
  | .error .assertFailed => False
  | .error .running => True
  | .ok m => m.Sound

/-- A duration that the tracker of an entry can count: with the time that has gone by it stays
within the range of the clock. -/
def EncryptedConnectionLog.Counts (duration now : Nat) (e : EncryptedConnectionLog) : Prop :=
  match e.timeTracker with
  | none => duration ≤ ExpiringTimeTracker.timeMax
  | some t => t.elapsedTime now + duration ≤ ExpiringTimeTracker.timeMax

/-- No tracker in use gets as old as the clock can tell; a duration is one that can be counted;
the clock does not tick between its two readings; and encrypted requests come from the station
interface of a peer, as the ESP-NOW role has it. -/
def ConnectionEvent.Fits : ConnectionEvent → Except Halt ConnectionManager → Prop
  | .advance ms, .ok m => ∀ t ∈ m.trackers, t.elapsedTime m.now + ms ≤ ExpiringTimeTracker.timeMax
  | .addTemporaryEncryptedConnection sta _ _ _ _ duration _ tick, .ok m =>
    tick = 0 ∧ duration ≤ ExpiringTimeTracker.timeMax ∧
      ∀ i e, m.iterator sta = some i → m.encryptedConnections[i]? = some e →
        e.Counts duration m.now
  | .setRemainingDuration peerMac duration tick, .ok m =>
    tick = 0 ∧ ∀ i e, m.iterator peerMac = some i → m.encryptedConnections[i]? = some e →
      e.Counts duration m.now
  | .performEspnowMaintenance tick _ _, _ => tick = 0
  | .handlePostponedRemovals tick _ _, _ => tick = 0
  | .answer mac requestID, .ok m => usesEncryption requestID = true →
    ∀ i e, m.iterator mac = some i → m.encryptedConnections[i]? = some e → e.peerStaMac = mac
  | _, _ => True

/-! ## Trackers whose arithmetic holds -/

namespace ExpiringTimeTracker

variable {t k : ExpiringTimeTracker} {now ms d : Nat}

/-- A tracker that is not too old, and does not run too long. -/
structure Young (now : Nat) (t : ExpiringTimeTracker) : Prop where
  start_lt : t.start < 4294967296
  timeout_le : t.timeout ≤ timeMax
  elapsed_le : t.elapsedTime now ≤ timeMax

theorem Young.expired_iff (h : t.Young now) :
    t.expired now = true ↔ t.timeout ≤ t.elapsedTime now := by
  have hnever : t.neverExpires = false := decide_eq_false (Nat.not_lt.mpr h.timeout_le)
  rw [expired, hnever]
  simp only [Bool.not_false, Bool.true_and, Bool.or_eq_true, decide_eq_true_eq, ge_iff_le]
  omega

theorem Young.remainingDuration (h : t.Young now) :
    t.remainingDuration now = t.timeout - t.elapsedTime now := by
  have htimeout : t.timeout ≤ 4294967294 := h.timeout_le
  have helapsed : t.elapsedTime now ≤ 4294967294 := h.elapsed_le
  rw [ExpiringTimeTracker.remainingDuration]
  split
  · rename_i hexpired
    have := h.expired_iff.mp hexpired
    omega
  · rename_i hexpired
    have hlt : ¬ t.timeout ≤ t.elapsedTime now := fun hle => hexpired (h.expired_iff.mpr hle)
    omega

theorem Young.elapsedTime_add (h : t.Young now) (hms : t.elapsedTime now + ms ≤ timeMax) :
    t.elapsedTime (now + ms) = t.elapsedTime now + ms := by
  have hstart := h.start_lt
  have hle : t.elapsedTime now + ms ≤ 4294967294 := hms
  rw [elapsedTime] at hle ⊢
  rw [elapsedTime]
  omega

theorem Young.add (h : t.Young now) (hms : t.elapsedTime now + ms ≤ timeMax) :
    t.Young (now + ms) where
  start_lt := h.start_lt
  timeout_le := h.timeout_le
  elapsed_le := by
    rw [h.elapsedTime_add hms]
    exact hms

theorem elapsedTime_create : (create d now).elapsedTime now = 0 := by
  rw [elapsedTime, create]
  dsimp only
  omega

theorem young_create (hd : d ≤ timeMax) : (create d now).Young now where
  start_lt := Nat.mod_lt _ (by decide)
  timeout_le := hd
  elapsed_le := by
    rw [elapsedTime_create]
    exact Nat.zero_le _

theorem Young.setRemainingDuration (h : t.Young now) (hd : t.elapsedTime now + d ≤ timeMax) :
    (t.setRemainingDuration d now).Young now ∧
      (t.setRemainingDuration d now).remainingDuration now = d := by
  have hle : t.elapsedTime now + d ≤ 4294967294 := hd
  have htimeout : (t.setRemainingDuration d now).timeout = t.elapsedTime now + d := by
    rw [ExpiringTimeTracker.setRemainingDuration]
    exact Nat.mod_eq_of_lt (by omega)
  have hyoung : (t.setRemainingDuration d now).Young now :=
    ⟨h.start_lt, htimeout ▸ hd, h.elapsed_le⟩
  refine ⟨hyoung, ?_⟩
  rw [hyoung.remainingDuration, htimeout]
  exact Nat.add_sub_cancel_left _ _

theorem remainingDuration_create (hd : d ≤ timeMax) :
    (create d now).remainingDuration now = d := by
  rw [(young_create hd).remainingDuration, elapsedTime_create]
  rfl

theorem Young.remainingDuration_add (h : t.Young now) (hms : t.elapsedTime now + ms ≤ timeMax) :
    t.remainingDuration (now + ms) = t.remainingDuration now - ms := by
  rw [(h.add hms).remainingDuration, h.remainingDuration, h.elapsedTime_add hms, Nat.sub_sub]

theorem Young.expired_of_remaining (h : t.Young now) (hzero : t.remainingDuration now = 0) :
    t.expired now = true := by
  rw [h.remainingDuration] at hzero
  exact h.expired_iff.mpr (Nat.sub_eq_zero_iff_le.mp hzero)

theorem remainingDuration_of_expired (h : t.expired now = true) : t.remainingDuration now = 0 :=
  if_pos h

end ExpiringTimeTracker

/-! ## The invariant -/

namespace ConnectionManager

open ExpiringTimeTracker List
open Option (map_some some.inj)

variable {m : ConnectionManager}

def Covered (remaining : Nat) (m : ConnectionManager) : Prop :=
  ∃ k, m.soonestExpiring = some k ∧ k.Young m.now ∧ k.remainingDuration m.now ≤ remaining

/-- The tracker is no later than the expiry of these entries. -/
def Tracked (entries : List EncryptedConnectionLog) (m : ConnectionManager) : Prop :=
  ∀ e ∈ entries, ∀ t, e.timeTracker = some t → Covered (t.remainingDuration m.now) m

structure Good (m : ConnectionManager) : Prop where
  peers : ∀ mac, mac ∈ m.peers ↔ mac ∈ m.encryptedConnections.map (·.peerStaMac)
  bounded : m.encryptedConnections.length ≤ maxEncryptedConnections
  distinct : (m.encryptedConnections.map (·.peerStaMac)).Nodup
  young : ∀ e ∈ m.encryptedConnections, ∀ t, e.timeTracker = some t → t.Young m.now
  scheduled : ∀ e ∈ m.encryptedConnections, e.scheduledForRemoval = true →
    ∃ t, e.timeTracker = some t ∧ t.expired m.now = true
  soonest : ∀ k, m.soonestExpiring = some k → k.Young m.now
  responses : ∀ r ∈ m.responsesToSend, usesEncryption r.requestID = true →
    r.recipientMac ∈ m.encryptedConnections.map (·.peerStaMac)

def Inv (m : ConnectionManager) : Prop := m.Good ∧ m.Tracked m.encryptedConnections

/-- The invariant of a run: it holds, unless a loop is still running. -/
def Held : Except Halt ConnectionManager → Prop
  | .error halt => halt = .running
  | .ok m => m.Inv

/-- **The invariant is what is promised.** -/
theorem Inv.sound (h : m.Inv) : m.Sound where
  peers := h.1.peers
  bounded := h.1.bounded
  distinct := h.1.distinct
  scheduled := h.1.scheduled
  soonest := by
    intro e he t ht
    obtain ⟨k, hk, hyoung, hle⟩ := h.2 e he t ht
    refine ⟨k, hk, ?_, hle⟩
    intro hexpired
    rw [remainingDuration_of_expired hexpired] at hle
    exact hyoung.expired_of_remaining (Nat.le_zero.mp hle)
  responses := by
    intro r hr hencrypted
    obtain ⟨e, he, heq⟩ := mem_map.mp (h.1.responses r hr hencrypted)
    refine ⟨e, he, ?_⟩
    rw [EncryptedConnectionLog.connectedTo, ← heq]
    simp

theorem inv_init : init.Inv := by
  refine ⟨⟨fun mac => Iff.rfl, by decide, nodup_nil, ?_, ?_, ?_, ?_⟩, ?_⟩
  · intro e he; cases he
  · intro e he; cases he
  · intro k hk; cases hk
  · intro r hr; cases hr
  · intro e he; cases he

/-! ## The parts of an operation -/

variable {i : Nat} {f : EncryptedConnectionLog → EncryptedConnectionLog}
  {e : EncryptedConnectionLog}

theorem getElem?_modify {j : Nat} (h : (m.modify i f).encryptedConnections[j]? = some e) :
    (∃ a, j = i ∧ m.encryptedConnections[i]? = some a ∧ e = f a) ∨
      (j ≠ i ∧ m.encryptedConnections[j]? = some e) := by
  rw [modify] at h
  dsimp only at h
  rw [List.getElem?_modify] at h
  obtain ⟨a, ha, hf⟩ := Option.map_eq_some_iff.mp h
  split at hf
  · rename_i hij
    subst hij
    exact .inl ⟨a, rfl, ha, hf.symm⟩
  · rename_i hij
    exact .inr ⟨fun h => hij h.symm, by rw [ha, ← hf]⟩

theorem mem_modify (h : e ∈ (m.modify i f).encryptedConnections) :
    e ∈ m.encryptedConnections ∨ ∃ a, m.encryptedConnections[i]? = some a ∧ e = f a := by
  obtain ⟨j, hj⟩ := mem_iff_getElem?.mp h
  rcases getElem?_modify hj with ⟨a, -, ha, rfl⟩ | ⟨-, hj⟩
  · exact .inr ⟨a, ha, rfl⟩
  · exact .inl (mem_of_getElem? hj)

theorem modify_macs
    (hf : ∀ e, (f e).peerStaMac = e.peerStaMac) :
    (m.modify i f).encryptedConnections.map (·.peerStaMac) =
      m.encryptedConnections.map (·.peerStaMac) := by
  refine ext_getElem? fun j => ?_
  rw [modify, getElem?_map, getElem?_map, List.getElem?_modify]
  cases m.encryptedConnections[j]? with
  | none => rfl
  | some a =>
    grind

/-- **An entry may change**, if its tracker is young and, once it is scheduled, has expired. -/
theorem Good.modify (h : m.Good)
    (hf : ∀ e, (f e).peerStaMac = e.peerStaMac)
    (hyoung : ∀ e, m.encryptedConnections[i]? = some e → ∀ t, (f e).timeTracker = some t →
      t.Young m.now)
    (hscheduled : ∀ e, m.encryptedConnections[i]? = some e → (f e).scheduledForRemoval = true →
      ∃ t, (f e).timeTracker = some t ∧ t.expired m.now = true) : (m.modify i f).Good where
  peers := by
    intro mac
    rw [modify_macs hf]
    exact h.peers mac
  bounded := by
    rw [ConnectionManager.modify, length_modify]
    exact h.bounded
  distinct := by
    rw [modify_macs hf]
    exact h.distinct
  young := by
    intro e he t ht
    rcases mem_modify he with he | ⟨a, ha, rfl⟩
    · exact h.young e he t ht
    · exact hyoung a ha t ht
  scheduled := by
    intro e he hs
    rcases mem_modify he with he | ⟨a, ha, rfl⟩
    · exact h.scheduled e he hs
    · exact hscheduled a ha hs
  soonest := h.soonest
  responses := by
    intro r hr hencrypted
    rw [modify_macs hf]
    exact h.responses r hr hencrypted

/-- **The tracker takes a duration in.** -/
theorem updateSoonest_covers (hsoonest : ∀ k, m.soonestExpiring = some k → k.Young m.now)
    {remaining : Nat} (hle : remaining ≤ timeMax) :
    ∃ k, m.updateSoonestExpiringConnectionTracker remaining 0 =
        { m with soonestExpiring := some k } ∧ k.Young m.now ∧
      k.remainingDuration m.now ≤ remaining ∧
      ∀ r, Covered r m → k.remainingDuration m.now ≤ r := by
  unfold updateSoonestExpiringConnectionTracker
  dsimp only
  rw [Nat.add_zero]
  cases hold : m.soonestExpiring with
  | none =>
    refine ⟨create remaining m.now, rfl, young_create hle, ?_, ?_⟩
    · rw [remainingDuration_create hle]
    · rintro r ⟨k, hk, -, -⟩
      rw [hold] at hk
      cases hk
  | some tracker =>
    dsimp only
    split
    · rename_i hlt
      refine ⟨create remaining m.now, rfl, young_create hle, ?_, ?_⟩
      · rw [remainingDuration_create hle]
      · rintro r ⟨k, hk, -, hkr⟩
        rw [hold] at hk
        obtain rfl := some.inj hk
        rw [remainingDuration_create hle]
        exact Nat.le_trans (Nat.le_of_lt hlt) hkr
    · rename_i hge
      refine ⟨tracker, by rw [← hold], hsoonest tracker hold, Nat.not_lt.mp hge, ?_⟩
      rintro r ⟨k, hk, -, hkr⟩
      rw [hold] at hk
      obtain rfl := some.inj hk
      exact hkr

theorem Good.setSoonest (h : m.Good) {k : ExpiringTimeTracker} (hk : k.Young m.now) :
    ({ m with soonestExpiring := some k } : ConnectionManager).Good where
  peers := h.peers
  bounded := h.bounded
  distinct := h.distinct
  young := h.young
  scheduled := h.scheduled
  soonest := by
    intro k' hk'
    obtain rfl := some.inj hk'
    exact hk
  responses := h.responses

/-- **A duration that can be counted** expires no earlier than the tracker. -/
theorem Inv.setRemainingDuration (h : m.Inv) {duration : Nat}
    (hcounts : ∀ e, m.encryptedConnections[i]? = some e → e.Counts duration m.now)
    (hduration : duration ≤ timeMax) : (m.setRemainingDuration i duration 0).Inv := by
  have hentry : ∀ e, m.encryptedConnections[i]? = some e →
      ∀ t, (withDuration duration m.now e).timeTracker = some t →
        t.Young m.now ∧ t.remainingDuration m.now = duration := by
    intro e he t ht
    have hcount := hcounts e he
    rw [EncryptedConnectionLog.Counts] at hcount
    obtain rfl := some.inj ht
    split
    · exact ⟨young_create hduration, remainingDuration_create hduration⟩
    · rename_i t₀ ht₀
      rw [ht₀] at hcount
      exact (h.1.young e (mem_of_getElem? he) t₀ ht₀).setRemainingDuration hcount
  have hgood : (m.modify i (withDuration duration m.now)).Good := by
    refine h.1.modify (fun _ => rfl) (fun e he t ht => (hentry e he t ht).1) ?_
    intro e he hs
    cases hs
  obtain ⟨k, hk, hyoung, hle, hcovered⟩ := updateSoonest_covers hgood.soonest hduration
  rw [ConnectionManager.setRemainingDuration, hk]
  refine ⟨hgood.setSoonest hyoung, ?_⟩
  intro e he t ht
  refine ⟨k, rfl, hyoung, ?_⟩
  rcases mem_modify he with he | ⟨a, ha, rfl⟩
  · exact hcovered _ (h.2 e he t ht)
  · exact hle.trans_eq (hentry a ha t ht).2.symm

theorem Inv.removeDuration (h : m.Inv) (i : Nat) : (m.removeDuration i).Inv := by
  refine ⟨h.1.modify (fun _ => rfl) ?_ ?_, ?_⟩
  · intro e _ t ht
    cases ht
  · intro e _ hs
    cases hs
  · intro e he t ht
    rcases mem_modify he with he | ⟨a, -, rfl⟩
    · exact h.2 e he t ht
    · cases ht

theorem Inv.modifyKeys (h : m.Inv) (i peerSessionKey ownSessionKey : Nat) (hashKey : List UInt8) :
    (m.modify i (withKeys peerSessionKey ownSessionKey hashKey)).Inv := by
  refine ⟨h.1.modify (fun _ => rfl) ?_ ?_, ?_⟩
  · intro e he t ht
    exact h.1.young e (mem_of_getElem? he) t ht
  · intro e he hs
    exact h.1.scheduled e (mem_of_getElem? he) hs
  · intro e he t ht
    rcases mem_modify he with he | ⟨a, ha, rfl⟩
    · exact h.2 e he t ht
    · exact h.2 a (mem_of_getElem? ha) t ht

theorem Inv.toPermanent (h : m.Inv) (peerMac : Mac) :
    (m.temporaryEncryptedConnectionToPermanent peerMac).Inv := by
  unfold temporaryEncryptedConnectionToPermanent
  split
  · exact h
  · split
    · exact h.removeDuration _
    · exact h

/-- **What is scheduled has expired.** -/
theorem Inv.scheduleForRemoval (h : m.Inv) (i : Nat) : (m.scheduleForRemoval i).Inv := by
  have hzero : ∀ e, m.encryptedConnections[i]? = some e → e.Counts 0 m.now := by
    intro e he
    rw [EncryptedConnectionLog.Counts]
    split
    · exact Nat.zero_le _
    · rename_i t ht
      exact (h.1.young e (mem_of_getElem? he) t ht).elapsed_le
  have hset := h.setRemainingDuration hzero (Nat.zero_le _)
  have hnow : (m.setRemainingDuration i 0 0).now = m.now := by
    rw [ConnectionManager.setRemainingDuration, updateSoonestExpiringConnectionTracker]
    dsimp only
    split
    · rfl
    · split
      all_goals rfl
  have hmod : ((m.setRemainingDuration i 0 0).modify i
      fun e => { e with scheduledForRemoval := true }).Inv := by
    refine ⟨hset.1.modify (fun _ => rfl) ?_ ?_, ?_⟩
    · intro e he t ht
      exact hset.1.young e (mem_of_getElem? he) t ht
    · -- The entry has just got the duration zero.
      intro e he _
      have hentries : (m.setRemainingDuration i 0 0).encryptedConnections =
          (m.modify i (withDuration 0 m.now)).encryptedConnections := by
        rw [ConnectionManager.setRemainingDuration, updateSoonestExpiringConnectionTracker]
        dsimp only
        split
        · rfl
        · split
          all_goals rfl
      rw [hentries] at he
      rcases getElem?_modify he with ⟨a, -, ha, rfl⟩ | ⟨hne, -⟩
      · refine ⟨_, rfl, ?_⟩
        rw [hnow]
        split
        · exact (young_create (Nat.zero_le _)).expired_of_remaining
            (remainingDuration_create (Nat.zero_le _))
        · rename_i t ht
          have hyoung := h.1.young a (mem_of_getElem? ha) t ht
          obtain ⟨hy, hr⟩ := hyoung.setRemainingDuration (show _ + 0 ≤ _ from hyoung.elapsed_le)
          exact hy.expired_of_remaining hr
      · exact absurd rfl hne
    · intro e he t ht
      rcases mem_modify he with he | ⟨a, ha, rfl⟩
      · exact hset.2 e he t ht
      · exact hset.2 a (mem_of_getElem? ha) t ht
  exact ⟨⟨hmod.1.peers, hmod.1.bounded, hmod.1.distinct, hmod.1.young, hmod.1.scheduled,
    hmod.1.soonest, hmod.1.responses⟩, hmod.2⟩

/-! ## Adding -/

theorem iterator_some {peerMac : Mac} (h : m.iterator peerMac = some i) :
    ∃ e, m.encryptedConnections[i]? = some e ∧ e.connectedTo peerMac = true := by
  rw [iterator, findIdx?_eq_some_iff_getElem] at h
  obtain ⟨hlt, hconnected, -⟩ := h
  exact ⟨_, getElem?_eq_getElem hlt, hconnected⟩

theorem not_mem_of_iterator {peerMac : Mac} (h : m.iterator peerMac = none) :
    peerMac ∉ m.encryptedConnections.map (·.peerStaMac) := by
  rw [iterator, findIdx?_eq_none_iff] at h
  intro hmem
  obtain ⟨e, he, rfl⟩ := mem_map.mp hmem
  have hnot := h e he
  rw [EncryptedConnectionLog.connectedTo] at hnot
  simp at hnot

theorem Inv.append (h : m.Inv)
    (hnew : e.peerStaMac ∉ m.encryptedConnections.map (·.peerStaMac))
    (hlt : m.encryptedConnections.length < maxEncryptedConnections)
    (htracker : e.timeTracker = none) (hscheduled : e.scheduledForRemoval = false) :
    ({ m with
      peers := m.peers ++ [e.peerStaMac]
      encryptedConnections := m.encryptedConnections ++ [e] } : ConnectionManager).Inv := by
  refine ⟨⟨?_, ?_, ?_, ?_, ?_, h.1.soonest, ?_⟩, ?_⟩
  · intro mac
    have hold := h.1.peers mac
    simp only [mem_append, map_append, map_cons, map_nil, hold]
  · grind
  · dsimp only
    rw [map_append]
    refine nodup_append.mpr ⟨h.1.distinct, nodup_singleton _, ?_⟩
    rintro a ha b hb rfl
    rw [mem_singleton.mp hb] at ha
    exact hnew ha
  · intro e' he' t ht
    rcases mem_append.mp he' with he' | he'
    · exact h.1.young e' he' t ht
    · rw [mem_singleton.mp he', htracker] at ht
      cases ht
  · intro e' he' hs
    rcases mem_append.mp he' with he' | he'
    · exact h.1.scheduled e' he' hs
    · rw [mem_singleton.mp he', hscheduled] at hs
      cases hs
  · intro r hr hencrypted
    dsimp only
    rw [map_append]
    exact mem_append_left _ (h.1.responses r hr hencrypted)
  · intro e' he' t ht
    rcases mem_append.mp he' with he' | he'
    · exact h.2 e' he' t ht
    · rw [mem_singleton.mp he', htracker] at ht
      cases ht

/-- **Adding a connection**, and what it leaves the clock and the addresses at. -/
theorem Inv.addEncryptedConnection (h : m.Inv) (sta ap : Mac) (peerKey ownKey : Nat)
    (hashKey : List UInt8) (sdk : Bool) :
    ∃ result m', m.addEncryptedConnection sta ap peerKey ownKey hashKey sdk = .ok (result, m') ∧
      m'.Inv ∧ (result = .CONNECTION_ESTABLISHED → m.iterator sta = none →
        ∃ i e, m'.iterator sta = some i ∧ m'.encryptedConnections[i]? = some e ∧
          e.timeTracker = none) := by
  unfold ConnectionManager.addEncryptedConnection
  rw [if_pos h.1.bounded]
  split
  · rename_i i hi
    refine ⟨_, _, rfl, (h.toPermanent sta).modifyKeys i peerKey ownKey hashKey, ?_⟩
    intro _ hnone
    rw [hi] at hnone
    cases hnone
  · rename_i hnone
    split
    · refine ⟨_, _, rfl, h, ?_⟩
      intro hresult
      cases hresult
    · rename_i hlength
      split
      · refine ⟨_, _, rfl, ?_, ?_⟩
        · exact h.append (e := ⟨sta, ap, peerKey, ownKey, hashKey, none, false, false⟩)
            (not_mem_of_iterator hnone)
            (Nat.lt_of_le_of_ne h.1.bounded hlength) rfl rfl
        · intro _ _
          refine ⟨m.encryptedConnections.length, _, ?_, getElem?_concat_length, rfl⟩
          rw [iterator] at hnone ⊢
          dsimp only
          rw [findIdx?_append, hnone]
          simp [EncryptedConnectionLog.connectedTo]
      · refine ⟨_, _, rfl, h, ?_⟩
        intro hresult
        cases hresult

/-- **Adding a temporary connection**, for a duration that can be counted. -/
theorem Inv.addTemporaryEncryptedConnection (h : m.Inv) (sta ap : Mac) (peerKey ownKey : Nat)
    (hashKey : List UInt8) {duration : Nat} (sdk : Bool) (hduration : duration ≤ timeMax)
    (hcounts : ∀ i e, m.iterator sta = some i → m.encryptedConnections[i]? = some e →
      e.Counts duration m.now) :
    ∃ result m', m.addTemporaryEncryptedConnection sta ap peerKey ownKey hashKey duration sdk 0 =
        .ok (result, m') ∧ m'.Inv := by
  unfold ConnectionManager.addTemporaryEncryptedConnection
  rw [if_pos h.1.bounded]
  split
  · rename_i i hi
    have hkeys := h.modifyKeys i peerKey ownKey hashKey
    dsimp only
    split
    · refine ⟨_, _, rfl, hkeys.setRemainingDuration ?_ hduration⟩
      intro e he
      rcases getElem?_modify he with ⟨a, -, ha, rfl⟩ | ⟨hne, -⟩
      · exact hcounts i a hi ha
      · exact absurd rfl hne
    · exact ⟨_, _, rfl, hkeys⟩
  · rename_i hnone
    obtain ⟨result, m', hadd, hinv, hfound⟩ :=
      h.addEncryptedConnection sta ap peerKey ownKey hashKey sdk
    rw [hadd]
    dsimp only [Bind.bind, Except.bind]
    split
    · rename_i hresult
      obtain ⟨i, e, hi, he, htracker⟩ := hfound hresult hnone
      rw [hi]
      refine ⟨_, _, rfl, hinv.setRemainingDuration ?_ hduration⟩
      intro e' he'
      rw [he] at he'
      obtain rfl := some.inj he'
      rw [EncryptedConnectionLog.Counts, htracker]
      exact hduration
    · exact ⟨_, _, rfl, hinv⟩

/-! ## Removing -/

theorem Good.mem_macs_eraseIdx (h : m.Good)
    (he : m.encryptedConnections[i]? = some e) {mac : Mac} :
    mac ∈ (m.encryptedConnections.eraseIdx i).map (·.peerStaMac) ↔
      mac ∈ m.encryptedConnections.map (·.peerStaMac) ∧ mac ≠ e.peerStaMac := by
  constructor
  · intro hmem
    obtain ⟨a, ha, rfl⟩ := mem_map.mp hmem
    obtain ⟨j, hj, hget⟩ := mem_eraseIdx_iff_getElem?.mp ha
    refine ⟨mem_map_of_mem (mem_of_getElem? hget), ?_⟩
    intro heq
    have hlt : i < (m.encryptedConnections.map (·.peerStaMac)).length := by
      rw [length_map]
      exact (List.getElem?_eq_some_iff.mp he).1
    refine hj (((getElem?_inj hlt h.distinct).mp ?_).symm)
    rw [getElem?_map, getElem?_map, he, hget, map_some, map_some, heq]
  · rintro ⟨hmem, hne⟩
    obtain ⟨a, ha, rfl⟩ := mem_map.mp hmem
    obtain ⟨j, hj⟩ := mem_iff_getElem?.mp ha
    refine mem_map_of_mem (mem_eraseIdx_iff_getElem?.mpr ⟨j, ?_, hj⟩)
    rintro rfl
    rw [he] at hj
    exact hne (congrArg _ (some.inj hj).symm)

/-- **An entry goes**, and its peer and the encrypted responses to it with it. -/
theorem Good.remove (h : m.Good)
    (he : m.encryptedConnections[i]? = some e) :
    (({ m with
      peers := m.peers.filter fun mac => mac ≠ e.peerStaMac
      encryptedConnections := m.encryptedConnections.eraseIdx i } :
        ConnectionManager).deleteScheduledResponsesByRecipient e.peerStaMac true).Good where
  peers := by
    intro mac
    rw [deleteScheduledResponsesByRecipient]
    dsimp only
    rw [h.mem_macs_eraseIdx he, mem_filter, h.peers mac, decide_eq_true_eq]
  bounded := (length_eraseIdx_le _ _).trans h.bounded
  distinct := by
    rw [deleteScheduledResponsesByRecipient]
    dsimp only
    refine h.distinct.sublist ?_
    exact (eraseIdx_sublist _ _).map _
  young := fun a ha t ht => h.young a (mem_of_mem_eraseIdx ha) t ht
  scheduled := fun a ha hs => h.scheduled a (mem_of_mem_eraseIdx ha) hs
  soonest := h.soonest
  responses := by
    intro r hr hencrypted
    rw [deleteScheduledResponsesByRecipient] at hr ⊢
    dsimp only at hr ⊢
    rw [mem_filter, decide_eq_true_eq] at hr
    rw [h.mem_macs_eraseIdx he]
    refine ⟨h.responses r hr.1 hencrypted, ?_⟩
    intro heq
    exact hr.2 ⟨heq, .inr hencrypted⟩

theorem Good.removeUnprotected (h : m.Good)
    (he : m.encryptedConnections[i]? = some e) (sdk : Bool) :
    ∃ outcome resulting m', m.removeEncryptedConnectionUnprotected (some i) sdk =
        .ok (outcome, resulting, m') ∧ m'.Good ∧ m'.now = m.now ∧
      m'.soonestExpiring = m.soonestExpiring ∧
      ((resulting = some i ∧ m'.encryptedConnections = m.encryptedConnections.eraseIdx i) ∨
        (resulting = none ∧ m' = m)) := by
  unfold ConnectionManager.removeEncryptedConnectionUnprotected
  rw [if_pos h.bounded]
  dsimp only
  rw [he]
  dsimp only
  split
  · exact ⟨_, _, _, rfl, h.remove he, rfl, rfl, .inl ⟨rfl, rfl⟩⟩
  · exact ⟨_, _, _, rfl, h, rfl, rfl, .inr ⟨rfl, rfl⟩⟩

theorem Tracked.mono {m' : ConnectionManager} {entries entries' : List EncryptedConnectionLog}
    (h : Tracked entries m) (hsub : ∀ e ∈ entries', e ∈ entries) (hnow : m'.now = m.now)
    (hsoonest : m'.soonestExpiring = m.soonestExpiring) : Tracked entries' m' := by
  intro e he t ht
  rw [Covered, hnow, hsoonest]
  exact h e (hsub e he) t ht

theorem Inv.removeUnprotected (h : m.Inv) (peerMac : Mac) (sdk : Bool) :
    ∃ outcome resulting m', m.removeEncryptedConnectionUnprotected (m.iterator peerMac) sdk =
      .ok (outcome, resulting, m') ∧ m'.Inv := by
  cases hi : m.iterator peerMac with
  | none =>
    unfold ConnectionManager.removeEncryptedConnectionUnprotected
    rw [if_pos h.1.bounded]
    exact ⟨_, _, _, rfl, h⟩
  | some i =>
    obtain ⟨e, he, -⟩ := iterator_some hi
    obtain ⟨outcome, resulting, m', hremove, hgood, hnow, hsoonest, hcases⟩ :=
      h.1.removeUnprotected he sdk
    refine ⟨outcome, resulting, m', hremove, hgood, h.2.mono ?_ hnow hsoonest⟩
    intro a ha
    rcases hcases with ⟨-, hentries⟩ | ⟨-, rfl⟩
    · rw [hentries] at ha
      exact mem_of_mem_eraseIdx ha
    · exact ha

/-- **Removing a connection**, or putting it off. -/
theorem Inv.removeEncryptedConnection (h : m.Inv) (peerMac : Mac) (mutexFree sdk : Bool) :
    ∃ outcome m', m.removeEncryptedConnection peerMac mutexFree sdk = .ok (outcome, m') ∧
      m'.Inv := by
  unfold ConnectionManager.removeEncryptedConnection
  split
  · exact ⟨_, _, rfl, h⟩
  · rename_i i hi
    split
    · obtain ⟨outcome, resulting, m', hremove, hinv⟩ := h.removeUnprotected peerMac sdk
      rw [hi] at hremove
      rw [hremove]
      exact ⟨_, _, rfl, hinv⟩
    · exact ⟨_, _, rfl, h.scheduleForRemoval i⟩

/-! ## Looking through the table -/

theorem iterator_le
    (h : m.encryptedConnections[i]? = some e) :
    ∃ j, m.iterator e.peerStaMac = some j ∧ j ≤ i := by
  cases hj : m.iterator e.peerStaMac with
  | none => exact absurd (mem_map_of_mem (mem_of_getElem? h)) (not_mem_of_iterator hj)
  | some j =>
    refine ⟨j, rfl, Nat.not_lt.mp fun hij => ?_⟩
    obtain ⟨hlt, rfl⟩ := List.getElem?_eq_some_iff.mp h
    rw [iterator, findIdx?_eq_some_iff_getElem] at hj
    obtain ⟨_, _, hbefore⟩ := hj
    refine hbefore i hij ?_
    rw [EncryptedConnectionLog.connectedTo]
    simp

/-- **The loop**: the entries that have been looked at have a tracker that is early enough. -/
theorem Good.updateLoop (scheduledRemovalOnly : Bool) {fuel : Nat} {sdk : List Bool}
    (h : m.Good) (htracked : Tracked (m.encryptedConnections.take i) m) :
    Held (m.updateLoop scheduledRemovalOnly 0 fuel sdk i) := by
  induction fuel generalizing sdk i m with
  | zero => rfl
  | succ fuel ih =>
    unfold ConnectionManager.updateLoop
    cases hget : m.encryptedConnections[i]? with
    | none =>
      rw [take_of_length_le (getElem?_eq_none_iff.mp hget)] at htracked
      exact ⟨h, htracked⟩
    | some e =>
      have hmem : e ∈ m.encryptedConnections := mem_of_getElem? hget
      have htake : m.encryptedConnections.take (i + 1) =
          m.encryptedConnections.take i ++ [e] := by
        rw [take_add_one, hget]
        rfl
      dsimp only
      cases htracker : e.timeTracker with
      | none =>
        dsimp only
        have hunscheduled : e.scheduledForRemoval = false := by
          refine Bool.eq_false_iff.mpr fun hs => ?_
          obtain ⟨t, ht, -⟩ := h.scheduled e hmem hs
          rw [htracker] at ht
          cases ht
        rw [hunscheduled]
        refine ih h ?_
        intro a ha t ht
        rw [htake] at ha
        rcases mem_append.mp ha with ha | ha
        · exact htracked a ha t ht
        · rw [mem_singleton.mp ha, htracker] at ht
          cases ht
      | some timeTracker =>
        dsimp only
        split
        · -- It has expired: the first entry that is connected to its address goes.
          obtain ⟨j, hj, hji⟩ := iterator_le hget
          obtain ⟨a, ha, -⟩ := iterator_some hj
          obtain ⟨outcome, resulting, m', hremove, hgood, hnow, hsoonest, hcases⟩ :=
            h.removeUnprotected ha (sdk.headD false)
          rw [hj, hremove]
          refine ih hgood (htracked.mono ?_ hnow hsoonest)
          intro b hb
          rcases hcases with ⟨rfl, hentries⟩ | ⟨rfl, rfl⟩
          · rw [hentries, Option.getD_some,
              take_eraseIdx_eq_take_of_le _ _ _ (Nat.le_refl j)] at hb
            exact take_subset_take_left _ hji hb
          · exact hb
        · rename_i hstays
          have hyoung := h.young e hmem timeTracker htracker
          obtain ⟨k, hk, hkyoung, hle, hcovered⟩ := updateSoonest_covers h.soonest
            (show timeTracker.remainingDuration m.now ≤ timeMax by
              rw [hyoung.remainingDuration]
              exact (Nat.sub_le _ _).trans hyoung.timeout_le)
          have hunscheduled : e.scheduledForRemoval = false := by
            refine Bool.eq_false_iff.mpr fun hs => hstays ?_
            obtain ⟨t, ht, hexpired⟩ := h.scheduled e hmem hs
            rw [htracker] at ht
            obtain rfl := some.inj ht
            rw [hexpired, hs]
            simp
          rw [hunscheduled, hk]
          refine ih (h.setSoonest hkyoung) ?_
          intro a ha t ht
          refine ⟨k, rfl, hkyoung, ?_⟩
          dsimp only at ha
          rw [htake] at ha
          rcases mem_append.mp ha with ha | ha
          · exact hcovered _ (htracked a ha t ht)
          · rw [mem_singleton.mp ha, htracker] at ht
            obtain rfl := some.inj ht
            exact hle

theorem Inv.updateTemporaryEncryptedConnections (h : m.Inv) (scheduledRemovalOnly : Bool)
    (fuel : Nat) (sdk : List Bool) :
    Held (m.updateTemporaryEncryptedConnections scheduledRemovalOnly 0 fuel sdk) := by
  have hgood : ({ m with soonestExpiring := none } : ConnectionManager).Good := by
    refine ⟨h.1.peers, h.1.bounded, h.1.distinct, h.1.young, h.1.scheduled, ?_, h.1.responses⟩
    intro k hk
    cases hk
  have hloop : Held (ConnectionManager.updateLoop scheduledRemovalOnly 0 fuel sdk 0
      { m with soonestExpiring := none }) := by
    refine hgood.updateLoop scheduledRemovalOnly fun e he => ?_
    cases he
  unfold ConnectionManager.updateTemporaryEncryptedConnections
  cases hresult : ConnectionManager.updateLoop scheduledRemovalOnly 0 fuel sdk 0
      { m with soonestExpiring := none } with
  | error halt =>
    rw [hresult] at hloop
    exact hloop
  | ok m' =>
    rw [hresult] at hloop
    obtain ⟨hgood', htracked'⟩ := hloop
    exact ⟨⟨hgood'.peers, hgood'.bounded, hgood'.distinct, hgood'.young, hgood'.scheduled,
      hgood'.soonest, hgood'.responses⟩, htracked'⟩

theorem Inv.handlePostponedRemovals (h : m.Inv) (fuel : Nat) (sdk : List Bool) :
    Held (m.handlePostponedRemovals 0 fuel sdk) := by
  unfold ConnectionManager.handlePostponedRemovals
  split
  · exact h.updateTemporaryEncryptedConnections true fuel sdk
  · exact h

theorem Inv.performEspnowMaintenance (h : m.Inv) (fuel : Nat) (sdk : List Bool) :
    Held (m.performEspnowMaintenance 0 fuel sdk) := by
  unfold ConnectionManager.performEspnowMaintenance
  cases hsoonest : m.soonestExpiring with
  | none => exact h
  | some tracker =>
    dsimp only
    split
    · exact h.updateTemporaryEncryptedConnections false fuel sdk
    · exact h

/-! ## Every step -/

theorem Inv.advance (h : m.Inv) {ms : Nat}
    (hyoung : ∀ t ∈ m.trackers, t.elapsedTime m.now + ms ≤ timeMax) :
    ({ m with now := m.now + ms } : ConnectionManager).Inv := by
  have hentry : ∀ e ∈ m.encryptedConnections, ∀ t, e.timeTracker = some t →
      t.Young m.now ∧ t.elapsedTime m.now + ms ≤ timeMax := by
    intro e he t ht
    refine ⟨h.1.young e he t ht, hyoung t (mem_append_left _ ?_)⟩
    exact mem_filterMap.mpr ⟨e, he, ht⟩
  have hsoonest : ∀ k, m.soonestExpiring = some k →
      k.Young m.now ∧ k.elapsedTime m.now + ms ≤ timeMax := by
    intro k hk
    refine ⟨h.1.soonest k hk, hyoung k (mem_append_right _ ?_)⟩
    rw [hk]
    exact mem_singleton_self k
  refine ⟨⟨h.1.peers, h.1.bounded, h.1.distinct, ?_, ?_, ?_, h.1.responses⟩, ?_⟩
  · intro e he t ht
    obtain ⟨hold, hms⟩ := hentry e he t ht
    exact hold.add hms
  · intro e he hs
    obtain ⟨t, ht, hexpired⟩ := h.1.scheduled e he hs
    obtain ⟨hold, hms⟩ := hentry e he t ht
    refine ⟨t, ht, (hold.add hms).expired_of_remaining ?_⟩
    rw [hold.remainingDuration_add hms, remainingDuration_of_expired hexpired]
    exact Nat.zero_sub ms
  · intro k hk
    obtain ⟨hold, hms⟩ := hsoonest k hk
    exact hold.add hms
  · intro e he t ht
    obtain ⟨k, hk, -, hle⟩ := h.2 e he t ht
    obtain ⟨hold, hms⟩ := hentry e he t ht
    obtain ⟨holdk, hmsk⟩ := hsoonest k hk
    refine ⟨k, hk, holdk.add hmsk, ?_⟩
    dsimp only
    rw [hold.remainingDuration_add hms, holdk.remainingDuration_add hmsk]
    exact Nat.sub_le_sub_right hle ms

theorem inv_deactivateEspnow (h : m.Inv) : m.deactivateEspnow.Inv := by
  refine ⟨⟨fun mac => Iff.rfl, Nat.zero_le _, nodup_nil, ?_, ?_, h.1.soonest, ?_⟩, ?_⟩
  · intro e he; cases he
  · intro e he; cases he
  · intro r hr; cases hr
  · intro e he; cases he

theorem Inv.responses (h : m.Inv) {responses : List ResponseData}
    (hresponses : ∀ r ∈ responses, usesEncryption r.requestID = true →
      r.recipientMac ∈ m.encryptedConnections.map (·.peerStaMac)) :
    ({ m with responsesToSend := responses } : ConnectionManager).Inv :=
  ⟨⟨h.1.peers, h.1.bounded, h.1.distinct, h.1.young, h.1.scheduled, h.1.soonest, hresponses⟩, h.2⟩

theorem Inv.answer (h : m.Inv) {mac : Mac} {requestID : Nat}
    (hstation : usesEncryption requestID = true → ∀ i e, m.iterator mac = some i →
      m.encryptedConnections[i]? = some e → e.peerStaMac = mac) :
    (m.answer mac requestID).Inv := by
  unfold ConnectionManager.answer
  split
  · exact h
  · rename_i hanswers
    refine h.responses fun r hr hencrypted => ?_
    rcases mem_append.mp hr with hr | hr
    · exact h.1.responses r hr hencrypted
    · obtain rfl := mem_singleton.mp hr
      cases hi : m.iterator mac with
      | none => exact absurd ⟨hencrypted, hi⟩ hanswers
      | some i =>
        obtain ⟨e, he, -⟩ := iterator_some hi
        have hmac := hstation hencrypted i e hi he
        exact mem_map.mpr ⟨e, mem_of_getElem? he, hmac⟩

theorem counts_le
    {duration now : Nat} (h : e.Counts duration now) : duration ≤ timeMax := by
  rw [EncryptedConnectionLog.Counts] at h
  split at h
  · exact h
  · exact (Nat.le_add_left _ _).trans h

/-- **Every operation keeps the invariant.** -/
theorem Inv.act (h : m.Inv) {event : ConnectionEvent} (hfits : event.Fits (.ok m)) :
    Held (act event m) := by
  cases event with
  | advance ms => exact h.advance hfits
  | addEncryptedConnection sta ap peerKey ownKey hashKey sdk =>
    obtain ⟨result, m', hadd, hinv, -⟩ :=
      h.addEncryptedConnection sta ap peerKey ownKey hashKey sdk
    rw [ConnectionManager.act, hadd]
    exact hinv
  | addTemporaryEncryptedConnection sta ap peerKey ownKey hashKey duration sdk tick =>
    obtain ⟨rfl, hduration, hcounts⟩ := hfits
    obtain ⟨result, m', hadd, hinv⟩ :=
      h.addTemporaryEncryptedConnection sta ap peerKey ownKey hashKey sdk hduration hcounts
    rw [ConnectionManager.act, hadd]
    exact hinv
  | setRemainingDuration peerMac duration tick =>
    obtain ⟨rfl, hcounts⟩ := hfits
    rw [ConnectionManager.act]
    cases hi : m.iterator peerMac with
    | none => exact h
    | some i =>
      obtain ⟨e, he, -⟩ := iterator_some hi
      exact h.setRemainingDuration (fun e he => hcounts i e hi he)
        (counts_le (hcounts i e hi he))
  | temporaryEncryptedConnectionToPermanent peerMac => exact h.toPermanent peerMac
  | removeEncryptedConnection peerMac mutexFree sdk =>
    obtain ⟨outcome, m', hremove, hinv⟩ := h.removeEncryptedConnection peerMac mutexFree sdk
    rw [ConnectionManager.act, hremove]
    exact hinv
  | removeEncryptedConnectionUnprotected peerMac sdk =>
    obtain ⟨outcome, resulting, m', hremove, hinv⟩ := h.removeUnprotected peerMac sdk
    rw [ConnectionManager.act, hremove]
    exact hinv
  | performEspnowMaintenance tick fuel sdk =>
    obtain rfl : tick = 0 := hfits
    exact h.performEspnowMaintenance fuel sdk
  | handlePostponedRemovals tick fuel sdk =>
    obtain rfl : tick = 0 := hfits
    exact h.handlePostponedRemovals fuel sdk
  | deactivateEspnow => exact inv_deactivateEspnow h
  | answer mac requestID => exact h.answer hfits
  | dropResponse i =>
    refine h.responses fun r hr hencrypted => ?_
    exact h.1.responses r (mem_of_mem_eraseIdx hr) hencrypted

end ConnectionManager

open ConnectionManager in
/-- **The table and what goes with it stay in step**, in every run whose durations can be
counted. -/
theorem connectionTable_sound (events : List ConnectionEvent)
    (h : Runs.AllFit step ConnectionEvent.Fits events (.ok init)) :
    ∀ start, start <+: events → TableKept (Runs.after step start (.ok init)) := by
  rintro start ⟨rest, rfl⟩
  have hheld : Held (Runs.after step start (.ok init)) := by
    refine Runs.invariant (fun event s hs hfits => ?_) inv_init (Runs.allFit_append.mp h).1
    cases s with
    | error halt => exact hs
    | ok m => exact Inv.act hs hfits
  cases hresult : Runs.after step start (.ok init) with
  | error halt =>
    rw [hresult] at hheld
    obtain rfl : halt = .running := hheld
    trivial
  | ok m =>
    rw [hresult] at hheld
    exact Inv.sound hheld

def scheduledRemoval : List ConnectionEvent :=
  [.addEncryptedConnection ⟨2, 0, 0, 0, 0, 1⟩ ⟨2, 0, 0, 0, 0, 1⟩ 0 0 [] true,
    .addTemporaryEncryptedConnection ⟨2, 0, 0, 0, 0, 2⟩ ⟨2, 0, 0, 0, 0, 2⟩ 0 0 [] 1000 true 0,
    .advance 400, .answer ⟨2, 0, 0, 0, 0, 2⟩ 4294967296,
    .removeEncryptedConnection ⟨2, 0, 0, 0, 0, 2⟩ false true,
    .handlePostponedRemovals 0 10 [false, true]]

open ConnectionManager in
theorem connectionTable_sound_sample :
    TableKept (Runs.after step scheduledRemoval (.ok init)) := by
  refine connectionTable_sound scheduledRemoval ⟨trivial, ⟨rfl, by decide, ?_⟩, ?_, ?_, trivial,
    rfl, trivial⟩ _ (List.prefix_refl _)
  · intro i e hi
    cases hi
  · intro t ht
    revert t
    decide
  · intro _ i e hi he
    cases hi
    cases he
    rfl

def overlongRenewal : List ConnectionEvent :=
  [.addTemporaryEncryptedConnection ⟨2, 0, 0, 0, 0, 2⟩ ⟨2, 0, 0, 0, 0, 2⟩ 0 0 [] 100 true 0,
    .advance 10, .setRemainingDuration ⟨2, 0, 0, 0, 0, 2⟩ 4294967290 0]

open ConnectionManager in
/-- **A renewal that cannot be counted**: the connection has expired at once, and the tracker of
the soonest expiry is ninety milliseconds later. -/
theorem not_connectionTable_sound :
    ¬ ∀ events : List ConnectionEvent, TableKept (Runs.after step events (.ok init)) := by
  intro hsound
  have hkept := (hsound overlongRenewal).soonest _ List.mem_cons_self _ rfl
  obtain ⟨k, hk, hexpired, -⟩ := hkept
  cases hk
  exact absurd (hexpired (by decide)) (by decide)

end Mesh
