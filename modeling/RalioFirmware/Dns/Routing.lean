import RalioFirmware.Dns.Forwarder

/-!
# Where the replies go

A place that is taken holds the request that the record has last for it, and this request
was forwarded under one of the last eight ids.  The check of a reply's id is meant to let
just these eight through, but lets through all that are ahead of the last one as well.
-/

namespace Dns

open Runs

/-! ## Ids -/

theorem getId_lt (buffer : Bytes) : getId buffer < 65536 := by
  have hlow := (buffer.getD 0 0).toNat_lt
  have hhigh := (buffer.getD 1 0).toNat_lt
  unfold getId
  omega

theorem getId_setId {id : Nat} (hid : id < 65536) (buffer : Bytes) :
    getId (setId id buffer) = id := by
  simp only [getId, setId, List.getD_cons_zero, List.getD_cons_succ, UInt8.toNat_ofNat']
  omega

def Recent (id ids : Nat) : Prop := id < 65536 ∧ (ids % 65536 + 65536 - id) % 65536 < 8

theorem slot_eq {a b : Nat} : slot a = slot b ↔ a % 8 = b % 8 := Fin.mk.injEq .. ▸ Iff.rfl

/-- **The last eight ids** have places of their own. -/
theorem Recent.unique {a b ids : Nat} (ha : Recent a ids) (hb : Recent b ids)
    (h : slot a = slot b) : a = b := by
  rw [slot_eq] at h
  obtain ⟨ha, ha'⟩ := ha
  obtain ⟨hb, hb'⟩ := hb
  omega

theorem recent_next (ids : Nat) : Recent ((ids + 1) % 4294967296 % 65536)
    ((ids + 1) % 4294967296) := by
  unfold Recent
  omega

theorem Recent.next {id ids : Nat} (h : Recent id ids)
    (hslot : slot ((ids + 1) % 4294967296 % 65536) ≠ slot id) :
    Recent id ((ids + 1) % 4294967296) := by
  rw [ne_eq, slot_eq] at hslot
  obtain ⟨hid, hrecent⟩ := h
  refine ⟨hid, ?_⟩
  omega

/-- **What the check lets through.**  It is one of the last eight ids, unless it is ahead of
the last one. -/
theorem recent_iff_of_not_tooOld {id : Nat} {s : Server} (hid : id < 65536) (h : ¬ s.tooOld id) :
    Recent id s.ids ↔ ¬ (s.ids % 65536 < id ∧ id ≤ s.ids % 65536 + 65528) := by
  unfold Server.tooOld queSize at h
  unfold Recent
  omega

/-! ## The record -/

namespace World

theorem lastIn_cons (i : Fin queSize) (q : Forwarded) (record : List Forwarded) :
    lastIn i (q :: record) = if slot q.under = i then some q else lastIn i record := by
  by_cases h : slot q.under = i
  · simp [lastIn, h]
  · simp [lastIn, h]

theorem slot_of_lastIn {i : Fin queSize} {record : List Forwarded} {q : Forwarded}
    (h : q ∈ lastIn i record) : slot q.under = i := by
  simpa using List.find?_some (Option.mem_def.mp h)

/-- **What is in a place** is the last request in the record for it. -/
def Sound (w : World) : Prop :=
  ∀ que, w.server.que = some que → ∀ i, (que i).ip ≠ 0 →
    ∃ q ∈ lastIn i w.record, q.requester = que i ∧ Recent q.under w.server.ids

theorem sound_init (ids : Nat) (forwarder : Bool) : (init ids forwarder).Sound := by
  intro que hque
  cases hque

theorem Sound.of_same {w : World} {s : Server} (hw : w.Sound) (hids : s.ids = w.server.ids)
    (hque : ∀ que, s.que = some que → ∀ i, (que i).ip ≠ 0 →
      ∃ que', w.server.que = some que' ∧ que' i = que i) : Sound ⟨s, w.record⟩ := by
  intro que hsome i hip
  obtain ⟨que', hsome', hsame⟩ := hque que hsome i hip
  obtain ⟨q, hq, hrequester, hrecent⟩ := hw que' hsome' i (hsame ▸ hip)
  exact ⟨q, hq, hrequester.trans hsame, hids ▸ hrecent⟩

end World

namespace Server

theorem disableForwarder_eq (domainName : Bytes) (s : Server) :
    ∃ config, s.disableForwarder domainName false = { s with config } ∧
      s.disableForwarder domainName true = { s with config, dns := 0, que := none } :=
  ⟨_, rfl, rfl⟩

theorem enableForwarder_eq (domainName : Bytes) (dns : Nat) (room : Bool) (s : Server) :
    ∃ config dns' que, s.enableForwarder domainName dns room = ⟨config, s.ids, dns', que⟩ ∧
      (que = s.que ∨ que = some fun _ => ⟨0, 0, 0⟩) := by
  obtain ⟨config, hdisable, -⟩ := disableForwarder_eq domainName s
  have hstart : ∀ t : Server, t.ids = s.ids → t.que = s.que →
      ∃ config dns' que, (if t.dns = 0 then t else
        { t with
          que := makeQue room t.que
          config := { t.config with forwarder := (makeQue room t.que).isSome } }) =
          ⟨config, s.ids, dns', que⟩ ∧ (que = s.que ∨ que = some fun _ => ⟨0, 0, 0⟩) := by
    intro t hids hque
    by_cases hdns : t.dns = 0
    · rw [if_pos hdns, ← hids, ← hque]
      exact ⟨_, _, _, rfl, .inl rfl⟩
    · rw [if_neg hdns, ← hids, ← hque]
      refine ⟨_, _, _, rfl, ?_⟩
      cases t.que with
      | some que => exact .inl rfl
      | none =>
        cases room with
        | true => exact .inr rfl
        | false => exact .inl rfl
  rw [enableForwarder, hdisable]
  by_cases hdns : dns ≠ 0
  · grind
  · grind

theorem forwardReply_cases (buffer : Bytes) (s : Server) :
    (∃ que, s.que = some que ∧ s.config.forwarder = true ∧ ¬ s.tooOld (getId buffer) ∧
      (que (slot (getId buffer))).ip ≠ 0 ∧
      s.forwardReply buffer =
        ({ s with que := some (Function.update que (slot (getId buffer))
            { que (slot (getId buffer)) with ip := 0 }) },
          .replied ⟨(que (slot (getId buffer))).ip, (que (slot (getId buffer))).port,
            setId (que (slot (getId buffer))).id buffer⟩)) ∨
    (s.forwardReply buffer = (s, .nothing) ∧
      (s.config.forwarder = true → ∀ que, s.que = some que →
        s.tooOld (getId buffer) ∨ (que (slot (getId buffer))).ip = 0)) := by
  cases hque : s.que with
  | none => exact .inr ⟨by rw [forwardReply, hque], fun _ que h => by cases h⟩
  | some que =>
    rw [forwardReply, hque]
    simp only [Option.some.injEq]
    by_cases hforwarder : s.config.forwarder = false
    · grind
    by_cases hold : s.tooOld (getId buffer)
    · grind
    by_cases hip : (que (slot (getId buffer))).ip = 0
    · grind
    · grind

theorem forwardRequest_cases (remoteIP remotePort : Nat) (buffer : Bytes) (s : Server) :
    s.forwardRequest remoteIP remotePort buffer = (s, .nothing) ∨
      ∃ que, s.que = some que ∧ s.forwardRequest remoteIP remotePort buffer =
        ({ s with
            ids := (s.ids + 1) % 4294967296
            que := some (Function.update que (slot ((s.ids + 1) % 4294967296))
              ⟨remoteIP, remotePort, getId buffer⟩) },
          .forwarded ⟨s.dns, dnsPort, setId ((s.ids + 1) % 4294967296 % 65536) buffer⟩) := by
  rw [forwardRequest]
  cases hque : s.que with
  | none => exact .inl rfl
  | some que =>
    grind

/-- **A packet** is taken for a reply, or leads to a request, or to neither. -/
theorem processNextRequest_cases (remoteIP remotePort : Nat) (buffer : Bytes) (beyond : Bool)
    (s : Server) :
    (buffer.length ≤ maxPacketSize ∧ headerSize ≤ buffer.length ∧ s.dns ≠ 0 ∧ remoteIP = s.dns ∧
      s.processNextRequest remoteIP remotePort buffer beyond = s.forwardReply buffer) ∨
    (¬ (buffer.length ≤ maxPacketSize ∧ headerSize ≤ buffer.length ∧ s.dns ≠ 0 ∧
        remoteIP = s.dns) ∧
      (s.processNextRequest remoteIP remotePort buffer beyond =
          s.forwardRequest remoteIP remotePort buffer ∨
        ∃ out, s.processNextRequest remoteIP remotePort buffer beyond = (s, out) ∧
          (out = .nothing ∨ ∃ a, out = .answered a))) := by
  rw [processNextRequest]
  by_cases hlong : buffer.length > maxPacketSize
  · exact .inr ⟨fun h => by omega, .inr ⟨_, if_pos hlong, .inl rfl⟩⟩
  by_cases hshort : buffer.length < headerSize
  · grind
  rw [if_neg hlong, if_neg hshort]
  by_cases hdns : s.dns ≠ 0 ∧ remoteIP = s.dns
  · grind
  · rw [if_neg hdns]
    refine .inr ⟨fun h => hdns h.2.2, ?_⟩
    cases respondToRequest buffer s.config with
    | error fault =>
      grind
    | ok a =>
      grind

end Server

/-! ## Runs -/

namespace World

variable {w : World}

/-- **A reply that is sent on** sets its place free. -/
theorem Sound.free (hw : w.Sound) {que : Fin queSize → Requester} (hque : w.server.que = some que)
    (i : Fin queSize) :
    Sound ⟨{ w.server with que := some (Function.update que i { que i with ip := 0 }) },
      w.record⟩ := by
  refine hw.of_same rfl fun que' hque' j hip => ⟨que, hque, ?_⟩
  obtain rfl := Option.some.inj hque'
  by_cases hj : j = i
  · subst hj
    rw [Function.update_self] at hip
    exact absurd rfl hip
  · rw [Function.update_of_ne hj]

/-- **A request that is forwarded** takes the place of the next id. -/
theorem Sound.take (hw : w.Sound) {que : Fin queSize → Requester} (hque : w.server.que = some que)
    (r : Requester) :
    Sound ⟨{ w.server with
        ids := (w.server.ids + 1) % 4294967296
        que := some (Function.update que (slot ((w.server.ids + 1) % 4294967296)) r) },
      ⟨r, (w.server.ids + 1) % 4294967296 % 65536⟩ :: w.record⟩ := by
  have hslot : slot ((w.server.ids + 1) % 4294967296 % 65536) =
      slot ((w.server.ids + 1) % 4294967296) := by
    rw [slot_eq]
    omega
  intro que' hque' i hip
  obtain rfl := Option.some.inj hque'
  simp only [lastIn_cons, hslot]
  by_cases hi : i = slot ((w.server.ids + 1) % 4294967296)
  · subst hi
    refine ⟨_, by rw [if_pos rfl]; rfl, ?_, recent_next w.server.ids⟩
    rw [Function.update_self]
  · rw [Function.update_of_ne hi] at hip ⊢
    obtain ⟨q, hq, hrequester, hrecent⟩ := hw que hque i hip
    refine ⟨q, by rwa [if_neg fun h => hi h.symm], hrequester, hrecent.next ?_⟩
    rw [slot_of_lastIn hq, hslot]
    exact fun h => hi h.symm

/-- **A packet**: what the places hold stays in the record, and a reply goes where it should
exactly if the packet fits. -/
theorem Sound.receive (hw : w.Sound) (remoteIP remotePort : Nat) (buffer : Bytes)
    (beyond : Bool) :
    (step (.receive remoteIP remotePort buffer beyond) w).Sound ∧
      (Routes (.receive remoteIP remotePort buffer beyond) w ↔
        Fits (.receive remoteIP remotePort buffer beyond) w) := by
  simp only [step, Routes, Fits, run]
  rcases w.server.processNextRequest_cases remoteIP remotePort buffer beyond with
    ⟨hsize, hheader, hdns, hfrom, hrun⟩ | ⟨hno, hrun⟩
  · rw [hrun]
    rcases w.server.forwardReply_cases buffer with
      ⟨que, hque, hforwarder, hold, hip, hreply⟩ | ⟨hnothing, hdropped⟩
    · rw [hreply]
      refine ⟨hw.free hque _, ?_⟩
      obtain ⟨q, hq, hrequester, hrecent⟩ := hw que hque _ hip
      have hiff := recent_iff_of_not_tooOld (getId_lt buffer) hold
      constructor
      · rintro ⟨q', hq', hunder, -⟩ - - - - - -
        obtain rfl : q = q' := Option.mem_unique hq hq'
        exact hiff.mp (hunder ▸ hrecent)
      · intro hfits
        have hunder : q.under = getId buffer :=
          hrecent.unique (hiff.mpr (hfits hsize hheader hdns hfrom hforwarder ⟨que, hque, hip⟩))
            (slot_of_lastIn hq)
        exact ⟨q, hq, hunder, by rw [hrequester]⟩
    · rw [hnothing]
      refine ⟨hw, fun _ _ _ _ _ hforwarder => ?_, fun _ => trivial⟩
      rintro ⟨que, hque, hip⟩ ⟨hahead, -⟩
      have hold := (hdropped hforwarder que hque).resolve_right hip
      unfold Server.tooOld queSize at hold
      omega
  · have hfits : ∀ P : Prop, (buffer.length ≤ maxPacketSize → headerSize ≤ buffer.length →
        w.server.dns ≠ 0 → remoteIP = w.server.dns → P) := fun P h₁ h₂ h₃ h₄ =>
      absurd ⟨h₁, h₂, h₃, h₄⟩ hno
    rcases hrun with hrun | ⟨out, hrun, hout⟩
    · rw [hrun]
      rcases w.server.forwardRequest_cases remoteIP remotePort buffer with
        hnothing | ⟨que, hque, hforward⟩
      · rw [hnothing]
        exact ⟨hw, fun _ => hfits _, fun _ => trivial⟩
      · rw [hforward]
        simp only
        rw [getId_setId (Nat.mod_lt _ (by omega))]
        exact ⟨hw.take hque _, fun _ => hfits _, fun _ => trivial⟩
    · rw [hrun]
      rcases hout with rfl | ⟨a, rfl⟩
      · exact ⟨hw, fun _ => hfits _, fun _ => trivial⟩
      · exact ⟨hw, fun _ => hfits _, fun _ => trivial⟩

/-- **One action.** -/
theorem Sound.step (hw : w.Sound) (a : Action) :
    (World.step a w).Sound ∧ (Routes a w ↔ Fits a w) := by
  cases a with
  | receive remoteIP remotePort buffer beyond => exact hw.receive remoteIP remotePort buffer beyond
  | enableForwarder domainName dns room =>
    refine ⟨?_, Iff.rfl⟩
    obtain ⟨config, dns', que, henable, hque⟩ :=
      w.server.enableForwarder_eq domainName dns room
    show Sound ⟨w.server.enableForwarder domainName dns room, w.record⟩
    rw [henable]
    refine hw.of_same rfl fun que' hque' i hip => ?_
    obtain rfl : que = some que' := hque'
    rcases hque with hque | hque
    · exact ⟨que', hque.symm, rfl⟩
    · grind
  | disableForwarder domainName freeResources =>
    refine ⟨?_, Iff.rfl⟩
    obtain ⟨config, hkeep, hfree⟩ := w.server.disableForwarder_eq domainName
    show Sound ⟨w.server.disableForwarder domainName freeResources, w.record⟩
    cases freeResources with
    | true =>
      rw [hfree]
      exact hw.of_same rfl fun que' hque' => by cases hque'
    | false =>
      rw [hkeep]
      exact hw.of_same rfl fun que' hque' i _ => ⟨que', hque', rfl⟩
  | setDNS dns =>
    exact ⟨hw.of_same rfl fun que' hque' i _ => ⟨que', hque', rfl⟩, Iff.rfl⟩
  | setErrorReplyCode rcode =>
    exact ⟨hw.of_same rfl fun que' hque' i _ => ⟨que', hque', rfl⟩, Iff.rfl⟩

/-- **Routing of replies.**  Along any run, every reply that is sent to a client answers the
last request of its place and was forwarded under its id, exactly if no packet that comes as a
reply to a place that is taken carries an id ahead of the last one. -/
theorem run_routes (ids : Nat) (forwarder : Bool) (actions : List Action) :
    AllFit World.step Routes actions (init ids forwarder) ↔
      AllFit World.step Fits actions (init ids forwarder) := by
  have hsound := sound_init ids forwarder
  constructor
  · exact allFit_of_invariant (fun a w hw hroutes =>
      ⟨(hw.step a).2.mp hroutes, (hw.step a).1⟩) hsound
  · exact allFit_of_invariant (fun a w hw hfits =>
      ⟨(hw.step a).2.mpr hfits, (hw.step a).1⟩) hsound

/-- A request is forwarded under the id 1, and a reply that carries 9 is sent to its client. -/
theorem not_run_routes : ¬ ∀ (ids : Nat) (forwarder : Bool) (actions : List Action),
    AllFit World.step Routes actions (init ids forwarder) := by
  intro h
  obtain ⟨-, -, hroutes, -⟩ := h 0 false [.enableForwarder [] 9 true,
    .receive 5 1000 [7, 0, 1, 0, 0, 1, 0, 0, 0, 0, 0, 0, 1, 97, 0, 0, 1, 0, 1] false,
    .receive 9 53 [9, 0, 129, 0, 0, 0, 0, 0, 0, 0, 0, 0] false]
  obtain ⟨q, hq, hunder, -⟩ : ∃ q ∈ lastIn (slot 9) [⟨⟨5, 1000, 7⟩, 1⟩], q.under = 9 ∧
    (⟨5, 1000, [7, 0, 129, 0, 0, 0, 0, 0, 0, 0, 0, 0]⟩ : Datagram) =
      ⟨q.requester.ip, q.requester.port,
        setId q.requester.id [9, 0, 129, 0, 0, 0, 0, 0, 0, 0, 0, 0]⟩ := hroutes
  obtain rfl : (⟨⟨5, 1000, 7⟩, 1⟩ : Forwarded) = q := Option.some.inj hq
  exact absurd hunder (by decide)

end World

end Dns
