import RalioFirmware.Mesh.ConnectionTable

/-!
# The removal sweep

`updateTemporaryEncryptedConnections` goes through the vector with an iterator
that `removeEncryptedConnectionUnprotected` sets to the entry behind the erased
one.  Where the SDK refuses to delete a peer the iterator stays, and the entry is
tried again at once.  The entry to erase is found by its station address, which
may be the access point address of an entry in front of it.

* `leaving`: the entries that a sweep has to delete, whatever the SDK answers;
* `updateLoop_needs`: a sweep that returns has deleted all of them;
* `updateLoop_returns`: as many successes of the SDK bring it to its end;
* `swept_iff`: the sweep is as it is meant exactly where the SDK succeeds so
  often and no assertion is in the way.
-/

namespace Mesh

open List

namespace ConnectionManager

/-! ## What a sweep deletes -/

def due (scheduledRemovalOnly : Bool) (now : Nat) (e : EncryptedConnectionLog) : Bool :=
  match e.timeTracker with
  | none => false
  | some t => t.expired now && (!scheduledRemovalOnly || e.scheduledForRemoval)

/-- An entry has to leave if it is due, or is found by the station address of an
entry behind it that is. -/
def leaves (due : EncryptedConnectionLog → Bool) (e : EncryptedConnectionLog)
    (behind : List EncryptedConnectionLog) : Bool :=
  due e || behind.any fun d => due d && e.connectedTo d.peerStaMac

def leaving (due : EncryptedConnectionLog → Bool) :
    List EncryptedConnectionLog → List EncryptedConnectionLog
  | [] => []
  | e :: behind => if leaves due e behind then e :: leaving due behind else leaving due behind

def staying (due : EncryptedConnectionLog → Bool) :
    List EncryptedConnectionLog → List EncryptedConnectionLog
  | [] => []
  | e :: behind => if leaves due e behind then staying due behind else e :: staying due behind

def answers (sdk : Nat → Bool) (n : Nat) : List Bool := (List.range n).map sdk

def successes (sdk : Nat → Bool) (n : Nat) : Nat := (answers sdk n).count true

/-- The entries that were deleted are gone from the table and their peers from
the SDK, and every other entry is there as often as before, in the same
order. -/
structure Outcome (m m' : ConnectionManager) : Prop where
  deleted : ∃ deleted : List EncryptedConnectionLog,
    m.encryptedConnections.Perm (m'.encryptedConnections ++ deleted) ∧
      m'.peers = m.peers.filter fun mac => mac ∉ deleted.map (·.peerStaMac)
  order : m'.encryptedConnections.Sublist m.encryptedConnections

/-- The sweep returns, whatever bound there is on its steps from some bound on,
with the outcome that is meant. -/
def Swept (scheduledRemovalOnly : Bool) (sdk : Nat → Bool) (m : ConnectionManager) : Prop :=
  ∃ fuel m', (∀ n ≥ fuel, m.updateTemporaryEncryptedConnections scheduledRemovalOnly 0 n
    (answers sdk n) = .ok m') ∧ Outcome m m'

/-- A scheduled entry has an expired tracker; where an entry is to be deleted
the table is no larger than the SDK's; and the SDK succeeds as often as entries
have to leave. -/
structure Sweepable (scheduledRemovalOnly : Bool) (sdk : Nat → Bool) (m : ConnectionManager) :
    Prop where
  scheduled : ∀ e ∈ m.encryptedConnections, e.scheduledForRemoval = true →
    ∃ t, e.timeTracker = some t ∧ t.expired m.now = true
  bounded : m.encryptedConnections.length ≤ maxEncryptedConnections ∨
    ∀ e ∈ m.encryptedConnections, due scheduledRemovalOnly m.now e = false
  succeeds : ∃ n,
    (leaving (due scheduledRemovalOnly m.now) m.encryptedConnections).length ≤ successes sdk n

/-! ## Deleting one entry -/

section Leaving

variable {due : EncryptedConnectionLog → Bool} {front back : List EncryptedConnectionLog}
  {x : EncryptedConnectionLog}

theorem leaving_perm (due : EncryptedConnectionLog → Bool) (l : List EncryptedConnectionLog) :
    l.Perm (staying due l ++ leaving due l) := by
  induction l with
  | nil => exact .refl _
  | cons e behind ih =>
    rw [leaving, staying]
    split
    · exact (ih.cons e).trans perm_middle.symm
    · exact ih.cons e

theorem staying_sublist (due : EncryptedConnectionLog → Bool) (l : List EncryptedConnectionLog) :
    (staying due l).Sublist l := by
  induction l with
  | nil => exact .refl _
  | cons e behind ih =>
    rw [staying]
    split
    · exact ih.cons e
    · exact ih.cons_cons e

theorem leaving_none (h : ∀ e ∈ front, due e = false) :
    leaving due front = [] ∧ staying due front = front := by
  induction front with
  | nil => exact ⟨rfl, rfl⟩
  | cons e behind ih =>
    obtain ⟨he, hbehind⟩ := forall_mem_cons.1 h
    have hstay : leaves due e behind = false := by
      rw [leaves, he, Bool.false_or, any_eq_false]
      intro d hd
      rw [hbehind d hd, Bool.false_and]
      exact Bool.false_ne_true
    obtain ⟨hleaving, hstaying⟩ := ih hbehind
    rw [leaving, staying, hstay, hleaving, hstaying]
    exact ⟨rfl, rfl⟩

theorem leaves_without {a : EncryptedConnectionLog}
    (h : due x = false ∨ a.connectedTo x.peerStaMac = false) :
    leaves due a (front ++ x :: back) = leaves due a (front ++ back) := by
  have hx : (due x && a.connectedTo x.peerStaMac) = false := by
    obtain h | h := h <;> rw [h]
    · rfl
    · exact Bool.and_false _
  rw [leaves, leaves, any_append, any_append, any_cons, hx, Bool.false_or]

/-- **An entry that leaves** may be taken out first, if it is not what finds one
in front of it. -/
theorem leaving_without (hleaves : leaves due x back = true)
    (h : ∀ a ∈ front, due x = false ∨ a.connectedTo x.peerStaMac = false) :
    (leaving due (front ++ x :: back)).Perm (x :: leaving due (front ++ back)) ∧
      staying due (front ++ x :: back) = staying due (front ++ back) := by
  induction front with
  | nil =>
    rw [nil_append, nil_append, leaving, staying, if_pos hleaves, if_pos hleaves]
    exact ⟨.refl _, rfl⟩
  | cons a front ih =>
    obtain ⟨ha, hfront⟩ := forall_mem_cons.1 h
    obtain ⟨hperm, hsame⟩ := ih hfront
    rw [cons_append, cons_append, leaving, staying, leaving, staying,
      leaves_without ha]
    split
    · exact ⟨(hperm.cons a).trans (.swap x a _), hsame⟩
    · exact ⟨hperm, by rw [hsame]⟩

end Leaving

/-! ## The loop -/

variable {m : ConnectionManager} {only : Bool}

/-- The entries in front of the iterator are neither due nor scheduled. -/
def Passed (due : EncryptedConnectionLog → Bool) (i : Nat) (m : ConnectionManager) : Prop :=
  ∀ k < i, ∀ a, m.encryptedConnections[k]? = some a →
    due a = false ∧ a.scheduledForRemoval = false

variable {i : Nat} {e : EncryptedConnectionLog}

/-- **The entry that a due one finds** leaves, and finds none in front of it. -/
theorem found_leaves {due : EncryptedConnectionLog → Bool} {j : Nat}
    (hi : m.encryptedConnections[i]? = some e) (hdue : due e = true) (hpassed : Passed due i m)
    (hj : m.iterator e.peerStaMac = some j) :
    ∃ front x back, m.encryptedConnections = front ++ x :: back ∧ front.length = j ∧
      leaves due x back = true ∧ (x = e ∨ x.scheduledForRemoval = false) ∧
      (∀ a ∈ front, due x = false ∨ a.connectedTo x.peerStaMac = false) ∧ Passed due j m := by
  obtain ⟨j', hj', hle⟩ := iterator_le hi
  obtain rfl : j = j' := Option.some.inj (hj.symm.trans hj')
  have hfound := hj
  rw [iterator, findIdx?_eq_some_iff_getElem] at hfound
  obtain ⟨hlt, hconnected, hfirst⟩ := hfound
  have hsplit : m.encryptedConnections = m.encryptedConnections.take j ++
      m.encryptedConnections[j] :: m.encryptedConnections.drop (j + 1) := by
    rw [← drop_eq_getElem_cons hlt, take_append_drop]
  have hget : m.encryptedConnections[j]? = some m.encryptedConnections[j] :=
    getElem?_eq_getElem hlt
  have hjpassed : Passed due j m := fun k hk => hpassed k (Nat.lt_of_lt_of_le hk hle)
  refine ⟨_, _, _, hsplit, length_take_of_le (Nat.le_of_lt hlt), ?_, ?_, ?_, hjpassed⟩
  · rw [leaves]
    obtain rfl | hbefore := Nat.eq_or_lt_of_le hle
    · grind
    · have hmem : e ∈ m.encryptedConnections.drop (j + 1) := by
        refine mem_of_getElem? (i := i - (j + 1)) ?_
        rw [getElem?_drop]
        have hindex : j + 1 + (i - (j + 1)) = i := by omega
        rw [hindex]
        exact hi
      rw [any_eq_true.2 ⟨e, hmem, by rw [hdue, hconnected]; rfl⟩, Bool.or_true]
  · obtain rfl | hbefore := Nat.eq_or_lt_of_le hle
    · grind
    · exact .inr (hpassed j hbefore _ hget).2
  · intro a ha
    obtain ⟨k, hk, rfl⟩ := mem_iff_getElem.1 ha
    rw [length_take] at hk
    obtain rfl | hbefore := Nat.eq_or_lt_of_le hle
    · grind
    · exact .inl (hpassed j hbefore _ hget).1

variable {x : EncryptedConnectionLog}

theorem remove_found {mac : Mac} {j : Nat} {front back : List EncryptedConnectionLog}
    (hj : m.iterator mac = some j)
    (hsplit : m.encryptedConnections = front ++ x :: back) (hlength : front.length = j)
    (hbounded : m.encryptedConnections.length ≤ maxEncryptedConnections) :
    m.removeEncryptedConnectionUnprotected (m.iterator mac) false =
        .ok (.REMOVAL_FAILED, none, m) ∧
      ∃ m', m.removeEncryptedConnectionUnprotected (m.iterator mac) true =
          .ok (.REMOVAL_SUCCEEDED, some j, m') ∧ m'.now = m.now ∧
        m'.encryptedConnections = front ++ back ∧
        m'.peers = m.peers.filter fun mac => mac ≠ x.peerStaMac := by
  subst hlength
  have hget : m.encryptedConnections[front.length]? = some x := by grind
  have herase : m.encryptedConnections.eraseIdx front.length = front ++ back := by grind
  rw [hj, removeEncryptedConnectionUnprotected, removeEncryptedConnectionUnprotected,
    if_pos hbounded, if_pos hbounded]
  dsimp only
  rw [hget]
  exact ⟨rfl, _, rfl, rfl, herase, rfl⟩

theorem updateSoonest_rest (remaining : Nat) (m : ConnectionManager) :
    (m.updateSoonestExpiringConnectionTracker remaining 0).now = m.now ∧
      (m.updateSoonestExpiringConnectionTracker remaining 0).peers = m.peers ∧
      (m.updateSoonestExpiringConnectionTracker remaining 0).encryptedConnections =
        m.encryptedConnections := by
  rw [updateSoonestExpiringConnectionTracker]
  dsimp only
  split
  · exact ⟨rfl, rfl, rfl⟩
  · split <;> exact ⟨rfl, rfl, rfl⟩

variable {fuel : Nat}

theorem updateLoop_end {sdk : List Bool} (h : m.encryptedConnections[i]? = none) :
    m.updateLoop only 0 (fuel + 1) sdk i = .ok m := by
  rw [updateLoop, h]

def kept (e : EncryptedConnectionLog) (m : ConnectionManager) : ConnectionManager :=
  match e.timeTracker with
  | none => m
  | some t => m.updateSoonestExpiringConnectionTracker (t.remainingDuration m.now) 0

theorem kept_rest (e : EncryptedConnectionLog) (m : ConnectionManager) :
    (kept e m).now = m.now ∧ (kept e m).peers = m.peers ∧
      (kept e m).encryptedConnections = m.encryptedConnections := by
  rw [kept]
  split
  · exact ⟨rfl, rfl, rfl⟩
  · exact updateSoonest_rest _ m

theorem updateLoop_kept {sdk : List Bool}
    (h : m.encryptedConnections[i]? = some e) (hdue : due only m.now e = false) :
    m.updateLoop only 0 (fuel + 1) sdk i =
      if e.scheduledForRemoval then .error .assertFailed
      else (kept e m).updateLoop only 0 fuel sdk (i + 1) := by
  rw [updateLoop, h, kept]
  dsimp only
  rw [due] at hdue
  cases htracker : e.timeTracker with
  | none => rfl
  | some t =>
    grind

theorem updateLoop_due {sdk : List Bool}
    (h : m.encryptedConnections[i]? = some e) (hdue : due only m.now e = true) :
    m.updateLoop only 0 (fuel + 1) sdk i =
      (m.removeEncryptedConnectionUnprotected (m.iterator e.peerStaMac) (sdk.headD false)).bind
        fun r => updateLoop only 0 fuel sdk.tail (r.2.1.getD i) r.2.2 := by
  rw [updateLoop, h]
  dsimp only
  rw [due] at hdue
  cases htracker : e.timeTracker with
  | none =>
    rw [htracker] at hdue
    cases hdue
  | some t =>
    rw [htracker] at hdue
    dsimp only at hdue ⊢
    rw [hdue]
    rfl

theorem expired_of_due {now : Nat} (h : due only now e = true) :
    ∃ t, e.timeTracker = some t ∧ t.expired now = true := by
  rw [due] at h
  cases htracker : e.timeTracker with
  | none =>
    rw [htracker] at h
    cases h
  | some t =>
    grind

structure Needs (only : Bool) (count : Nat) (m : ConnectionManager) : Prop where
  scheduled : ∀ e ∈ m.encryptedConnections, e.scheduledForRemoval = true →
    ∃ t, e.timeTracker = some t ∧ t.expired m.now = true
  bounded : m.encryptedConnections.length ≤ maxEncryptedConnections ∨
    ∀ e ∈ m.encryptedConnections, due only m.now e = false
  succeeds : (leaving (due only m.now) m.encryptedConnections).length ≤ count

theorem Passed.next {due : EncryptedConnectionLog → Bool}
    (h : Passed due i m) (he : m.encryptedConnections[i]? = some e)
    (hdue : due e = false) (hscheduled : e.scheduledForRemoval = false) :
    Passed due (i + 1) m := by
  intro k hk a ha
  obtain rfl | hlt := Nat.eq_or_lt_of_le (Nat.le_of_lt_succ hk)
  · obtain rfl : e = a := Option.some.inj (he.symm.trans ha)
    exact ⟨hdue, hscheduled⟩
  · exact h k hlt a ha

theorem Passed.all {due : EncryptedConnectionLog → Bool} (h : Passed due i m)
    (hend : m.encryptedConnections[i]? = none) :
    ∀ e ∈ m.encryptedConnections, due e = false ∧ e.scheduledForRemoval = false := by
  intro e he
  obtain ⟨k, hk⟩ := mem_iff_getElem?.1 he
  refine h k ?_ e hk
  have hle := List.getElem?_eq_none_iff.1 hend
  have hlt := (List.getElem?_eq_some_iff.1 hk).1
  omega

variable {m' : ConnectionManager}

theorem Passed.removed {due : EncryptedConnectionLog → Bool}
    {front back : List EncryptedConnectionLog}
    (h : Passed due front.length m) (hsplit : m.encryptedConnections = front ++ x :: back)
    (hremoved : m'.encryptedConnections = front ++ back) : Passed due front.length m' := by
  intro k hk a ha
  refine h k hk a ?_
  rw [hremoved, getElem?_append_left hk] at ha
  rw [hsplit, getElem?_append_left hk]
  exact ha

theorem Needs.congr {count : Nat} (h : Needs only count m')
    (hnow : m'.now = m.now) (hentries : m'.encryptedConnections = m.encryptedConnections) :
    Needs only count m := by
  obtain ⟨hscheduled, hbounded, hsucceeds⟩ := h
  rw [hentries, hnow] at hscheduled hbounded hsucceeds
  exact ⟨hscheduled, hbounded, hsucceeds⟩

/-- **A removal** needs an answer of its own, and an entry that is scheduled only if
it is due. -/
theorem Needs.removed {count : Nat}
    {front back : List EncryptedConnectionLog}
    (h : Needs only count m') (hnow : m'.now = m.now)
    (hsplit : m.encryptedConnections = front ++ x :: back)
    (hentries : m'.encryptedConnections = front ++ back)
    (hbounded : m.encryptedConnections.length ≤ maxEncryptedConnections)
    (hx : due only m.now x = true ∨ x.scheduledForRemoval = false)
    (hleaving : (leaving (due only m.now) (front ++ x :: back)).length =
      (leaving (due only m.now) (front ++ back)).length + 1) :
    Needs only (count + 1) m := by
  refine ⟨fun a ha hscheduled => ?_, .inl hbounded, ?_⟩
  · rw [hsplit, mem_append, mem_cons] at ha
    have hrest := h.scheduled a
    rw [hentries, hnow, mem_append] at hrest
    obtain ha | rfl | ha := ha
    · exact hrest (.inl ha) hscheduled
    · obtain hdue | hnot := hx
      · exact expired_of_due hdue
      · exact absurd (hscheduled.symm.trans hnot) (by decide)
    · exact hrest (.inr ha) hscheduled
  · have hcount := h.succeeds
    rw [hentries, hnow] at hcount
    rw [hsplit, hleaving]
    exact Nat.succ_le_succ hcount

/-- **A sweep that returns** has met what it needs. -/
theorem updateLoop_needs {sdk : List Bool}
    (hpassed : Passed (due only m.now) i m) (h : m.updateLoop only 0 fuel sdk i = .ok m') :
    Needs only (sdk.count true) m := by
  induction fuel generalizing sdk i m with
  | zero => cases h
  | succ fuel ih =>
    cases hget : m.encryptedConnections[i]? with
    | none =>
      have hall := hpassed.all hget
      exact {
        scheduled := fun e he hs => absurd (hs.symm.trans (hall e he).2) (by decide)
        bounded := .inr fun e he => (hall e he).1
        succeeds := by
          rw [(leaving_none fun e he => (hall e he).1).1]
          exact Nat.zero_le _ }
    | some e =>
      cases hdue : due only m.now e with
      | false =>
        obtain ⟨hnow, -, hentries⟩ := kept_rest e m
        rw [updateLoop_kept hget hdue] at h
        cases hscheduled : e.scheduledForRemoval with
        | true =>
          rw [hscheduled] at h
          cases h
        | false =>
          rw [hscheduled] at h
          have hnext := hpassed.next hget hdue hscheduled
          have hneeds := ih (m := kept e m) (i := i + 1)
            (by rw [hnow, Passed, hentries]; exact hnext) h
          exact hneeds.congr hnow hentries
      | true =>
        rw [updateLoop_due hget hdue] at h
        have hbounded : m.encryptedConnections.length ≤ maxEncryptedConnections := by
          by_contra hlong
          unfold removeEncryptedConnectionUnprotected at h
          rw [if_neg hlong] at h
          cases h
        obtain ⟨j, hj, -⟩ := iterator_le hget
        obtain ⟨front, x, back, hsplit, rfl, hleaves, hx, hfree, hjpassed⟩ :=
          found_leaves hget hdue hpassed hj
        obtain ⟨hfailed, m₁, hremoved, hnow, hentries, -⟩ :=
          remove_found hj hsplit rfl hbounded
        cases sdk with
        | nil =>
          rw [headD_nil, hfailed] at h
          exact ih hpassed h
        | cons answer rest =>
          cases answer with
          | false =>
            rw [headD_cons, hfailed] at h
            rw [count_cons_of_ne (by decide)]
            exact ih hpassed h
          | true =>
            rw [headD_cons, hremoved] at h
            have hneeds := ih (m := m₁) (i := front.length)
              (by rw [hnow]; exact hjpassed.removed hsplit hentries) h
            have hperm := (leaving_without hleaves hfree).1.length_eq
            rw [length_cons] at hperm
            rw [count_cons_self]
            refine hneeds.removed hnow hsplit hentries hbounded ?_ hperm
            obtain rfl | hnot := hx
            · exact .inl hdue
            · exact .inr hnot

/-! ## Coming to the end -/

theorem answers_succ (sdk : Nat → Bool) (n : Nat) :
    answers sdk (n + 1) = sdk 0 :: answers (fun k => sdk (k + 1)) n := by
  rw [answers, range_succ_eq_map, map_cons, map_map]
  rfl

theorem successes_succ (sdk : Nat → Bool) (n : Nat) :
    successes sdk (n + 1) =
      successes (fun k => sdk (k + 1)) n + if sdk 0 then 1 else 0 := by
  rw [successes, answers_succ, count_cons]
  cases sdk 0 <;> rfl

structure Ends (only : Bool) (m m' : ConnectionManager) : Prop where
  entries : m'.encryptedConnections = staying (due only m.now) m.encryptedConnections
  peers : m'.peers = m.peers.filter fun mac =>
    mac ∉ (leaving (due only m.now) m.encryptedConnections).map (·.peerStaMac)

/-- The sweep returns from an iterator, whatever bound there is on its steps
from some bound on. -/
def Returns (only : Bool) (sdk : Nat → Bool) (i : Nat) (m : ConnectionManager) : Prop :=
  ∃ fuel m', (∀ n ≥ fuel, ∀ k ≥ n, m.updateLoop only 0 n (answers sdk k) i = .ok m') ∧
    Ends only m m'

variable {sdk : Nat → Bool}

theorem Returns.step {sdk' : Nat → Bool} {i' : Nat} {m₁ : ConnectionManager}
    (h : Returns only sdk' i' m₁)
    (hstep : ∀ n k, n ≤ k → ∃ k' ≥ n, m.updateLoop only 0 (n + 1) (answers sdk (k + 1)) i =
      m₁.updateLoop only 0 n (answers sdk' k') i')
    (hends : ∀ m', Ends only m₁ m' → Ends only m m') : Returns only sdk i m := by
  obtain ⟨fuel, m', hreturns, hend⟩ := h
  refine ⟨fuel + 1, m', fun n hn k hk => ?_, hends m' hend⟩
  obtain ⟨n, rfl⟩ := Nat.exists_eq_succ_of_ne_zero (show n ≠ 0 by omega)
  obtain ⟨k, rfl⟩ := Nat.exists_eq_succ_of_ne_zero (show k ≠ 0 by omega)
  obtain ⟨k', hk', heq⟩ := hstep n k (by omega)
  rw [heq]
  exact hreturns n (by omega) k' hk'

theorem Needs.not_scheduled {count : Nat} (h : Needs only count m)
    (he : e ∈ m.encryptedConnections) (hdue : due only m.now e = false) :
    e.scheduledForRemoval = false := by
  refine Bool.eq_false_iff.2 fun hscheduled => ?_
  obtain ⟨t, ht, hexpired⟩ := h.scheduled e he hscheduled
  rw [due, ht] at hdue
  dsimp only at hdue
  rw [hexpired, hscheduled, Bool.or_true] at hdue
  exact absurd hdue (by decide)

theorem returns_of_due {n : Nat}
    (hstep : ∀ i (m : ConnectionManager) e, Passed (due only m.now) i m →
      Needs only (successes sdk n) m → m.encryptedConnections[i]? = some e →
      due only m.now e = true → Returns only sdk i m) {r : Nat}
    (hrest : m.encryptedConnections.length - i ≤ r) (hpassed : Passed (due only m.now) i m)
    (h : Needs only (successes sdk n) m) : Returns only sdk i m := by
  induction r generalizing i m with
  | zero =>
    have hend : m.encryptedConnections[i]? = none := List.getElem?_eq_none_iff.2 (by omega)
    obtain ⟨hnone, hall⟩ := leaving_none fun e he => (hpassed.all hend e he).1
    refine ⟨1, m, fun n hn k _ => ?_, by rw [hall], ?_⟩
    · obtain ⟨n, rfl⟩ := Nat.exists_eq_succ_of_ne_zero (show n ≠ 0 by omega)
      exact updateLoop_end hend
    · rw [hnone]
      exact (filter_eq_self.2 fun mac _ => by simp).symm
  | succ r ih =>
    cases hget : m.encryptedConnections[i]? with
    | none =>
      have hle := List.getElem?_eq_none_iff.1 hget
      exact ih (by omega) hpassed h
    | some e =>
      cases hdue : due only m.now e with
      | true => exact hstep i m e hpassed h hget hdue
      | false =>
        have hscheduled := h.not_scheduled (mem_of_getElem? hget) hdue
        obtain ⟨hnow, hpeers, hentries⟩ := kept_rest e m
        have hnext := hpassed.next hget hdue hscheduled
        have hkept : Needs only (successes sdk n) (kept e m) :=
          h.congr hnow.symm hentries.symm
        refine (ih (m := kept e m) (i := i + 1) (by rw [hentries]; omega)
          (by rw [hnow, Passed, hentries]; exact hnext) hkept).step
          (fun n k hk => ⟨k + 1, by omega, ?_⟩) fun m' hm' => ⟨?_, ?_⟩
        · rw [updateLoop_kept hget hdue, hscheduled]
          rfl
        · rw [hm'.entries, hentries, hnow]
        · rw [hm'.peers, hentries, hnow, hpeers]

/-- **A sweep whose needs are met** comes to its end: `n` bounds the answers of
the SDK up to the last success, and the rest of the table what lies between two
of them. -/
theorem updateLoop_returns {n : Nat}
    (hpassed : Passed (due only m.now) i m) (h : Needs only (successes sdk n) m) :
    Returns only sdk i m := by
  induction n generalizing sdk i m with
  | zero =>
    refine returns_of_due (fun i m e hpassed h hget hdue => ?_) (Nat.le_refl _) hpassed h
    obtain ⟨j, hj, -⟩ := iterator_le hget
    obtain ⟨front, x, back, hsplit, -, hleaves, -, hfree, -⟩ :=
      found_leaves hget hdue hpassed hj
    have hcount := h.succeeds
    rw [hsplit, (leaving_without hleaves hfree).1.length_eq] at hcount
    exact absurd hcount (Nat.not_succ_le_zero _)
  | succ n ih =>
    refine returns_of_due (fun i m e hpassed h hget hdue => ?_) (Nat.le_refl _) hpassed h
    obtain ⟨j, hj, -⟩ := iterator_le hget
    obtain ⟨front, x, back, hsplit, rfl, hleaves, hx, hfree, hjpassed⟩ :=
      found_leaves hget hdue hpassed hj
    have hbounded : m.encryptedConnections.length ≤ maxEncryptedConnections := by
      refine h.bounded.resolve_right fun hnone => ?_
      exact absurd (hdue.symm.trans (hnone e (mem_of_getElem? hget))) (by decide)
    obtain ⟨hfailed, m₁, hremoved, hnow, hentries, hpeers⟩ :=
      remove_found hj hsplit rfl hbounded
    obtain ⟨hperm, hstay⟩ := leaving_without hleaves hfree
    have hcount := h.succeeds
    rw [successes_succ] at hcount
    cases hanswer : sdk 0 with
    | false =>
      rw [hanswer] at hcount
      have hneeds : Needs only (successes (fun k => sdk (k + 1)) n) m :=
        ⟨h.scheduled, h.bounded, hcount⟩
      refine (ih hpassed hneeds).step (fun n k hk => ⟨k, hk, ?_⟩) fun m' hm' => hm'
      rw [updateLoop_due hget hdue, answers_succ, hanswer, headD_cons, hfailed]
      rfl
    | true =>
      rw [hanswer, hsplit, hperm.length_eq] at hcount
      have hneeds : Needs only (successes (fun k => sdk (k + 1)) n) m₁ := by
        refine ⟨fun a ha => ?_, .inl ?_, ?_⟩
        · rw [hnow]
          refine h.scheduled a ?_
          rw [hentries, mem_append] at ha
          rw [hsplit, mem_append, mem_cons]
          exact ha.imp_right .inr
        · grind
        · grind
      have hpassed₁ := hjpassed.removed hsplit hentries
      rw [← hnow] at hpassed₁
      refine (ih hpassed₁ hneeds).step
        (fun n k hk => ⟨k, hk, ?_⟩) fun m' hm' => ⟨?_, ?_⟩
      · rw [updateLoop_due hget hdue, answers_succ, hanswer, headD_cons, hremoved]
        rfl
      · rw [hm'.entries, hentries, hnow, hsplit, hstay]
      · rw [hm'.peers, hentries, hnow, hpeers, hsplit, filter_filter]
        refine filter_congr fun mac _ => ?_
        have hmem := (hperm.map (·.peerStaMac)).mem_iff (a := mac)
        rw [map_cons, mem_cons] at hmem
        rw [Bool.eq_iff_iff]
        simp [hmem, not_or, and_comm]

/-! ## The sweep -/

theorem Ends.outcome (h : Ends only m m') : Outcome m m' where
  deleted := ⟨leaving (due only m.now) m.encryptedConnections, by
    rw [h.entries]
    exact leaving_perm _ _, h.peers⟩
  order := by
    rw [h.entries]
    exact staying_sublist _ _

theorem passed_zero (due : EncryptedConnectionLog → Bool) (m : ConnectionManager) :
    Passed due 0 m := fun k hk => absurd hk (Nat.not_lt_zero k)

theorem Swept.sweepable (h : Swept only sdk m) : Sweepable only sdk m := by
  obtain ⟨fuel, m', hreturns, -⟩ := h
  have hupdate := hreturns fuel (Nat.le_refl _)
  rw [updateTemporaryEncryptedConnections] at hupdate
  cases hloop : updateLoop only 0 fuel (answers sdk fuel) 0 { m with soonestExpiring := none } with
  | error halt =>
    rw [hloop] at hupdate
    cases hupdate
  | ok m₁ =>
    have hneeds := updateLoop_needs (passed_zero _ _) hloop
    exact ⟨hneeds.scheduled, hneeds.bounded, fuel, hneeds.succeeds⟩

theorem Sweepable.swept (h : Sweepable only sdk m) : Swept only sdk m := by
  obtain ⟨hscheduled, hbounded, n, hcount⟩ := h
  obtain ⟨fuel, m', hreturns, hends⟩ :=
    updateLoop_returns (m := { m with soonestExpiring := none }) (n := n) (passed_zero _ _)
      ⟨hscheduled, hbounded, hcount⟩
  have houtcome := hends.outcome
  refine ⟨fuel, { m' with newRemovalsScheduled := false }, fun n hn => ?_,
    houtcome.deleted, houtcome.order⟩
  rw [updateTemporaryEncryptedConnections, hreturns n hn n (Nat.le_refl _)]
  rfl

/-- **The sweep** comes to its end, without the entries whose peers were deleted
and with all others, exactly where no assertion is in the way and the SDK
succeeds as often as entries have to leave. -/
theorem swept_iff (scheduledRemovalOnly : Bool) (sdk : Nat → Bool) (m : ConnectionManager) :
    Swept scheduledRemovalOnly sdk m ↔ Sweepable scheduledRemovalOnly sdk m :=
  ⟨Swept.sweepable, Sweepable.swept⟩

def expiredEntry : EncryptedConnectionLog :=
  ⟨⟨1, 0, 0, 0, 0, 0⟩, ⟨2, 0, 0, 0, 0, 0⟩, 0, 0, [], some (ExpiringTimeTracker.create 0 0), false,
    false⟩

/-- An expired entry whose peer the SDK never deletes: the sweep does not
return. -/
theorem not_swept :
    ¬ Swept false (fun _ => false) { init with encryptedConnections := [expiredEntry] } := by
  intro hswept
  obtain ⟨n, hcount⟩ := hswept.sweepable.succeeds
  have hnone : successes (fun _ => false) n = 0 := by
    refine count_eq_zero.2 fun hmem => ?_
    obtain ⟨k, -, hfalse⟩ := mem_map.1 hmem
    exact absurd hfalse (by decide)
  rw [hnone] at hcount
  exact absurd hcount (by decide)

end ConnectionManager

end Mesh
