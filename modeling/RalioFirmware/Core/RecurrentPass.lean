import Mathlib.Data.List.Nodup
import RalioFirmware.Core.Recurrent

/-!
# The list of recurrent functions

The list holds what was scheduled and has not returned false, in the order of the
scheduling, whatever is added and taken out in one pass.  A pass only ever goes forward
on it, so that it invokes nothing twice.
-/

namespace Recurrent

open Links Runs List Function
open Option (bind_some some.inj)

namespace World

variable {Fn : Type} {w : World Fn}

/-- The functions that have not returned false, by their numbers. -/
def remaining (w : World Fn) : List Nat :=
  (List.range w.scheduled.length).filter fun i => i ∉ w.cancelled

/-- The list in memory: from the first node to the last, with all nodes there are, and on
it what remains. -/
structure Chain (w : World Fn) (order : List Nat) : Prop where
  path : Path w.next w.rFirst order none
  last : w.rLast = order.getLast?
  live : ∀ n, n ∈ order ↔ (w.nodes n).isSome = true
  serials : order.map w.serial = w.remaining.map some
  funcs : ∀ n node, w.nodes n = some node → w.scheduled[node.serial]? = some node.mFunc

/-- The nodes that a pass has not come to have larger numbers than those it has invoked. -/
def Beyond (w : World Fn) (ahead : List Nat) : Prop :=
  ∀ i ∈ w.invoked, ∀ n ∈ ahead, ∀ j, w.serial n = some j → i < j

/-- A pass stands at `current`, behind `prev`. -/
def Standing (w : World Fn) (order : List Nat) (current : Nat) (prev : Option Nat) : Prop :=
  ∃ pre post, order = pre ++ current :: post ∧ prev = pre.getLast? ∧ w.Beyond (current :: post)

def Control (w : World Fn) (order : List Nat) : Prop :=
  match w.pc with
  | .idle => w.fence = false
  | .begin current => w.fence = true ∧ w.invoked = [] ∧ order.head? = some current
  | .mark current prev _ => w.fence = true ∧ w.Standing order current prev
  | .check current prev _ _ => w.fence = true ∧ w.Standing order current prev
  | .calling current prev _ _ => w.fence = true ∧ ∃ pre post, order = pre ++ current :: post ∧
      prev = pre.getLast? ∧ w.Beyond post
  | .test current prev _ _ => w.fence = true ∧ ∃ pre rest, order = pre ++ rest ∧
      prev = pre.getLast? ∧ (current = none ∨ current = rest.head?) ∧ w.Beyond rest
  | .fault => False

structure Inv (w : World Fn) : Prop where
  chained : ∃ order, w.Chain order ∧ w.Control order
  cancelled : ∀ i ∈ w.cancelled, i < w.scheduled.length
  invoked : ∀ i ∈ w.invoked, i < w.scheduled.length
  once : w.invoked.Nodup

theorem init_inv : (init : World Fn).Inv where
  chained := ⟨[], ⟨rfl, rfl, by simp [init], rfl, by simp [init]⟩, rfl⟩
  cancelled := by simp [init]
  invoked := by simp [init]
  once := nodup_nil

/-! ## The order of the list -/

theorem remaining_nodup (w : World Fn) : w.remaining.Nodup := nodup_range.filter _

theorem Chain.nodup {order : List Nat} (h : w.Chain order) : order.Nodup := by
  refine List.Nodup.of_map w.serial ?_
  rw [h.serials]
  exact w.remaining_nodup.map fun _ _ => some.inj

variable {n : Nat}

theorem Chain.node {order : List Nat} (h : w.Chain order) (hn : n ∈ order) :
    ∃ node, w.nodes n = some node := Option.isSome_iff_exists.mp ((h.live n).mp hn)

variable {pre post : List Nat}

theorem Chain.lt {m i j : Nat} (h : w.Chain (pre ++ n :: post))
    (hm : m ∈ post) (hi : w.serial n = some i) (hj : w.serial m = some j) : i < j := by
  have hsorted : (w.remaining.map some).Pairwise fun x y =>
      ∀ a b, x = some a → y = some b → a < b := by
    refine pairwise_map.mpr (List.Pairwise.imp ?_ (pairwise_lt_range.filter _))
    intro a b hab x y hx hy
    cases hx
    cases hy
    exact hab
  rw [← h.serials, pairwise_map, pairwise_append, pairwise_cons] at hsorted
  exact hsorted.2.1.1 m hm i j hi hj

theorem Chain.serial_lt {order : List Nat} (h : w.Chain order) {i : Nat}
    (hi : w.serial n = some i) : i < w.scheduled.length := by
  obtain ⟨node, hnode, rfl⟩ := Option.map_eq_some_iff.mp hi
  exact (List.getElem?_eq_some_iff.mp (h.funcs n node hnode)).1

theorem Chain.next_eq (h : w.Chain (pre ++ n :: post)) :
    w.next n = post.head? := by
  obtain ⟨r, -, -, hpost⟩ := path_append.mp h.path
  exact hpost.head

/-! ## Links -/

theorem update_next (nodes : Nat → Option (Node Fn)) (n : Nat) (node : Option (Node Fn)) :
    (fun m => (update nodes n node m).bind Node.mNext) =
      update (fun m => (nodes m).bind Node.mNext) n (node.bind Node.mNext) :=
  comp_update (Option.bind · Node.mNext) nodes n node

theorem update_serial (nodes : Nat → Option (Node Fn)) (n : Nat) (node : Option (Node Fn)) :
    (fun m => (update nodes n node m).map Node.serial) =
      update (fun m => (nodes m).map Node.serial) n (node.map Node.serial) :=
  comp_update (Option.map Node.serial) nodes n node

/-! ## Scheduling -/

structure Appended (f : Fn) (item : Nat) (w w' : World Fn) : Prop where
  pc : w'.pc = w.pc
  fence : w'.fence = w.fence
  scheduled : w'.scheduled = w.scheduled ++ [f]
  cancelled : w'.cancelled = w.cancelled
  invoked : w'.invoked = w.invoked
  serial : w'.serial = update w.serial item (some w.scheduled.length)

variable {w' : World Fn}

theorem Appended.remaining {f : Fn} {item : Nat} (h : Appended f item w w')
    (hcancelled : ∀ i ∈ w.cancelled, i < w.scheduled.length) :
    w'.remaining = w.remaining ++ [w.scheduled.length] := by
  have hlen : w.scheduled.length ∉ w.cancelled := fun hmem =>
    absurd (hcancelled _ hmem) (Nat.lt_irrefl _)
  unfold World.remaining
  rw [h.scheduled, h.cancelled, length_append, length_singleton, range_succ,
    filter_append]
  simp [hlen]

theorem Appended.serials {order : List Nat} {f : Fn} {item : Nat}
    (h : Appended f item w w') (hw : w.Chain order) (hitem : item ∉ order)
    (hcancelled : ∀ i ∈ w.cancelled, i < w.scheduled.length) :
    (order ++ [item]).map w'.serial = w'.remaining.map some := by
  rw [h.remaining hcancelled, h.serial, map_append, map_append, ← hw.serials]
  congr 1
  · refine map_congr_left fun n hn => ?_
    rw [update_of_ne (ne_of_mem_of_not_mem hn hitem)]
  · simp

theorem Chain.funcs_append {order : List Nat} (h : w.Chain order) (f : Fn)
    {node : Node Fn} (hnode : w.nodes n = some node) :
    (w.scheduled ++ [f])[node.serial]? = some node.mFunc := by
  have hold := h.funcs n node hnode
  rw [getElem?_append_left (List.getElem?_eq_some_iff.mp hold).1]
  exact hold

section Accepted

variable {order : List Nat} {f : Fn} {item : Nat}

def newNode (w : World Fn) (f : Fn) : Node Fn := ⟨none, f, w.scheduled.length⟩

theorem schedule_first (h : w.Chain []) (hcancelled : ∀ i ∈ w.cancelled, i < w.scheduled.length) :
    let w' : World Fn :=
      { w with nodes := update w.nodes item (some (w.newNode f)),
               scheduled := w.scheduled ++ [f], rFirst := some item, rLast := some item }
    Appended f item w w' ∧ w'.Chain [item] := by
  intro w'
  have happended : Appended f item w w' := ⟨rfl, rfl, rfl, rfl, rfl, update_serial _ _ _⟩
  refine ⟨happended, ⟨rfl, ?_⟩, rfl, ?_, happended.serials h (by simp) hcancelled, ?_⟩
  · simp only [w', next, update_self, bind_some]
    rfl
  · intro n
    by_cases hn : n = item
    · subst hn
      simp [w']
    · have := h.live n
      simp only [w', mem_singleton, hn, update_of_ne hn, not_mem_nil] at this ⊢
      exact this
  · intro n node hnode
    by_cases hn : n = item
    · subst hn
      simp only [w', update_self] at hnode
      obtain rfl := some.inj hnode
      simp [w', newNode]
    · simp only [w', update_of_ne hn] at hnode
      exact h.funcs_append f hnode

theorem schedule_behind {front : List Nat} {last : Nat} {node : Node Fn}
    (h : w.Chain (front ++ [last])) (hitem : item ∉ front ++ [last])
    (hcancelled : ∀ i ∈ w.cancelled, i < w.scheduled.length) (hnode : w.nodes last = some node) :
    let w' : World Fn :=
      { w with nodes := update (update w.nodes item (some (w.newNode f))) last
                 (some { node with mNext := some item }),
               scheduled := w.scheduled ++ [f], rLast := some item }
    Appended f item w w' ∧ w'.Chain (front ++ [last] ++ [item]) := by
  intro w'
  have hfront : last ∉ front := by
    have := nodup_append.mp h.nodup
    exact fun hl => this.2.2 last hl last (mem_singleton_self last) rfl
  have hfresh := hitem
  rw [mem_append, not_or, mem_singleton] at hfresh
  have happended : Appended f item w w' := by
    refine ⟨rfl, rfl, rfl, rfl, rfl, (update_serial _ _ _).trans ?_⟩
    rw [update_serial]
    have hserial : w.serial last = some node.serial := by simp [World.serial, hnode]
    funext n
    by_cases hn : n = last
    · grind
    · rw [update_of_ne hn]
      rfl
  refine ⟨happended, ?_, ?_, ?_, happended.serials h hitem hcancelled, ?_⟩
  · have hpath := Path.append_node h.path hfront hfresh.1 hfresh.2 (r := none)
    have hnext : w'.next = update (update w.next item none) last (some item) :=
      (update_next _ _ _).trans (by rw [update_next]; rfl)
    rw [hnext]
    exact hpath
  · rw [getLast?_concat]
  · intro n
    by_cases hn : n = last
    · subst hn
      simp [w']
    · by_cases hn' : n = item
      · subst hn'
        simp [w', update_of_ne hn]
      · have := h.live n
        simp only [w', mem_append, mem_singleton, hn, hn', or_false,
          update_of_ne hn, update_of_ne hn'] at this ⊢
        exact this
  · intro n node' hnode'
    by_cases hn : n = last
    · subst hn
      simp only [w', update_self] at hnode'
      obtain rfl := some.inj hnode'
      show (w.scheduled ++ [f])[node.serial]? = some node.mFunc
      exact h.funcs_append f hnode
    · simp only [w', update_of_ne hn] at hnode'
      by_cases hn' : n = item
      · subst hn'
        simp only [update_self] at hnode'
        obtain rfl := some.inj hnode'
        simp [w', newNode]
      · simp only [update_of_ne hn'] at hnode'
        exact h.funcs_append f hnode'

end Accepted

/-- **A function that is accepted stands at the end.** -/
theorem schedule_cases {order : List Nat} (h : w.Chain order)
    (hcancelled : ∀ i ∈ w.cancelled, i < w.scheduled.length) (fn : Option Fn)
    (item : Option Nat) :
    w.schedule fn item = w ∨
      ∃ f a, Appended f a w (w.schedule fn item) ∧ (w.schedule fn item).Chain (order ++ [a]) := by
  unfold schedule
  cases fn with
  | none => exact Or.inl rfl
  | some f =>
    cases item with
    | none => exact Or.inl rfl
    | some item =>
      simp only
      split
      · exact Or.inl rfl
      · rename_i hfree
        have hitem : item ∉ order := fun hmem => hfree ((h.live item).mp hmem)
        right
        cases hlast : w.rLast with
        | none =>
          rw [h.last, getLast?_eq_none_iff] at hlast
          subst hlast
          exact ⟨f, item, schedule_first h hcancelled⟩
        | some last =>
          rw [h.last] at hlast
          obtain ⟨front, rfl⟩ := getLast?_eq_some_iff.mp hlast
          obtain ⟨node, hnode⟩ := h.node (n := last) (by simp)
          have hne : last ≠ item := fun heq => hitem (by simp [heq])
          simp only [setNext, update_of_ne hne, hnode]
          exact ⟨f, item, schedule_behind h hitem hcancelled hnode⟩

theorem Control.append {order : List Nat} {f : Fn} {item : Nat}
    (h : w.Control order) (hw : w.Chain order) (happended : Appended f item w w')
    (hw' : w'.Chain (order ++ [item])) (hinvoked : ∀ i ∈ w.invoked, i < w.scheduled.length) :
    w'.Control (order ++ [item]) := by
  have hitem : item ∉ order := fun hmem => by
    have := (nodup_append.mp hw'.nodup).2.2 item hmem item (mem_singleton_self item)
    exact this rfl
  have hbeyond : ∀ ahead : List Nat, (∀ n ∈ ahead, n ∈ order) → w.Beyond ahead →
      w'.Beyond (ahead ++ [item]) := by
    intro ahead hsub hahead i hi n hn j hj
    rw [happended.invoked] at hi
    rw [happended.serial] at hj
    rcases mem_append.mp hn with hn | hn
    · rw [update_of_ne (ne_of_mem_of_not_mem (hsub n hn) hitem)] at hj
      exact hahead i hi n hn j hj
    · obtain rfl := mem_singleton.mp hn
      rw [update_self] at hj
      obtain rfl := some.inj hj
      exact hinvoked i hi
  have hstanding : ∀ current prev, w.Standing order current prev →
      w'.Standing (order ++ [item]) current prev := by
    rintro current prev ⟨pre, post, rfl, hprev, hahead⟩
    refine ⟨pre, post ++ [item], by simp, hprev, ?_⟩
    exact hbeyond (current :: post) (fun n hn => mem_append_right pre hn) hahead
  unfold Control at h ⊢
  rw [happended.pc, happended.fence]
  cases hpc : w.pc with
  | idle =>
    rw [hpc] at h
    exact h
  | begin current =>
    rw [hpc] at h
    refine ⟨h.1, by rw [happended.invoked, h.2.1], ?_⟩
    cases order with
    | nil => exact absurd h.2.2 (by simp)
    | cons a rest => exact h.2.2
  | mark current prev stop =>
    grind
  | check current prev stop done =>
    grind
  | calling current prev stop done =>
    rw [hpc] at h
    obtain ⟨hfence, pre, post, rfl, hprev, hahead⟩ := h
    refine ⟨hfence, pre, post ++ [item], by simp, hprev, ?_⟩
    exact hbeyond post (fun n hn => mem_append_right pre (mem_cons_of_mem _ hn)) hahead
  | test current prev stop done =>
    rw [hpc] at h
    obtain ⟨hfence, pre, rest, rfl, hprev, hcurrent, hahead⟩ := h
    refine ⟨hfence, pre, rest ++ [item], by simp, hprev, ?_,
      hbeyond rest (fun n hn => mem_append_right pre hn) hahead⟩
    obtain hcurrent | hcurrent := hcurrent
    · exact Or.inl hcurrent
    · cases rest with
      | nil => exact Or.inl hcurrent
      | cons a rest => exact Or.inr hcurrent
  | fault =>
    rw [hpc] at h
    exact h

theorem schedule_inv (h : w.Inv) (fn : Option Fn) (item : Option Nat) :
    (w.schedule fn item).Inv := by
  obtain ⟨order, hchain, hcontrol⟩ := h.chained
  obtain hsame | ⟨f, a, happended, hchain'⟩ := schedule_cases hchain h.cancelled fn item
  · rw [hsame]
    exact h
  · refine ⟨⟨_, hchain', hcontrol.append hchain happended hchain' h.invoked⟩, ?_, ?_, ?_⟩
    · intro i hi
      rw [happended.cancelled] at hi
      rw [happended.scheduled, length_append]
      exact Nat.lt_add_right _ (h.cancelled i hi)
    · intro i hi
      rw [happended.invoked] at hi
      rw [happended.scheduled, length_append]
      exact Nat.lt_add_right _ (h.invoked i hi)
    · rw [happended.invoked]
      exact h.once

/-! ## A pass -/

variable {current : Nat}

theorem advance_inv (stop : Option Nat) (done : Bool)
    (h : w.Inv) (hchain : w.Chain (pre ++ current :: post)) (hfence : w.fence = true)
    (hahead : w.Beyond post) : (w.advance current stop done).Inv := by
  obtain ⟨node, hnode⟩ := hchain.node (n := current) (by simp)
  have hnext := hchain.next_eq
  simp only [next, hnode, bind_some] at hnext
  simp only [advance, hnode]
  exact ⟨⟨_, ⟨hchain.path, hchain.last, hchain.live, hchain.serials, hchain.funcs⟩, hfence,
    pre ++ [current], post, by simp, by rw [getLast?_concat], Or.inr hnext, hahead⟩,
    h.cancelled, h.invoked, h.once⟩

/-- **A function that is due is invoked, for the first time in this pass.** -/
theorem invoke_inv {prev : Option Nat} {node : Node Fn}
    (stop : Option Nat) (done : Bool) (h : w.Inv) (hchain : w.Chain (pre ++ current :: post))
    (hfence : w.fence = true) (hprev : prev = pre.getLast?)
    (hahead : w.Beyond (current :: post)) (hnode : w.nodes current = some node) :
    ({ w with pc := .calling current prev stop done,
              invoked := w.invoked ++ [node.serial] } : World Fn).Inv := by
  have hserial : w.serial current = some node.serial := by simp [serial, hnode]
  refine ⟨⟨_, ⟨hchain.path, hchain.last, hchain.live, hchain.serials, hchain.funcs⟩, hfence,
    pre, post, rfl, hprev, ?_⟩, h.cancelled, ?_, ?_⟩
  · intro i hi n hn j hj
    rcases mem_append.mp hi with hi | hi
    · exact hahead i hi n (mem_cons_of_mem _ hn) j hj
    · obtain rfl := mem_singleton.mp hi
      exact hchain.lt hn hserial hj
  · intro i hi
    rcases mem_append.mp hi with hi | hi
    · exact h.invoked i hi
    · obtain rfl := mem_singleton.mp hi
      exact hchain.serial_lt hserial
  · refine nodup_append.mpr ⟨h.once, nodup_singleton _, ?_⟩
    intro i hi j hj
    obtain rfl := mem_singleton.mp hj
    exact Nat.ne_of_lt (hahead i hi current mem_cons_self _ hserial)

theorem serials_erase {i : Nat}
    (hchain : w.Chain (pre ++ current :: post)) (hi : w.serial current = some i) :
    (pre ++ post).map w.serial =
      ((List.range w.scheduled.length).filter fun j => j ∉ w.cancelled ++ [i]).map some := by
  have hserials := hchain.serials
  have hnodup := w.remaining_nodup
  rw [map_append, map_cons, hi] at hserials
  obtain ⟨front, back, hsplit, hfront, hback⟩ := map_eq_append_iff.mp hserials.symm
  obtain ⟨j, back, rfl, hj, htail⟩ := map_eq_cons_iff.mp hback
  obtain rfl := some.inj hj
  have hrest : ((range w.scheduled.length).filter fun k => k ∉ w.cancelled ++ [j]) =
      w.remaining.filter fun k => k ≠ j := by
    unfold remaining
    rw [filter_filter]
    refine filter_congr fun k _ => ?_
    simp [and_comm, not_or]
  rw [hsplit] at hnodup hrest
  have hperm := nodup_middle.mp hnodup
  rw [nodup_cons, mem_append, not_or] at hperm
  have hkeep : ∀ l : List Nat, j ∉ l → l.filter (fun k => k ≠ j) = l := fun l hl =>
    filter_eq_self.mpr fun k hk => decide_eq_true (ne_of_mem_of_not_mem hk hl)
  rw [hrest, filter_append, hkeep front hperm.1.1, filter_cons, if_neg (by simp),
    hkeep back hperm.1.2, map_append, map_append, hfront, htail]

theorem getLast?_erase (h : (pre ++ n :: post).Nodup) :
    (if (pre ++ n :: post).getLast? = some n then pre.getLast?
      else (pre ++ n :: post).getLast?) = (pre ++ post).getLast? := by
  rcases post.eq_nil_or_concat with rfl | ⟨front, last, hconcat⟩
  · rw [getLast?_concat, if_pos rfl, append_nil]
  · rw [concat_eq_append] at hconcat
    subst hconcat
    rw [← cons_append, ← append_assoc, ← append_assoc, getLast?_concat,
      getLast?_concat, if_neg]
    intro heq
    obtain rfl := some.inj heq
    have := nodup_middle.mp h
    exact (nodup_cons.mp this).1 (by simp)

/-- The world after a function is taken out: the same nodes but one, and the pass behind
it. -/
structure Erased (current : Nat) (prev next : Option Nat) (i : Nat) (w w' : World Fn) : Prop where
  pc : ∃ stop done, w'.pc = .test next prev stop done
  fence : w'.fence = w.fence
  rLast : w'.rLast = if w.rLast = some current then prev else w.rLast
  scheduled : w'.scheduled = w.scheduled
  cancelled : w'.cancelled = w.cancelled ++ [i]
  invoked : w'.invoked = w.invoked
  serial : ∀ n ≠ current, w'.serial n = w.serial n
  live : ∀ n, (w'.nodes n).isSome = true ↔ n ≠ current ∧ (w.nodes n).isSome = true
  funcs : ∀ n node, w'.nodes n = some node →
    ∃ old, w.nodes n = some old ∧ node.serial = old.serial ∧ node.mFunc = old.mFunc

theorem Erased.inv {i : Nat} {next : Option Nat}
    (he : Erased current pre.getLast? next i w w') (h : w.Inv)
    (hchain : w.Chain (pre ++ current :: post)) (hfence : w.fence = true)
    (hahead : w.Beyond post) (hi : w.serial current = some i) (hnext : next = post.head?)
    (hpath : Path w'.next w'.rFirst (pre ++ post) none) : w'.Inv := by
  have hnodup := nodup_cons.mp (nodup_middle.mp hchain.nodup)
  have hne : ∀ n ∈ pre ++ post, n ≠ current := fun n hn => ne_of_mem_of_not_mem hn hnodup.1
  obtain ⟨stop, done, hpc⟩ := he.pc
  refine ⟨⟨pre ++ post, ⟨hpath, ?_, ?_, ?_, ?_⟩, ?_⟩, ?_, ?_, ?_⟩
  · rw [he.rLast, hchain.last]
    exact getLast?_erase hchain.nodup
  · intro n
    rw [he.live, ← hchain.live]
    simp only [mem_append, mem_cons]
    constructor
    · intro hn
      exact ⟨hne n (mem_append.mpr hn), by tauto⟩
    · rintro ⟨hn, hmem⟩
      tauto
  · have hserials := serials_erase hchain hi
    unfold remaining
    rw [he.scheduled, he.cancelled, ← hserials]
    exact map_congr_left fun n hn => he.serial n (hne n hn)
  · intro n node hnode
    obtain ⟨old, hold, hserial, hfunc⟩ := he.funcs n node hnode
    rw [he.scheduled, hserial, hfunc]
    exact hchain.funcs n old hold
  · unfold Control
    rw [hpc]
    refine ⟨he.fence.trans hfence, pre, post, rfl, rfl, Or.inr hnext, ?_⟩
    intro j hj n hn k hk
    rw [he.invoked] at hj
    rw [he.serial n (hne n (mem_append_right pre hn))] at hk
    exact hahead j hj n hn k hk
  · intro j hj
    rw [he.cancelled] at hj
    rw [he.scheduled]
    rcases mem_append.mp hj with hj | hj
    · exact h.cancelled j hj
    · obtain rfl := mem_singleton.mp hj
      exact hchain.serial_lt hi
  · rw [he.invoked, he.scheduled]
    exact h.invoked
  · rw [he.invoked]
    exact h.once

/-- **A function that returns false is taken out**, be it the first, the last or the only
one. -/
theorem remove_inv (stop : Option Nat) (done : Bool)
    (h : w.Inv) (hchain : w.Chain (pre ++ current :: post)) (hfence : w.fence = true)
    (hahead : w.Beyond post) : (w.remove current pre.getLast? stop done).Inv := by
  obtain ⟨node, hnode⟩ := hchain.node (n := current) (by simp)
  have hserial : w.serial current = some node.serial := by simp [serial, hnode]
  have hnext := hchain.next_eq
  have hmNext : w.next current = node.mNext := by simp [next, hnode]
  have hnodup := nodup_cons.mp (nodup_middle.mp hchain.nodup)
  rw [mem_append, not_or] at hnodup
  rcases pre.eq_nil_or_concat with rfl | ⟨front, p, hconcat⟩
  · have he : Erased current none node.mNext node.serial w
        (w.remove current none stop done) := by
      simp only [remove, hnode]
      refine ⟨⟨stop, done, rfl⟩, rfl, rfl, rfl, rfl, rfl, ?_, ?_, ?_⟩
      · intro n hn
        simp only [serial, update_of_ne hn]
      · grind
      · intro n node' hnode'
        by_cases hn : n = current
        · subst hn
          simp at hnode'
        · grind
    refine he.inv h hchain hfence hahead hserial (hmNext.symm.trans hnext) ?_
    simp only [remove, hnode]
    show Path (fun n => (update w.nodes current none n).bind Node.mNext) node.mNext _ _
    rw [update_next, ← hmNext]
    exact Path.update hchain.path.2 hnodup.1.2
  · rw [concat_eq_append] at hconcat
    subst hconcat
    obtain ⟨pnode, hpnode⟩ := hchain.node (n := p) (by simp)
    have hp : p ≠ current := fun heq => hnodup.1.1 (by simp [heq])
    have he : Erased current (some p) node.mNext node.serial w
        (w.remove current (some p) stop done) := by
      simp only [remove, hnode, setNext, hpnode]
      refine ⟨⟨stop, done, rfl⟩, rfl, rfl, rfl, rfl, rfl, ?_, ?_, ?_⟩
      · intro n hn
        simp only [serial, update_of_ne hn]
        by_cases hn' : n = p
        · subst hn'
          simp [hpnode]
        · simp only [update_of_ne hn']
      · grind
      · intro n node' hnode'
        by_cases hn : n = current
        · subst hn
          simp at hnode'
        · simp only [update_of_ne hn] at hnode'
          by_cases hn' : n = p
          · subst hn'
            simp only [update_self] at hnode'
            obtain rfl := some.inj hnode'
            exact ⟨pnode, hpnode, rfl, rfl⟩
          · grind
    have hprev : (front ++ [p]).getLast? = some p := getLast?_concat
    rw [← hprev] at he
    refine he.inv h hchain hfence hahead hserial (hmNext.symm.trans hnext) ?_
    rw [hprev]
    simp only [remove, hnode, setNext, hpnode]
    show Path (fun n => (update (update w.nodes p _) current none n).bind
      Node.mNext) w.rFirst _ _
    rw [update_next, update_next]
    have hpath := hchain.path
    have horder : front ++ [p] ++ current :: post = front ++ p :: current :: post := by simp
    rw [horder] at hpath
    have hfresh : p ∉ front ++ post := by
      have := hchain.nodup
      rw [horder] at this
      have := (nodup_cons.mp (nodup_middle.mp this)).1
      simp only [mem_append, mem_cons, not_or] at this ⊢
      exact ⟨this.1, this.2.2⟩
    have hunlinked := (hpath.unlink hfresh).update (a := current) (r := none) (by
      have := hnodup.1
      simp only [mem_append, mem_singleton, not_or] at this
      simp only [mem_append, mem_cons, not_or]
      exact ⟨this.1.1, this.1.2, this.2⟩)
    rw [hmNext] at hunlinked
    rw [append_assoc]
    exact hunlinked

theorem tick_inv (h : w.Inv) (due result : Bool) : (w.tick due result).Inv := by
  obtain ⟨order, hchain, hcontrol⟩ := h.chained
  have hsame : ∀ pc, ({ w with pc := pc } : World Fn).Control order →
      ({ w with pc := pc } : World Fn).Inv := fun pc hpc =>
    ⟨⟨order, ⟨hchain.path, hchain.last, hchain.live, hchain.serials, hchain.funcs⟩, hpc⟩,
      h.cancelled, h.invoked, h.once⟩
  unfold Control at hcontrol
  unfold tick
  cases hpc : w.pc with
  | idle => exact h
  | begin current =>
    rw [hpc] at hcontrol
    obtain ⟨hfence, hnone, hhead⟩ := hcontrol
    obtain ⟨post, rfl⟩ := head?_eq_some_iff.mp hhead
    refine hsame _ ⟨hfence, [], post, rfl, rfl, ?_⟩
    intro i hi
    rw [show w.invoked = [] from hnone] at hi
    cases hi
  | mark current prev stop =>
    rw [hpc] at hcontrol
    exact hsame _ hcontrol
  | check current prev stop done =>
    rw [hpc] at hcontrol
    obtain ⟨hfence, pre, post, rfl, hprev, hahead⟩ := hcontrol
    simp only
    split
    · obtain ⟨node, hnode⟩ := hchain.node (n := current) (by simp)
      simp only [hnode]
      exact invoke_inv stop done h hchain hfence hprev hahead hnode
    · exact advance_inv stop done h hchain hfence fun i hi n hn =>
        hahead i hi n (mem_cons_of_mem _ hn)
  | calling current prev stop done =>
    rw [hpc] at hcontrol
    obtain ⟨hfence, pre, post, rfl, rfl, hahead⟩ := hcontrol
    simp only
    split
    · exact advance_inv stop done h hchain hfence hahead
    · exact remove_inv stop done h hchain hfence hahead
  | test current prev stop done =>
    rw [hpc] at hcontrol
    obtain ⟨hfence, pre, rest, rfl, hprev, hcurrent, hahead⟩ := hcontrol
    have hidle : ({ w with pc := .idle, fence := false } : World Fn).Inv :=
      ⟨⟨pre ++ rest, ⟨hchain.path, hchain.last, hchain.live, hchain.serials, hchain.funcs⟩,
        rfl⟩, h.cancelled, h.invoked, h.once⟩
    cases current with
    | none => exact hidle
    | some current =>
      cases done with
      | true => exact hidle
      | false =>
        obtain ⟨post, rfl⟩ := head?_eq_some_iff.mp
          (hcurrent.resolve_left (by simp)).symm
        exact hsame _ ⟨hfence, pre, post, rfl, hprev, hahead⟩
  | fault =>
    grind

theorem start_inv (h : w.Inv) : (step .start w).Inv := by
  obtain ⟨order, hchain, hcontrol⟩ := h.chained
  simp only [step]
  cases hfirst : w.rFirst with
  | none => exact h
  | some current =>
    simp only
    by_cases hfence : w.fence = true
    · rw [if_pos hfence]
      exact h
    · rw [if_neg hfence]
      have hpath := hchain.path
      rw [hfirst] at hpath
      exact ⟨⟨order, ⟨hpath, hchain.last, hchain.live, hchain.serials, hchain.funcs⟩, rfl, rfl,
        hpath.head.symm⟩, h.cancelled, by simp, nodup_nil⟩

theorem step_inv (a : Action Fn) (w : World Fn) (h : w.Inv) : (step a w).Inv := by
  cases a with
  | schedule fn item => exact schedule_inv h fn item
  | start => exact start_inv h
  | tick due result => exact tick_inv h due result

/-! ## What a program may rely on -/

structure Kept (w : World Fn) : Prop where
  /-- Memory that is not allocated is not touched. -/
  running : w.pc ≠ .fault
  /-- The list ends at the last node, and has each function once that was scheduled and has
  not returned false, in that order. -/
  listed : ∃ order, Path w.next w.rFirst order none ∧ w.rLast = order.getLast? ∧
    order.map w.serial = w.remaining.map some ∧
    ∀ n ∈ order, ∃ node, w.nodes n = some node ∧
      w.scheduled[node.serial]? = some node.mFunc
  /-- A pass invokes nothing twice. -/
  once : w.invoked.Nodup

theorem Inv.kept (h : w.Inv) : w.Kept := by
  obtain ⟨order, hchain, hcontrol⟩ := h.chained
  refine ⟨?_, ⟨order, hchain.path, hchain.last, hchain.serials, fun n hn => ?_⟩, h.once⟩
  · intro hpc
    unfold Control at hcontrol
    rw [hpc] at hcontrol
    exact hcontrol
  · obtain ⟨node, hnode⟩ := hchain.node hn
    exact ⟨node, hnode, hchain.funcs n node hnode⟩

/-- **The list holds what was scheduled and has not returned false, and a pass invokes each
at most once.**  Functions may be added at any point, also by a callback that takes itself
out, and passes may be started from within passes. -/
theorem run_list_kept (actions : List (Action Fn)) :
    (after step actions init : World Fn).Kept :=
  (invariant_of_step step_inv actions init_inv).kept

-- The only function schedules another one and takes itself out.
example :
    let w : World Nat := after step [.schedule (some 7) (some 5), .start, .tick true true,
      .tick true true, .tick true true, .schedule (some 8) (some 6), .tick true false] init
    w.rFirst = some 6 ∧ w.rLast = some 6 ∧ w.invoked = [0] ∧ w.cancelled = [0] := by
  decide

end World

end Recurrent
