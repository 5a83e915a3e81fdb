import Mathlib.Data.List.Perm.Basic
import RalioFirmware.Core.Schedule

/-!
# Each scheduled function is called once

The nodes are on one of the two lists, whatever calls come in between the steps of a
run.  The pending functions are those that were scheduled and have not been called, in
that order, and the node that the run took for the last one marks where it stops, as
long as there was one.
-/

namespace Schedule

open Links Runs List Function

variable {Fn : Type}

namespace Lists

variable {l : Lists Fn}

def next (l : Lists Fn) (n : Nat) : Option Nat := (l.nodes n).mNext

def func (l : Lists Fn) (n : Nat) : Option Fn := (l.nodes n).mFunc

@[simp] theorem setNext_next (n : Nat) (r : Option Nat) :
    (l.setNext n r).next = update l.next n r := comp_update Node.mNext l.nodes n _

@[simp] theorem setNext_func (n : Nat) (r : Option Nat) : (l.setNext n r).func = l.func :=
  (comp_update Node.mFunc l.nodes n _).trans (update_eq_self n _)

@[simp] theorem setFunc_next (n : Nat) (f : Option Fn) : (l.setFunc n f).next = l.next :=
  (comp_update Node.mNext l.nodes n _).trans (update_eq_self n _)

@[simp] theorem setFunc_func (n : Nat) (f : Option Fn) :
    (l.setFunc n f).func = update l.func n f := comp_update Node.mFunc l.nodes n _

/-- The two lists: each node is on one of them, and the last pending one is known. -/
structure Linked (l : Lists Fn) (pending free : List Nat) : Prop where
  first : Path l.next l.sFirst pending none
  unused : Path l.next l.sUnused free none
  last : l.sLast = pending.getLast?
  perm : (pending ++ free).Perm (List.range l.sCount)
  count : l.sCount ≤ maxCount

variable {pending free : List Nat}

theorem Linked.nodup (h : l.Linked pending free) : (pending ++ free).Nodup :=
  h.perm.nodup_iff.mpr nodup_range

/-- **A node is found or made, or the lists stay as they are.** -/
theorem get_fn_unsafe_cases (h : l.Linked pending free) (granted : Bool) :
    l.get_fn_unsafe granted = (none, l) ∨
      ∃ item l' free', l.get_fn_unsafe granted = (some item, l') ∧
        l'.sFirst = l.sFirst ∧ l'.sLast = l.sLast ∧ l'.sCount ≤ maxCount ∧
        Path l'.next l'.sUnused free' none ∧
        (item :: (pending ++ free')).Perm (List.range l'.sCount) ∧
        ∀ n ≠ item, l'.next n = l.next n ∧ l'.func n = l.func n := by
  unfold get_fn_unsafe
  cases hunused : l.sUnused with
  | some result =>
    right
    have hfree := h.unused
    cases hcons : free with
    | nil =>
      rw [hcons, hunused] at hfree
      exact absurd hfree (by simp)
    | cons a rest =>
      rw [hcons, hunused] at hfree
      obtain ⟨ha, hrest⟩ := hfree
      obtain rfl := Option.some.inj ha
      refine ⟨result, { l with sUnused := l.next result }, rest, rfl, rfl, rfl, h.count,
        hrest, ?_, fun n _ => ⟨rfl, rfl⟩⟩
      have := h.perm
      rw [hcons] at this
      exact perm_middle.symm.trans this
  | none =>
    simp only
    split
    · rename_i hroom
      split
      · right
        have hnew : ∀ n ∈ pending ++ free, n ≠ l.sCount := fun n hn => by
          have := mem_range.mp (h.perm.mem_iff.mp hn)
          omega
        have hfree : free = [] := by
          have := h.unused
          rw [hunused] at this
          exact this.unique rfl
        refine ⟨l.sCount, _, [], rfl, rfl, rfl, hroom, rfl, ?_, ?_⟩
        · rw [range_succ]
          have := h.perm
          rw [hfree] at this
          exact (this.cons _).trans (perm_append_singleton _ _).symm
        · intro n hn
          unfold next func
          simp only [update_of_ne hn, and_self]
      · exact Or.inl rfl
    · exact Or.inl rfl

/-- **A function that is accepted stands behind the others.** -/
theorem schedule_function_cases (h : l.Linked pending free) (fn : Option Fn) (granted : Bool) :
    l.schedule_function fn granted = some (false, l) ∨
      ∃ f item l' free', fn = some f ∧ l.schedule_function fn granted = some (true, l') ∧
        l'.Linked (pending ++ [item]) free' ∧ l'.func item = some f ∧
        ∀ n ∈ pending, l'.func n = l.func n := by
  unfold schedule_function
  cases fn with
  | none => exact Or.inl rfl
  | some f =>
    obtain hnone | ⟨item, l', free', hget, hfirst, hlast, hcount, hunused, hperm, hother⟩ :=
      get_fn_unsafe_cases h granted
    · grind
    · right
      have hnodup := nodup_cons.mp (hperm.nodup_iff.mpr nodup_range)
      have hpending : item ∉ pending := fun hn => hnodup.1 (mem_append_left _ hn)
      have hfree : item ∉ free' := fun hn => hnodup.1 (mem_append_right _ hn)
      have hperm' : (pending ++ [item] ++ free').Perm (range l'.sCount) := by grind
      have hpath : Path l'.next l'.sFirst pending none := by
        rw [hfirst]
        exact h.first.congr fun n hn => (hother n (ne_of_mem_of_not_mem hn hpending)).1
      have hfunc : ∀ n ∈ pending, l'.func n = l.func n := fun n hn =>
        (hother n (ne_of_mem_of_not_mem hn hpending)).2
      simp only [hget]
      rcases pending.eq_nil_or_concat with hnil | ⟨front, last, hconcat⟩
      · -- The first pending node.
        subst hnil
        have hempty : l'.sFirst = none := hpath
        refine ⟨f, item, { (l'.setFunc item (some f)).setNext item none with
          sFirst := some item, sLast := some item }, free', rfl, ?_, ?_, ?_, by simp⟩
        · simp only [setNext, setFunc, hempty]
        · refine ⟨⟨rfl, ?_⟩, ?_, rfl, hperm', hcount⟩
          · show ((l'.setFunc item (some f)).setNext item none).next item = none
            rw [setNext_next, update_self]
          · show Path ((l'.setFunc item (some f)).setNext item none).next _ _ _
            rw [setNext_next, setFunc_next]
            exact hunused.update hfree
        · show ((l'.setFunc item (some f)).setNext item none).func item = some f
          rw [setNext_func, setFunc_func, update_self]
      · subst hconcat
        rw [concat_eq_append] at *
        have hsome : l'.sFirst ≠ none := by
          rw [hpath.head]
          simp
        obtain ⟨first, hfirst'⟩ := Option.ne_none_iff_exists'.mp hsome
        have hlast' : l'.sLast = some last := by
          rw [hlast, h.last, getLast?_concat]
        have hfront : last ∉ front := by
          have := (nodup_append.mp h.nodup).1
          exact (nodup_append.mp this).2.2 |> fun hdis hl =>
            hdis last hl last (mem_singleton_self last) rfl
        rw [mem_append, not_or, mem_singleton] at hpending
        refine ⟨f, item, { ((l'.setFunc item (some f)).setNext item none).setNext last
          (some item) with sLast := some item }, free', rfl, ?_, ?_, ?_, ?_⟩
        · simp only [setNext, setFunc, hfirst', hlast']
        · refine ⟨?_, ?_, by rw [getLast?_concat], hperm', hcount⟩
          · show Path (((l'.setFunc item (some f)).setNext item none).setNext last
              (some item)).next l'.sFirst _ _
            rw [setNext_next, setNext_next, setFunc_next]
            exact hpath.append_node hfront hpending.1 hpending.2
          · show Path (((l'.setFunc item (some f)).setNext item none).setNext last
              (some item)).next l'.sUnused _ _
            rw [setNext_next, setNext_next, setFunc_next]
            refine (hunused.update hfree).update fun hl => ?_
            exact (nodup_append.mp hnodup.2).2.2 last (by simp) last hl rfl
        · show (((l'.setFunc item (some f)).setNext item none).setNext last
            (some item)).func item = some f
          rw [setNext_func, setNext_func, setFunc_func, update_self]
        · intro n hn
          show (((l'.setFunc item (some f)).setNext item none).setNext last
            (some item)).func n = l.func n
          rw [setNext_func, setNext_func, setFunc_func, update_of_ne ?_,
            hfunc n hn]
          rintro rfl
          simp only [mem_append, mem_singleton] at hn
          rcases hn with hn | hn
          · exact hpending.1 hn
          · exact hpending.2 hn

theorem removeFirst_eq (l : Lists Fn) (head : Nat) :
    l.removeFirst head =
      { (l.setFunc head none).setNext head l.sUnused with
        sFirst := l.next head
        sLast := if l.sLast = some head then none else l.sLast
        sUnused := some head } := by
  unfold removeFirst
  split <;> rfl

/-- **The first node goes to the unused ones.** -/
theorem removeFirst_linked {head : Nat} {rest : List Nat} (h : l.Linked (head :: rest) free) :
    (l.removeFirst head).Linked rest (head :: free) ∧
      ∀ n ∈ rest, (l.removeFirst head).func n = l.func n := by
  have hnodup := nodup_cons.mp h.nodup
  have hrest : head ∉ rest := fun hn => hnodup.1 (mem_append_left _ hn)
  have hfree : head ∉ free := fun hn => hnodup.1 (mem_append_right _ hn)
  rw [removeFirst_eq]
  refine ⟨⟨?_, ?_, ?_, ?_, h.count⟩, ?_⟩
  · show Path ((l.setFunc head none).setNext head l.sUnused).next (l.next head) rest none
    rw [setNext_next, setFunc_next]
    exact h.first.2.update hrest
  · show Path ((l.setFunc head none).setNext head l.sUnused).next (some head) (head :: free) none
    rw [setNext_next, setFunc_next]
    exact h.unused.push hfree
  · show (if l.sLast = some head then none else l.sLast) = rest.getLast?
    rw [h.last]
    rcases rest.eq_nil_or_concat with hnil | ⟨front, last, hconcat⟩
    · subst hnil
      simp
    · subst hconcat
      rw [concat_eq_append] at hrest ⊢
      rw [← cons_append, getLast?_concat, getLast?_concat, if_neg]
      intro heq
      obtain rfl := Option.some.inj heq
      exact hrest (by simp)
  · exact perm_middle.trans h.perm
  · intro n hn
    show ((l.setFunc head none).setNext head l.sUnused).func n = l.func n
    rw [setNext_func, setFunc_func, update_of_ne (ne_of_mem_of_not_mem hn hrest)]

end Lists

namespace World

/-! ## The invariant -/

/-- The node that a run stops at lies ahead, at the end of the functions that are due. -/
def Ahead (stop : Option Nat) (pending : List Nat) (called due : Nat) (left : Nat) : Prop :=
  ∃ n pre post, stop = some n ∧ pending = pre ++ n :: post ∧ pre.length = left ∧
    called + left + 1 = due

/-- What is known at each point of a run; `fs` are the functions that are pending. -/
def Control (w : World Fn) (pending : List Nat) (fs : List Fn) : Prop :=
  match w.pc with
  | .idle => w.accepted = w.called ++ fs ∧ w.called.length = w.due
  | .test _ true => w.accepted = w.called ++ fs ∧ w.called.length = w.due
  | .test stop false => w.accepted = w.called ++ fs ∧
      (stop = none ∧ pending = [] ∧ w.called.length = w.due ∨
        ∃ left, Ahead stop pending w.called.length w.due left)
  | .mark stop => w.accepted = w.called ++ fs ∧
      ∃ left, Ahead stop pending w.called.length w.due left
  | .call stop done => w.accepted = w.called ++ fs ∧
      ∃ left, Ahead stop pending w.called.length w.due left ∧ (done = true ↔ left = 0)
  | .remove stop done => w.accepted = w.called ++ fs.tail ∧ fs ≠ [] ∧
      (done = true ∧ w.called.length = w.due ∨
        done = false ∧ ∃ left, Ahead stop pending.tail w.called.length w.due left)
  | .fault => False

def Inv (w : World Fn) : Prop :=
  ∃ pending free fs, w.lists.Linked pending free ∧
    pending.map w.lists.func = fs.map some ∧ w.Control pending fs

theorem init_inv : (init : World Fn).Inv :=
  ⟨[], [], [], ⟨rfl, rfl, rfl, List.Perm.refl _, Nat.zero_le _⟩, rfl, rfl, rfl⟩

variable {called : Nat}

theorem Ahead.append {stop : Option Nat} {pending : List Nat} {due left : Nat}
    (h : Ahead stop pending called due left) (item : Nat) :
    Ahead stop (pending ++ [item]) called due left := by
  obtain ⟨n, pre, post, hstop, hpending, hleft⟩ := h
  exact ⟨n, pre, post ++ [item], hstop, by rw [hpending]; simp, hleft⟩

variable {w : World Fn}

theorem Control.append {pending : List Nat} {fs : List Fn}
    (h : w.Control pending fs) (hfit : ¬ (w.pc = .test none false ∧ pending = []))
    (lists : Lists Fn) (item : Nat) (f : Fn) (hlen : pending.length = fs.length) :
    ({ w with lists := lists, accepted := w.accepted ++ [f] } : World Fn).Control
      (pending ++ [item]) (fs ++ [f]) := by
  unfold Control at h ⊢
  simp only
  cases hpc : w.pc with
  | idle =>
    grind
  | test stop done =>
    rw [hpc] at h
    cases done with
    | true => exact ⟨by rw [h.1, append_assoc], h.2⟩
    | false =>
      obtain ⟨haccepted, ⟨rfl, hnil, -⟩ | ⟨left, hahead⟩⟩ := h
      · exact absurd ⟨hpc, hnil⟩ hfit
      · exact ⟨by rw [haccepted, append_assoc], Or.inr ⟨left, hahead.append item⟩⟩
  | mark stop =>
    rw [hpc] at h
    obtain ⟨haccepted, left, hahead⟩ := h
    exact ⟨by rw [haccepted, append_assoc], left, hahead.append item⟩
  | call stop done =>
    rw [hpc] at h
    obtain ⟨haccepted, left, hahead, hdone⟩ := h
    exact ⟨by rw [haccepted, append_assoc], left, hahead.append item, hdone⟩
  | remove stop done =>
    rw [hpc] at h
    obtain ⟨haccepted, hne, hrest⟩ := h
    cases fs with
    | nil => exact absurd rfl hne
    | cons g fs =>
      cases pending with
      | nil => cases hlen
      | cons a pending =>
        refine ⟨by rw [haccepted]; simp, by simp, ?_⟩
        obtain hdone | ⟨hdone, left, hahead⟩ := hrest
        · exact Or.inl hdone
        · exact Or.inr ⟨hdone, left, hahead.append item⟩
  | fault =>
    rw [hpc] at h
    exact h

theorem Ahead.cons_cases {stop : Option Nat} {head : Nat} {rest : List Nat} {due left : Nat}
    (h : Ahead stop (head :: rest) called due left) :
    left = 0 ∧ stop = some head ∧ called + 1 = due ∨
      0 < left ∧ Ahead stop rest (called + 1) due (left - 1) := by
  obtain ⟨n, pre, post, hstop, hpending, hleft, hdue⟩ := h
  cases pre with
  | nil =>
    obtain ⟨rfl, -⟩ := cons.inj hpending
    obtain rfl : left = 0 := hleft.symm
    exact Or.inl ⟨rfl, hstop, hdue⟩
  | cons a pre =>
    obtain ⟨rfl, hrest⟩ := cons.inj hpending
    rw [length_cons] at hleft
    exact Or.inr ⟨by omega, n, pre, post, hstop, hrest, by omega, by omega⟩

theorem Ahead.ne_nil {stop : Option Nat} {pending : List Nat} {due left : Nat}
    (h : Ahead stop pending called due left) : pending ≠ [] := by
  obtain ⟨n, pre, post, -, rfl, -⟩ := h
  simp

theorem Ahead.first_iff {stop : Option Nat} {head : Nat} {rest : List Nat} {due left : Nat}
    (h : Ahead stop (head :: rest) called due left) (hnodup : (head :: rest).Nodup) :
    some head = stop ↔ left = 0 := by
  obtain ⟨n, pre, post, rfl, hpending, hleft, -⟩ := h
  cases pre with
  | nil =>
    obtain ⟨rfl, -⟩ := cons.inj hpending
    simp [← hleft]
  | cons a pre =>
    obtain ⟨rfl, rfl⟩ := cons.inj hpending
    rw [length_cons] at hleft
    refine ⟨fun heq => ?_, by omega⟩
    obtain rfl := Option.some.inj heq
    exact absurd (mem_append_right pre mem_cons_self) (nodup_cons.mp hnodup).1

theorem schedule_inv (h : w.Inv) (fn : Option Fn) (granted : Bool)
    (hfit : Fits (.schedule fn granted) w) : (w.schedule fn granted).Inv := by
  obtain ⟨pending, free, fs, hlinked, hfuncs, hcontrol⟩ := h
  unfold schedule
  obtain hnone | ⟨f, item, l', free', rfl, hsome, hlinked', hitem, hold⟩ :=
    Lists.schedule_function_cases hlinked fn granted
  · rw [hnone]
    exact ⟨pending, free, fs, hlinked, hfuncs, hcontrol⟩
  · rw [hsome]
    refine ⟨pending ++ [item], free', fs ++ [f], hlinked', ?_, ?_⟩
    · rw [map_append, map_append, ← hfuncs, map_congr_left hold]
      simp [hitem]
    · have hlen : pending.length = fs.length := by
        have := congrArg length hfuncs
        rwa [length_map, length_map] at this
      refine hcontrol.append ?_ l' item f hlen
      rintro ⟨hpc, rfl⟩
      exact hfit ⟨hpc, hlinked.first⟩

theorem start_inv (h : w.Inv) : (step .start w).Inv := by
  simp only [step]
  by_cases hpc : w.pc = .idle
  · rw [if_pos hpc]
    obtain ⟨pending, free, fs, hlinked, hfuncs, hcontrol⟩ := h
    refine ⟨pending, free, fs, hlinked, hfuncs, ?_⟩
    unfold Control at hcontrol ⊢
    rw [hpc] at hcontrol
    have hlen : pending.length = fs.length := by
      have := congrArg length hfuncs
      rwa [length_map, length_map] at this
    refine ⟨hcontrol.1, ?_⟩
    rcases pending.eq_nil_or_concat with rfl | ⟨front, last, hconcat⟩
    · have hfs : fs = [] := length_eq_zero_iff.mp hlen.symm
      refine Or.inl ⟨hlinked.last, rfl, ?_⟩
      show w.called.length = w.accepted.length
      rw [hcontrol.1, hfs, append_nil]
    · rw [concat_eq_append] at hconcat
      refine Or.inr ⟨front.length, last, front, [], ?_, hconcat, rfl, ?_⟩
      · show w.lists.sLast = some last
        rw [hlinked.last, hconcat, getLast?_concat]
      · grind
  · rw [if_neg hpc]
    exact h

theorem tick_inv (h : w.Inv) : w.tick.Inv := by
  obtain ⟨pending, free, fs, hlinked, hfuncs, hcontrol⟩ := h
  have hfirst := hlinked.first.head
  have hlen : pending.length = fs.length := by
    have := congrArg length hfuncs
    rwa [length_map, length_map] at this
  unfold Control at hcontrol
  unfold tick
  cases hpc : w.pc with
  | idle =>
    refine ⟨pending, free, fs, hlinked, hfuncs, ?_⟩
    unfold Control
    rw [hpc] at hcontrol ⊢
    exact hcontrol
  | test stop done =>
    rw [hpc] at hcontrol
    simp only
    split
    · rename_i hmore
      refine ⟨pending, free, fs, hlinked, hfuncs, ?_⟩
      obtain ⟨hsome, rfl⟩ := hmore
      obtain ⟨haccepted, ⟨-, hnil, -⟩ | hahead⟩ := hcontrol
      · grind
      · exact ⟨haccepted, hahead⟩
    · rename_i hend
      refine ⟨pending, free, fs, hlinked, hfuncs, ?_⟩
      cases done with
      | true => exact hcontrol
      | false =>
        obtain ⟨haccepted, ⟨-, -, hdue⟩ | ⟨left, hahead⟩⟩ := hcontrol
        · exact ⟨haccepted, hdue⟩
        · refine absurd ⟨?_, rfl⟩ hend
          rw [hfirst]
          simpa using hahead.ne_nil
  | mark stop =>
    rw [hpc] at hcontrol
    obtain ⟨haccepted, left, hahead⟩ := hcontrol
    refine ⟨pending, free, fs, hlinked, hfuncs, haccepted, left, hahead, ?_⟩
    cases pending with
    | nil => exact absurd rfl hahead.ne_nil
    | cons head rest =>
      rw [hfirst, decide_eq_true_iff]
      exact hahead.first_iff (nodup_append.mp hlinked.nodup).1
  | call stop done =>
    rw [hpc] at hcontrol
    obtain ⟨haccepted, left, hahead, hdone⟩ := hcontrol
    cases pending with
    | nil => exact absurd rfl hahead.ne_nil
    | cons head rest =>
      cases fs with
      | nil => cases hlen
      | cons f fs =>
        rw [map_cons, map_cons] at hfuncs
        have hf : (w.lists.nodes head).mFunc = some f := (cons.inj hfuncs).1
        rw [hfirst]
        simp only [head?_cons, Option.bind_some, hf]
        refine ⟨head :: rest, free, f :: fs, hlinked, hfuncs, ?_, by simp, ?_⟩
        · grind
        · simp only [length_append, length_singleton, tail_cons]
          obtain ⟨hleft, -, hdue⟩ | ⟨hleft, hrest⟩ := hahead.cons_cases
          · exact Or.inl ⟨hdone.mpr hleft, hdue⟩
          · grind
  | remove stop done =>
    rw [hpc] at hcontrol
    obtain ⟨haccepted, hne, hrest⟩ := hcontrol
    cases pending with
    | nil => exact absurd (length_eq_zero_iff.mp hlen.symm) hne
    | cons head rest =>
      cases fs with
      | nil => exact absurd rfl hne
      | cons f fs =>
        obtain ⟨hlinked', hold⟩ := Lists.removeFirst_linked hlinked
        rw [hfirst]
        simp only [head?_cons]
        refine ⟨rest, head :: free, fs, hlinked', ?_, ?_⟩
        · rw [map_congr_left hold]
          exact (cons.inj hfuncs).2
        · obtain ⟨rfl, hdue⟩ | ⟨rfl, left, hahead⟩ := hrest
          · exact ⟨haccepted, hdue⟩
          · exact ⟨haccepted, Or.inr ⟨left, hahead⟩⟩
  | fault =>
    grind

theorem step_inv (a : Action Fn) (w : World Fn) (h : w.Inv) (hfit : Fits a w) :
    (step a w).Inv := by
  cases a with
  | schedule fn granted => exact schedule_inv h fn granted hfit
  | start => exact start_inv h
  | tick => exact tick_inv h

/-! ## What a program may rely on -/

structure Kept (w : World Fn) : Prop where
  /-- Nothing is read through a null pointer. -/
  running : w.pc ≠ .fault
  /-- What is called has been scheduled, each once and in that order. -/
  once : w.called <+: w.accepted
  /-- A run calls nothing that was scheduled after its start, -/
  bounded : w.called.length ≤ w.due
  /-- and when it has ended it has called all that was scheduled before. -/
  complete : w.pc = .idle → w.called = w.accepted.take w.due
  /-- There are no more nodes than configured, -/
  count : w.lists.sCount ≤ maxCount
  /-- and each of them is on one of the two lists. -/
  nodes : ∃ pending free, Path w.lists.next w.lists.sFirst pending none ∧
    Path w.lists.next w.lists.sUnused free none ∧
    (pending ++ free).Perm (List.range w.lists.sCount)

theorem Ahead.le {stop : Option Nat} {pending : List Nat} {due left : Nat}
    (h : Ahead stop pending called due left) : called ≤ due := by
  obtain ⟨n, pre, post, -, -, -, hdue⟩ := h
  omega

theorem Inv.kept (h : w.Inv) : w.Kept := by
  obtain ⟨pending, free, fs, hlinked, hfuncs, hcontrol⟩ := h
  unfold Control at hcontrol
  refine { running := ?_, once := ?_, bounded := ?_, complete := ?_, count := hlinked.count,
           nodes := ⟨pending, free, hlinked.first, hlinked.unused, hlinked.perm⟩ }
  · intro hpc
    rw [hpc] at hcontrol
    exact hcontrol
  · grind
  · split at hcontrol
    · exact Nat.le_of_eq hcontrol.2
    · exact Nat.le_of_eq hcontrol.2
    · obtain ⟨-, ⟨-, -, hdue⟩ | ⟨left, hahead⟩⟩ := hcontrol
      · exact Nat.le_of_eq hdue
      · exact hahead.le
    · obtain ⟨-, left, hahead⟩ := hcontrol
      exact hahead.le
    · obtain ⟨-, left, hahead, -⟩ := hcontrol
      exact hahead.le
    · obtain ⟨-, -, ⟨-, hdue⟩ | ⟨-, left, hahead⟩⟩ := hcontrol
      · exact Nat.le_of_eq hdue
      · exact hahead.le
    · exact absurd hcontrol id
  · grind

/-- **Scheduled functions are called once, in order, in the first run that starts with them
pending.**  This holds whatever is scheduled by whomever between the steps of a run, as
long as a run that finds nothing pending looks at the list before something is
scheduled. -/
theorem run_kept (actions : List (Action Fn)) (h : AllFit step Fits actions init) :
    (after step actions init : World Fn).Kept :=
  (invariant step_inv init_inv h).kept

def nested : List (Action Nat) :=
  [.schedule (some 7) true, .start, .tick, .tick, .tick, .schedule (some 8) true, .tick, .tick,
    .start, .tick, .tick, .tick, .tick, .tick]

theorem run_kept_nested : (after step nested init : World Nat).Kept :=
  run_kept nested (by decide +kernel)

def late : List (Action Nat) := [.start, .schedule (some 7) true, .tick, .tick, .tick]

theorem not_run_kept :
    ¬ ∀ actions : List (Action Nat), (after step actions init : World Nat).Kept := fun h =>
  absurd (h late).bounded (by decide +kernel)

end World

end Schedule
