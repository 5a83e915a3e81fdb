/-!
# Runs of a deterministic machine

A machine is a step function over actions.  A run is the list of its actions;
`AllFit` says that each of them is taken in a state that a condition allows.
-/

namespace Runs

variable {State Action : Type} {step : Action → State → State} {fits : Action → State → Prop}

/-- The state after a list of actions. -/
def after (step : Action → State → State) : List Action → State → State
  | [], s => s
  | a :: rest, s => after step rest (step a s)

/-- Every action meets the condition in the state it is taken in. -/
def AllFit (step : Action → State → State) (fits : Action → State → Prop) :
    List Action → State → Prop
  | [], _ => True
  | a :: rest, s => fits a s ∧ AllFit step fits rest (step a s)

instance allFitDecidable [∀ a s, Decidable (fits a s)] :
    ∀ (actions : List Action) (s : State), Decidable (AllFit step fits actions s)
  | [], _ => isTrue trivial
  | a :: rest, s =>
    have := allFitDecidable rest (step a s)
    inferInstanceAs (Decidable (fits a s ∧ AllFit step fits rest (step a s)))

theorem after_append (as bs : List Action) (s : State) :
    after step (as ++ bs) s = after step bs (after step as s) := by
  induction as generalizing s with
  | nil => rfl
  | cons a as ih => exact ih (step a s)

variable {s : State}

theorem allFit_append {as bs : List Action} :
    AllFit step fits (as ++ bs) s ↔
      AllFit step fits as s ∧ AllFit step fits bs (after step as s) := by
  induction as generalizing s with
  | nil => simp [AllFit, after]
  | cons a as ih => simp [AllFit, after, ih, and_assoc]

variable {actions : List Action}

theorem allFit_of_forall
    (h : ∀ a ∈ actions, ∀ s, fits a s) : AllFit step fits actions s := by
  induction actions generalizing s with
  | nil => trivial
  | cons a rest ih =>
    exact ⟨h a List.mem_cons_self s, ih fun b hb => h b (List.mem_cons_of_mem _ hb)⟩

theorem AllFit.behind {front back : List Action} {a : Action} {s : State}
    (h : AllFit step fits (front ++ a :: back) s) : fits a (after step front s) :=
  (allFit_append.mp h).2.1

theorem AllFit.and {other : Action → State → Prop}
    (h : AllFit step fits actions s) (ho : AllFit step other actions s) :
    AllFit step (fun a s => fits a s ∧ other a s) actions s := by
  induction actions generalizing s with
  | nil => trivial
  | cons a rest ih => exact ⟨⟨h.1, ho.1⟩, ih h.2 ho.2⟩

theorem allFit_of_invariant {Inv : State → Prop} {good : Action → State → Prop}
    (hstep : ∀ a s, Inv s → fits a s → good a s ∧ Inv (step a s)) (hs : Inv s)
        (h : AllFit step fits actions s) : AllFit step good actions s := by
  induction actions generalizing s with
  | nil => trivial
  | cons a rest ih =>
    obtain ⟨hgood, hnext⟩ := hstep a s hs h.1
    exact ⟨hgood, ih hnext h.2⟩

/-- **Invariants hold along runs.** -/
theorem invariant {Inv : State → Prop} (hstep : ∀ a s, Inv s → fits a s → Inv (step a s))
    {actions : List Action} {s : State} (hs : Inv s) (h : AllFit step fits actions s) :
    Inv (after step actions s) := by
  induction actions generalizing s with
  | nil => exact hs
  | cons a rest ih => exact ih (hstep a s hs h.1) h.2

theorem invariant_of_step {Inv : State → Prop} (hstep : ∀ a s, Inv s → Inv (step a s))
    (actions : List Action) {s : State} (hs : Inv s) : Inv (after step actions s) := by
  induction actions generalizing s with
  | nil => exact hs
  | cons a rest ih => exact ih (hstep a s hs)

theorem forall_prefix_cons {good : State → Prop} {a : Action} {rest : List Action} :
    (∀ start, start <+: a :: rest → good (after step start s)) ↔
      good s ∧ ∀ start, start <+: rest → good (after step start (step a s)) := by
  constructor
  · intro h
    exact ⟨h [] List.nil_prefix,
      fun start hs => h (a :: start) (List.cons_prefix_cons.mpr ⟨rfl, hs⟩)⟩
  · rintro ⟨hnil, hcons⟩ start hs
    cases start with
    | nil => exact hnil
    | cons b start =>
      obtain ⟨rfl, htail⟩ := List.cons_prefix_cons.mp hs
      exact hcons start htail

/-- **Exact conditions.**  Where the condition is just what a step needs to reach a good state
again, the runs that stay in good states are those that meet it throughout. -/
theorem always_iff_allFit {Inv good : State → Prop} (hgood : ∀ s, Inv s → good s)
    (hstep : ∀ a s, Inv s → fits a s → Inv (step a s))
    (hneed : ∀ a s, Inv s → good (step a s) → fits a s) {actions : List Action} {s : State}
    (hs : Inv s) :
    (∀ start, start <+: actions → good (after step start s)) ↔ AllFit step fits actions s := by
  induction actions generalizing s with
  | nil =>
    refine iff_of_true (fun start hstart => ?_) trivial
    rw [List.prefix_nil.mp hstart]
    exact hgood s hs
  | cons a rest ih =>
    rw [forall_prefix_cons, AllFit]
    constructor
    · rintro ⟨-, hrest⟩
      have hfits := hneed a s hs (hrest [] List.nil_prefix)
      exact ⟨hfits, (ih (hstep a s hs hfits)).mp hrest⟩
    · rintro ⟨hfits, hrest⟩
      exact ⟨hgood s hs, (ih (hstep a s hs hfits)).mpr hrest⟩

theorem after_of_fixed (h : ∀ a ∈ actions, step a s = s) :
    after step actions s = s := by
  induction actions with
  | nil => rfl
  | cons a rest ih =>
    rw [after, h a List.mem_cons_self]
    exact ih fun b hb => h b (List.mem_cons_of_mem a hb)

end Runs
