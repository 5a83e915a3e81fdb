/-!
# Passing over a list until it brings no news

A step handles one item and says whether that was news.  A pass takes all items in order, and
passes are made until one brings no news.  Whether this ends is a question of what a quiet pass
leaves as it is (`pass_quiet`), and of what a pass establishes for each of its items
(`pass_establishes`).
-/

namespace Rounds

open List

variable {State Item View : Type} {step : Item → State → State × Bool}

/-- One pass, and whether it brought news. -/
def pass (step : Item → State → State × Bool) : List Item → State → State × Bool
  | [], s => (s, false)
  | x :: rest, s =>
    ((pass step rest (step x s).1).1, (step x s).2 || (pass step rest (step x s).1).2)

/-- The state after some passes. -/
def passes (step : Item → State → State × Bool) (items : List Item) : Nat → State → State
  | 0, s => s
  | n + 1, s => passes step items n (pass step items s).1

/-- Passes until one brings no news, as long as the fuel lasts. -/
def settle (step : Item → State → State × Bool) (items : List Item) : Nat → State → Option State
  | 0, _ => none
  | fuel + 1, s =>
    if (pass step items s).2 then settle step items fuel (pass step items s).1
    else some (pass step items s).1

theorem pass_keeps {Inv : State → Prop} {items : List Item}
    (hkeep : ∀ x ∈ items, ∀ s, Inv s → Inv (step x s).1) {s : State} (hs : Inv s) :
    Inv (pass step items s).1 := by
  induction items generalizing s with
  | nil => exact hs
  | cons x rest ih =>
    obtain ⟨hx, hrest⟩ := forall_mem_cons.mp hkeep
    exact ih hrest (hx s hs)

/-- **What a pass establishes.**  Each item brings about something that the others keep. -/
theorem pass_establishes {Inv : State → Prop} {Done : Item → State → Prop} {items : List Item}
    (hkeep : ∀ x ∈ items, ∀ s, Inv s → Inv (step x s).1)
    (hdone : ∀ x ∈ items, ∀ s, Inv s → Done x (step x s).1)
    (hstays : ∀ x ∈ items, ∀ y ∈ items, ∀ s, Inv s → Done x s → Done x (step y s).1)
    {s : State} (hs : Inv s) : ∀ x ∈ items, Done x (pass step items s).1 := by
  induction items generalizing s with
  | nil =>
    intro x hx
    cases hx
  | cons y rest ih =>
    intro x hx
    have hnext := hkeep y mem_cons_self s hs
    have hrest := fun z (hz : z ∈ rest) => hkeep z (mem_cons_of_mem y hz)
    rcases mem_cons.mp hx with rfl | hx
    · have hboth : Inv (pass step rest (step x s).1).1 ∧ Done x (pass step rest (step x s).1).1 :=
        @pass_keeps State Item step (fun s => Inv s ∧ Done x s) rest
          (fun z hz s h => ⟨hrest z hz s h.1,
            hstays x mem_cons_self z (mem_cons_of_mem x hz) s h.1 h.2⟩)
          (step x s).1 ⟨hnext, hdone x mem_cons_self s hs⟩
      exact hboth.2
    · exact ih hrest (fun z hz => hdone z (mem_cons_of_mem y hz))
        (fun z hz w hw => hstays z (mem_cons_of_mem y hz) w (mem_cons_of_mem y hw))
        hnext x hx

theorem pass_silent {Inv : State → Prop} {items : List Item}
    (hkeep : ∀ x ∈ items, ∀ s, Inv s → Inv (step x s).1)
    (hsilent : ∀ x ∈ items, ∀ s, Inv s → (step x s).2 = false) {s : State} (hs : Inv s) :
    (pass step items s).2 = false := by
  induction items generalizing s with
  | nil => rfl
  | cons x rest ih =>
    obtain ⟨hx, hrest⟩ := forall_mem_cons.mp hkeep
    obtain ⟨hnow, hlater⟩ := forall_mem_cons.mp hsilent
    exact Bool.or_eq_false_iff.mpr ⟨hnow s hs, ih hrest hlater (hx s hs)⟩

/-- **Quiet passes.**  If an item without news leaves a view of the state as it is, every item
of a quiet pass meets that view and has no news there. -/
theorem pass_quiet {view : State → View}
    (hview : ∀ x s, (step x s).2 = false → view (step x s).1 = view s) {items : List Item}
    {s : State} (hquiet : (pass step items s).2 = false) :
    ∀ x ∈ items, ∃ s', view s' = view s ∧ (step x s').2 = false := by
  induction items generalizing s with
  | nil =>
    intro x hx
    cases hx
  | cons y rest ih =>
    intro x hx
    obtain ⟨hnow, hlater⟩ := Bool.or_eq_false_iff.mp hquiet
    rcases mem_cons.mp hx with rfl | hx
    · exact ⟨s, rfl, hnow⟩
    · obtain ⟨s', hs', hsame⟩ := ih hlater x hx
      exact ⟨s', hs'.trans (hview y s hnow), hsame⟩

theorem news_of_pass {items : List Item} {s : State} (hnews : (pass step items s).2 = true) :
    ∃ front x back, items = front ++ x :: back ∧ (step x (pass step front s).1).2 = true := by
  induction items generalizing s with
  | nil => cases hnews
  | cons y rest ih =>
    rcases Bool.or_eq_true_iff.mp hnews with hnow | hlater
    · exact ⟨[], y, rest, rfl, hnow⟩
    · obtain ⟨front, x, back, hsplit, hx⟩ := ih hlater
      exact ⟨y :: front, x, back, by rw [hsplit]; rfl, hx⟩

theorem settle_none {Inv : State → Prop} {items : List Item}
    (hkeep : ∀ s, Inv s → Inv (pass step items s).1)
    (hnews : ∀ s, Inv s → (pass step items s).2 = true) (fuel : Nat) {s : State} (hs : Inv s) :
    settle step items fuel s = none := by
  induction fuel generalizing s with
  | zero => rfl
  | succ fuel ih =>
    rw [settle, if_pos (hnews s hs)]
    exact ih (hkeep s hs)

theorem settle_some {items : List Item} (n : Nat) {s : State}
    (hquiet : (pass step items (passes step items n s)).2 = false) :
    ∃ fuel, (settle step items fuel s).isSome = true := by
  induction n generalizing s with
  | zero =>
    have hnow : (pass step items s).2 = false := hquiet
    refine ⟨1, ?_⟩
    rw [settle, if_neg (Bool.eq_false_iff.mp hnow)]
    rfl
  | succ n ih =>
    obtain ⟨fuel, hfuel⟩ := ih hquiet
    refine ⟨fuel + 1, ?_⟩
    rw [settle]
    split
    · exact hfuel
    · rfl

end Rounds
