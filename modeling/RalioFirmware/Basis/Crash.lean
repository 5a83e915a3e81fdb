/-!
# Programs that may be cut short

A program drives a machine by calls, one at a time, and its power may go at
any point: before a call, or in the middle of one, when the call leaves the
machine in one of the states `Torn` allows for it.

`wp C Q` is the precondition for a program that ends in `Q` and, wherever it
is cut, leaves the machine in `C`.  The two halves are `wp.run` and `wp.cut`;
`wp_bind` is the rule programs are verified by.  `hwp` is the precondition
for what an uninterrupted run comes to together with its history, the calls
it has made and their results.
-/

namespace Crash

/-- The calls of a machine with states `σ`: their results and effects, and
what a call cut short may leave. -/
structure Machine (σ : Type) where
  Op : Type
  Res : Op → Type
  exec : (o : Op) → σ → Res o × σ
  Torn : Op → σ → σ → Prop

variable {σ : Type} {M : Machine σ}

/-- A program: it returns, or makes a call and goes on with the result. -/
inductive Prog (M : Machine σ) (α : Type) where
  | ret (a : α)
  | call (o : M.Op) (next : M.Res o → Prog M α)

namespace Prog

variable {α β : Type}

def bind : Prog M α → (α → Prog M β) → Prog M β
  | ret a, f => f a
  | call o next, f => call o fun r => (next r).bind f

instance : Monad (Prog M) where
  pure := ret
  bind := bind

/-- The program that makes one call. -/
def perform (o : M.Op) : Prog M (M.Res o) := call o ret

/-- The uninterrupted run. -/
def run : Prog M α → σ → α × σ
  | ret a, s => (a, s)
  | call o next, s => (next (M.exec o s).1).run (M.exec o s).2

/-- `p.Cut s s'`: a run of `p` from `s` that is cut short may leave `s'`. -/
inductive Cut : Prog M α → σ → σ → Prop
  | before (p : Prog M α) (s : σ) : Cut p s s
  | during {o : M.Op} {next : M.Res o → Prog M α} {s s' : σ} :
      M.Torn o s s' → Cut (call o next) s s'
  | after {o : M.Op} {next : M.Res o → Prog M α} {s s' : σ} :
      Cut (next (M.exec o s).1) (M.exec o s).2 s' → Cut (call o next) s s'

/-- Every state a run from `s` may be cut in satisfies `C`, and the run ends
in `Q`. -/
def wp (C : σ → Prop) (Q : α → σ → Prop) : Prog M α → σ → Prop
  | ret a, s => C s ∧ Q a s
  | call o next, s =>
    C s ∧ (∀ s', M.Torn o s s' → C s') ∧ wp C Q (next (M.exec o s).1) (M.exec o s).2

variable {C C' : σ → Prop} {Q Q' : α → σ → Prop} {p : Prog M α} {s s' : σ}

theorem wp.start (h : wp C Q p s) : C s := by
  cases p with
  | ret a => exact h.1
  | call o next => exact h.1

theorem wp.run (h : wp C Q p s) : Q (p.run s).1 (p.run s).2 := by
  induction p generalizing s with
  | ret a => exact h.2
  | call o next ih => exact ih _ h.2.2

theorem wp.cut (h : wp C Q p s) (hc : p.Cut s s') : C s' := by
  induction hc with
  | before p s => exact h.start
  | during ht => exact h.2.1 _ ht
  | after _ ih => exact ih h.2.2

theorem wp.mono (h : wp C Q p s) (hC : ∀ s, C s → C' s) (hQ : ∀ a s, C s → Q a s → Q' a s) :
    wp C' Q' p s := by
  induction p generalizing s with
  | ret a => exact ⟨hC s h.1, hQ a s h.1 h.2⟩
  | call o next ih => exact ⟨hC s h.1, fun s' ht => hC s' (h.2.1 s' ht), ih _ h.2.2⟩

theorem wp_ret {a : α} (hC : C s) (hQ : Q a s) : wp C Q (pure a : Prog M α) s := ⟨hC, hQ⟩

variable {f : α → Prog M β}

theorem wp_bind {Q : β → σ → Prop}
    (h : wp C (fun a s => wp C Q (f a) s) p s) : wp C Q (p >>= f) s := by
  induction p generalizing s with
  | ret a => exact h.2
  | call o next ih => exact ⟨h.1, h.2.1, ih _ h.2.2⟩

theorem wp_perform {o : M.Op} {Q : M.Res o → σ → Prop} (hs : C s)
    (ht : ∀ s', M.Torn o s s' → C s') (hC : C (M.exec o s).2)
    (hQ : Q (M.exec o s).1 (M.exec o s).2) : wp C Q (perform o) s :=
  ⟨hs, ht, hC, hQ⟩

theorem wp.ran (h : wp C Q p s) : wp C (fun a s' => Q a s' ∧ p.run s = (a, s')) p s := by
  induction p generalizing s with
  | ret a => exact ⟨h.1, h.2, rfl⟩
  | call o next ih => exact ⟨h.1, h.2.1, ih _ h.2.2⟩

theorem Cut.of_bind (h : (p >>= f).Cut s s') :
    p.Cut s s' ∨ (f (p.run s).1).Cut (p.run s).2 s' := by
  induction p generalizing s with
  | ret a => exact .inr h
  | call o next ih =>
    cases h with
    | before => exact .inl (.before _ _)
    | during ht => exact .inl (.during ht)
    | after hrest =>
      rcases ih _ hrest with hrest | hrest
      · exact .inl (.after hrest)
      · exact .inr hrest

@[simp] theorem run_bind (p : Prog M α) (f : α → Prog M β) (s : σ) :
    (p >>= f).run s = (f (p.run s).1).run (p.run s).2 := by
  induction p generalizing s with
  | ret a => rfl
  | call o next ih => exact ih _ _

/-! ## Histories -/

/-- The calls of an uninterrupted run, with what they returned. -/
def trace : Prog M α → σ → List ((o : M.Op) × M.Res o)
  | ret _, _ => []
  | call o next, s => ⟨o, (M.exec o s).1⟩ :: (next (M.exec o s).1).trace (M.exec o s).2

@[simp] theorem trace_bind (p : Prog M α) (f : α → Prog M β) (s : σ) :
    (p >>= f).trace s = p.trace s ++ (f (p.run s).1).trace (p.run s).2 := by
  induction p generalizing s with
  | ret a => rfl
  | call o next ih => exact congrArg (_ :: ·) (ih _ _)

/-- Begun with the history `t`, the run ends in `Q`, which may speak of the
whole history. -/
def hwp (Q : α → List ((o : M.Op) × M.Res o) → σ → Prop) :
    Prog M α → List ((o : M.Op) × M.Res o) → σ → Prop
  | ret a, t, s => Q a t s
  | call o next, t, s =>
    hwp Q (next (M.exec o s).1) (t ++ [⟨o, (M.exec o s).1⟩]) (M.exec o s).2

section

variable {Q : α → List ((o : M.Op) × M.Res o) → σ → Prop} {t : List ((o : M.Op) × M.Res o)}

theorem hwp.run (h : hwp Q p t s) : Q (p.run s).1 (t ++ p.trace s) (p.run s).2 := by
  induction p generalizing t s with
  | ret a =>
    show Q a (t ++ []) s
    rw [List.append_nil]
    exact h
  | call o next ih =>
    have hnext := ih _ h
    rwa [List.append_assoc] at hnext

theorem hwp.mono {Q' : α → List ((o : M.Op) × M.Res o) → σ → Prop} (h : hwp Q p t s)
    (hQ : ∀ a t s, Q a t s → Q' a t s) : hwp Q' p t s := by
  induction p generalizing t s with
  | ret a => exact hQ a t s h
  | call o next ih => exact ih _ h

theorem hwp_ret {a : α} (h : Q a t s) : hwp Q (pure a : Prog M α) t s := h

theorem hwp_bind {Q : β → List ((o : M.Op) × M.Res o) → σ → Prop}
    (h : hwp (fun a t s => hwp Q (f a) t s) p t s) : hwp Q (p >>= f) t s := by
  induction p generalizing t s with
  | ret a => exact h
  | call o next ih => exact ih _ h

theorem hwp_perform {o : M.Op} {Q : M.Res o → List ((o : M.Op) × M.Res o) → σ → Prop}
    (h : Q (M.exec o s).1 (t ++ [⟨o, (M.exec o s).1⟩]) (M.exec o s).2) :
    hwp Q (perform o) t s := h

end

end Prog

end Crash
