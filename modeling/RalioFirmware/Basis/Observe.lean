/-!
# Computations that are watched

A computation comes to a value, and what it does on the way is noted in order: a cell it reads, a
number it works out, a text it prints.  `All P` says that everything noted satisfies `P`; it is
taken apart along the computation, each step of which may depend on the values before it.
-/

namespace Observe

structure Watched (ε α : Type) where
  value : α
  events : List ε

namespace Watched

variable {ε α β : Type}

instance : Monad (Watched ε) where
  pure a := ⟨a, []⟩
  bind m f := ⟨(f m.value).value, m.events ++ (f m.value).events⟩

def note (e : ε) : Watched ε Unit := ⟨(), [e]⟩

/-- Everything noted satisfies `P`. -/
def All (P : ε → Prop) (m : Watched ε α) : Prop := ∀ e ∈ m.events, P e

instance (P : ε → Prop) [DecidablePred P] (m : Watched ε α) : Decidable (m.All P) :=
  inferInstanceAs (Decidable (∀ e ∈ m.events, P e))

variable {P : ε → Prop} {m : Watched ε α} {f : α → Watched ε β}

@[simp]
theorem value_pure (a : α) : (pure a : Watched ε α).value = a := rfl

@[simp]
theorem value_bind : (m >>= f).value = (f m.value).value := rfl

@[simp]
theorem all_pure (a : α) : All P (pure a : Watched ε α) := by
  intro e he
  cases he

@[simp]
theorem all_note (e : ε) : All P (note e) ↔ P e := by
  refine ⟨fun h => h e List.mem_cons_self, fun h e' he' => ?_⟩
  rw [List.mem_singleton.mp he']
  exact h

@[simp]
theorem all_bind : All P (m >>= f) ↔ All P m ∧ All P (f m.value) := by
  constructor
  · intro h
    exact ⟨fun e he => h e (List.mem_append_left _ he), fun e he => h e
        (List.mem_append_right _ he)⟩
  · intro h e he
    rcases List.mem_append.mp he with he | he
    · exact h.1 e he
    · exact h.2 e he

@[simp]
theorem value_ite (c : Prop) [Decidable c] (m m' : Watched ε α) :
    (if c then m else m').value = if c then m.value else m'.value := apply_ite Watched.value c m m'

@[simp]
theorem all_ite (c : Prop) [Decidable c] (m m' : Watched ε α) :
    All P (if c then m else m') ↔ (c → All P m) ∧ (¬ c → All P m') := by
  by_cases hc : c
  · simp only [hc, if_true, forall_const, not_true_eq_false, false_implies, and_true]
  · simp only [hc, if_false, false_implies, not_false_eq_true, forall_const, true_and]

variable {b c : Watched ε Bool}

@[simp]
theorem value_andM : (b <&&> c).value = (b.value && c.value) := by
  simp only [andM, value_bind, toBool]
  cases b.value <;> rfl

@[simp]
theorem all_andM : All P (b <&&> c) ↔ All P b ∧ (b.value = true → All P c) := by
  simp only [andM, all_bind, toBool]
  cases b.value
  · simp only [all_pure, Bool.false_eq_true, false_implies]
  · simp only [forall_const]

@[simp]
theorem value_orM : (b <||> c).value = (b.value || c.value) := by
  simp only [orM, value_bind, toBool]
  cases b.value <;> rfl

@[simp]
theorem all_orM : All P (b <||> c) ↔ All P b ∧ (b.value = false → All P c) := by
  simp only [orM, all_bind, toBool]
  cases b.value
  · simp only [forall_const]
  · simp only [all_pure, Bool.true_eq_false, false_implies]

@[simp]
theorem all_forM (l : List α) (f : α → Watched ε PUnit) :
    All P (l.forM f) ↔ ∀ a ∈ l, All P (f a) := by
  induction l with
  | nil => simp [List.forM_nil]
  | cons a l ih =>
    have hcons : (a :: l).forM f = f a >>= fun _ => l.forM f := rfl
    rw [hcons, all_bind, ih, List.forall_mem_cons]

end Watched

end Observe
