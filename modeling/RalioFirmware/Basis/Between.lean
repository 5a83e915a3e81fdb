import Mathlib.Data.List.Nodup

/-!
# Lists linked both ways between two ends

A relation holds of the neighbours in a list that starts behind one end and stops before another;
the ends may be the same, which makes a ring of the list.  A stretch of the list is exchanged for
another where the links around it are made, and the others kept.
-/

namespace Between

open List

variable {α : Type} {R S : α → α → Prop} {s e x : α} {l m m' r : List α}

/-- The links of a list, from `s` in front of it to `e` behind it. -/
def Linked (R : α → α → Prop) (e : α) : α → List α → Prop
  | s, [] => R s e
  | s, x :: l => R s x ∧ Linked R e x l

/-- The links from `s` up to the last of a list. -/
def Front (R : α → α → Prop) : α → List α → Prop
  | _, [] => True
  | s, x :: l => R s x ∧ Front R x l

/-- The links from the first of a list on. -/
def Back (R : α → α → Prop) (e : α) : List α → Prop
  | [] => True
  | x :: l => Linked R e x l

/-- What is in front of a place: the last of the list before it. -/
def before (s : α) : List α → α
  | [] => s
  | x :: l => before x l

/-- What is behind a place: the first of the list after it. -/
def behind (e : α) : List α → α
  | [] => e
  | x :: _ => x

@[simp] theorem before_nil : before s [] = s := rfl

@[simp] theorem before_cons : before s (x :: l) = before x l := rfl

@[simp] theorem behind_nil : behind e ([] : List α) = e := rfl

@[simp] theorem behind_cons : behind e (x :: l) = x := rfl

@[simp] theorem linked_nil : Linked R e s [] ↔ R s e := Iff.rfl

@[simp] theorem linked_cons : Linked R e s (x :: l) ↔ R s x ∧ Linked R e x l := Iff.rfl

@[simp]
theorem before_append : before s (l ++ m) = before (before s l) m := by
  induction l generalizing s with
  | nil => rfl
  | cons y l ih => exact ih

@[simp]
theorem behind_append : behind e (l ++ m) = behind (behind e m) l := by
  cases l with
  | nil => rfl
  | cons y l => rfl

theorem before_mem : before s l ∈ s :: l := by
  induction l generalizing s with
  | nil => exact mem_cons_self
  | cons y l ih => exact mem_cons_of_mem s ih

theorem behind_mem : behind e l ∈ l ++ [e] := by
  cases l with
  | nil => exact mem_cons_self
  | cons y l => exact mem_cons_self

theorem behind_first (h : (l ++ [e]).Pairwise R) :
    ∀ a ∈ l ++ [e], a = behind e l ∨ R (behind e l) a := by
  intro a ha
  cases l with
  | nil => exact Or.inl (mem_singleton.mp ha)
  | cons y l => exact (mem_cons.mp ha).imp_right ((pairwise_cons.mp h).1 a)

theorem before_eq (h : before s l ≠ s) : ∃ k, l = k ++ [before s l] := by
  rcases eq_nil_or_concat l with rfl | ⟨k, y, rfl⟩
  · exact absurd rfl h
  · exact ⟨k, by simp⟩

theorem Linked.first (h : Linked R e s l) : R s (behind e l) := by
  cases l with
  | nil => exact h
  | cons y l => exact h.1

theorem linked_append : Linked R e s (l ++ m) ↔ Front R s l ∧ Linked R e (before s l) m := by
  induction l generalizing s with
  | nil => simp [Front]
  | cons y l ih => simp [Front, ih, and_assoc]

theorem linked_append_back : Linked R e s (m ++ r) ↔ Linked R (behind e r) s m ∧ Back R e r := by
  induction m generalizing s with
  | nil => cases r <;> simp [Back]
  | cons y m ih => simp [ih, and_assoc]

theorem Front.imp (h : Front R s l) (hnodup : (s :: l).Nodup)
    (hkeep : ∀ a ∈ s :: l, a ≠ before s l → ∀ b ∈ l, R a b → S a b) : Front S s l := by
  induction l generalizing s with
  | nil => trivial
  | cons y l ih =>
    have hne : s ≠ before y l := fun heq => (nodup_cons.mp hnodup).1 (heq ▸ before_mem)
    refine ⟨hkeep s mem_cons_self hne y mem_cons_self h.1, ?_⟩
    refine ih h.2 (nodup_cons.mp hnodup).2 fun a ha hlast b hb => ?_
    exact hkeep a (mem_cons_of_mem s ha) hlast b (mem_cons_of_mem y hb)

theorem Linked.imp (h : Linked R e s l)
    (hkeep : ∀ a ∈ s :: l, ∀ b ∈ l ++ [e], R a b → S a b) : Linked S e s l := by
  induction l generalizing s with
  | nil => exact hkeep s mem_cons_self e mem_cons_self h
  | cons y l ih =>
    refine ⟨hkeep s mem_cons_self y mem_cons_self h.1, ih h.2 fun a ha b hb => ?_⟩
    exact hkeep a (mem_cons_of_mem s ha) b (mem_cons_of_mem y hb)

theorem Back.imp (h : Back R e r) (hnodup : (r ++ [e]).Nodup)
    (hkeep : ∀ a ∈ r, ∀ b ∈ r ++ [e], b ≠ behind e r → R a b → S a b) : Back S e r := by
  cases r with
  | nil => trivial
  | cons y r =>
    refine Linked.imp h fun a ha b hb => hkeep a ha b (mem_cons_of_mem y hb) ?_
    rintro rfl
    exact (nodup_cons.mp hnodup).1 hb

/-- **A stretch is exchanged** for another that is linked to what is around it. -/
theorem Linked.splice (h : Linked R e s (l ++ (m ++ r))) (hs : (s :: (l ++ (m ++ r))).Nodup)
    (he : (l ++ (m ++ r) ++ [e]).Nodup) (hmid : Linked S (behind e r) (before s l) m')
    (hkeep : ∀ a ∈ s :: (l ++ r), a ≠ before s l → a ∉ m → ∀ b ∈ l ++ r ++ [e],
      b ≠ behind e r → b ∉ m → R a b → S a b) : Linked S e s (l ++ (m' ++ r)) := by
  obtain ⟨hfront, hrest⟩ := linked_append.mp h
  obtain ⟨-, hback⟩ := linked_append_back.mp hrest
  refine linked_append.mpr ⟨?_, linked_append_back.mpr ⟨hmid, ?_⟩⟩
  · refine hfront.imp (by grind) fun a ha hlast b hb => ?_
    have hne : b ≠ behind e r := by
      have hmem : behind e r ∈ r ++ [e] := behind_mem
      grind
    exact hkeep a (by grind) hlast (by grind) b (by grind) hne (by grind)
  · refine hback.imp (by grind) fun a ha b hb hfirst => ?_
    have hne : a ≠ before s l := by
      have hmem : before s l ∈ s :: l := before_mem
      grind
    exact hkeep a (by grind) hne (by grind) b (by grind) hfirst (by grind)

end Between
