import Mathlib.Data.List.Basic

/-!
# Matching a delimiter

A matcher holds its input back as long as it agrees with a delimiter, and
gives out what it has held back where the two part.  It then goes back to the
start of the delimiter, or behind its first item, and nowhere else: that is
enough for a delimiter whose first item does not come again in it.
-/

namespace Delimiter

open List

variable {α : Type} [DecidableEq α]

/-- An item, with `held` items held back: what is given out, and how many
items are held back then. -/
def step (d : List α) (held : Nat) (x : α) : List α × Nat :=
  if d[held]? = some x then ([], held + 1)
  else if d.head? = some x then (d.take held, 1)
  else (d.take held ++ [x], 0)

/-- Items up to the end of the delimiter: what is given out, and the items
behind it. -/
def scan (d : List α) : Nat → List α → Option (List α × List α)
  | _, [] => none
  | held, x :: rest =>
    if (step d held x).2 = d.length then some ((step d held x).1, rest)
    else (scan d (step d held x).2 rest).map fun r => ((step d held x).1 ++ r.1, r.2)

variable {d : List α}

theorem step_keeps (hd : d ≠ []) {held : Nat} (hheld : held < d.length) (x : α) :
    (step d held x).2 ≤ d.length ∧
      d.take held ++ [x] = (step d held x).1 ++ d.take (step d held x).2 := by
  rw [step]
  by_cases hx : d[held]? = some x
  · rw [if_pos hx]
    exact ⟨hheld, by rw [take_add_one, hx]; rfl⟩
  · rw [if_neg hx]
    by_cases hhead : d.head? = some x
    · obtain ⟨t, rfl⟩ := head?_eq_some_iff.mp hhead
      rw [if_pos hhead]
      exact ⟨Nat.succ_pos _, rfl⟩
    · grind

/-- **What is given out stands in front of the delimiter.** -/
theorem scan_input (hd : d ≠ []) {held : Nat} (hheld : held < d.length) {input out rest : List α}
    (h : scan d held input = some (out, rest)) : d.take held ++ input = out ++ d ++ rest := by
  induction input generalizing held out with
  | nil => cases h
  | cons x input ih =>
    obtain ⟨hle, hkeep⟩ := step_keeps hd hheld x
    have hsplit : d.take held ++ x :: input =
        (step d held x).1 ++ (d.take (step d held x).2 ++ input) := by grind
    rw [scan] at h
    split at h
    · next hlast =>
        obtain ⟨rfl, rfl⟩ := Prod.mk.inj (Option.some.inj h)
        rw [hsplit, hlast, take_length, append_assoc]
    · next hlast =>
        obtain ⟨⟨out', rest'⟩, hscan, hr⟩ := Option.map_eq_some_iff.mp h
        obtain ⟨rfl, rfl⟩ := Prod.mk.inj hr
        rw [hsplit, ih (by omega) hscan]
        simp only [append_assoc]

theorem scan_rest {held : Nat} (hheld : held < d.length) (rest : List α) :
    scan d held (d.drop held ++ rest) = some ([], rest) := by
  obtain ⟨n, hn⟩ : ∃ n, d.length = held + n + 1 := ⟨d.length - held - 1, by omega⟩
  induction n generalizing held with
  | zero =>
    have hstep : step d held d[held] = ([], held + 1) := if_pos (getElem?_eq_getElem hheld)
    rw [drop_eq_getElem_cons hheld, drop_eq_nil_of_le (by omega), cons_append,
      scan, hstep, if_pos hn.symm]
    rfl
  | succ n ih =>
    have hstep : step d held d[held] = ([], held + 1) := if_pos (getElem?_eq_getElem hheld)
    rw [drop_eq_getElem_cons hheld, cons_append, scan, hstep,
      if_neg (show held + 1 ≠ d.length by omega),
      ih (show held + 1 < d.length by omega) (by omega)]
    rfl

/-- **The first delimiter is found.**  Its first item does not come again in
it, and it does not stand in what comes before. -/
theorem scan_first {a : α} {t : List α} (ha : a ∉ t) {held : Nat} (hheld : held < t.length + 1)
    {content : List α} (hnone : ¬ (a :: t) <:+: (a :: t).take held ++ content) (rest : List α) :
    scan (a :: t) held (content ++ (a :: t) ++ rest) =
      some ((a :: t).take held ++ content, rest) := by
  induction content generalizing held with
  | nil =>
    rw [nil_append, append_nil]
    cases held with
    | zero => exact scan_rest (Nat.succ_pos _) rest
    | succ held =>
      have hother : (a :: t)[held + 1]? ≠ some a := fun h =>
        ha (mem_of_getElem? (show t[held]? = some a from h))
      have hstep : step (a :: t) (held + 1) a = ((a :: t).take (held + 1), 1) := by
        rw [step, if_neg hother, if_pos head?_cons]
      have hnext : scan (a :: t) 1 (t ++ rest) = some ([], rest) :=
        @scan_rest _ _ (a :: t) 1 (by rw [length_cons]; omega) rest
      rw [cons_append, scan, hstep, if_neg (by rw [length_cons]; omega), hnext]
      simp
  | cons x content ih =>
    obtain ⟨hle, hkeep⟩ := step_keeps (cons_ne_nil a t) hheld x
    have hsplit : (a :: t).take held ++ x :: content =
        (step (a :: t) held x).1 ++ ((a :: t).take (step (a :: t) held x).2 ++ content) := by
      grind
    rw [hsplit] at hnone ⊢
    have hnext : ¬ (a :: t) <:+:
        (a :: t).take (step (a :: t) held x).2 ++ content := fun h =>
      hnone (h.trans (suffix_append _ _).isInfix)
    have hgoes : (step (a :: t) held x).2 ≠ (a :: t).length := by grind
    rw [cons_append, cons_append, scan, if_neg hgoes,
      ih (Nat.lt_of_le_of_ne hle hgoes) hnext]
    rfl

end Delimiter
