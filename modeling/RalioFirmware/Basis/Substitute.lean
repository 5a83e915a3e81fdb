import Mathlib.Data.List.Infix

/-!
# Replacing what occurs in a text

A pattern is replaced from left to right, occurrence by occurrence and side by side.  The places
where that happens may be picked first and the text spliced at them afterwards; picked from the end
they can be others, where occurrences overlap.
-/

namespace Substitute

open List

variable {α : Type}

/-- The text from `start` on, with `text` in place of the `m` symbols at each of the places. -/
def splice (m : Nat) (text s : List α) : Nat → List Nat → List α
  | start, [] => s.drop start
  | start, i :: places => (s.drop start).take (i - start) ++ text ++ splice m text s (i + m) places

/-! ## Splicing -/

section

variable {m : Nat} {text s : List α} {a b : Nat} {places : List Nat}

theorem take_drop_split (s : List α) {c : Nat} (hab : a ≤ b) (hbc : b ≤ c) :
    (s.drop a).take (c - a) = (s.drop a).take (b - a) ++ (s.drop b).take (c - b) := by
  have hsplit : c - a = (b - a) + (c - b) := by omega
  have hdrop : (s.drop a).drop (b - a) = s.drop b := by
    rw [drop_drop]
    congr 1
    omega
  rw [hsplit, take_add, hdrop]

theorem splice_split (hab : a ≤ b) (hplaces : ∀ i ∈ places, b ≤ i) :
    splice m text s a places = (s.drop a).take (b - a) ++ splice m text s b places := by
  cases places with
  | nil =>
    have hdrop : s.drop b = (s.drop a).drop (b - a) := by
      rw [drop_drop]
      congr 1
      omega
    rw [splice, splice, hdrop, take_append_drop]
  | cons i places =>
    have hi := hplaces i mem_cons_self
    rw [splice, splice, take_drop_split s hab hi]
    simp only [append_assoc]

end

variable [DecidableEq α]

/-- Each occurrence from left to right is replaced; `skip` more symbols belong to the last one. -/
def replaceFrom (find text : List α) : Nat → List α → List α
  | _, [] => []
  | skip + 1, _ :: s => replaceFrom find text skip s
  | 0, a :: s =>
    if find <+: a :: s then text ++ replaceFrom find text (find.length - 1) s
    else a :: replaceFrom find text 0 s

/-- The text with each occurrence of `find` replaced. -/
def replaceAll (find text s : List α) : List α := replaceFrom find text 0 s

/-- The places that are replaced, from `i` on. -/
def placesFrom (find : List α) : Nat → Nat → List α → List Nat
  | _, _, [] => []
  | i, skip + 1, _ :: s => placesFrom find (i + 1) skip s
  | i, 0, a :: s =>
    if find <+: a :: s then i :: placesFrom find (i + 1) (find.length - 1) s
    else placesFrom find (i + 1) 0 s

/-- The occurrences side by side, picked from the start. -/
def fromStart (find s : List α) : List Nat := placesFrom find 0 0 s

/-- Those below a place that end before `stop`, picked from the end. -/
def placesBelow (find s : List α) : Nat → Nat → List Nat
  | 0, _ => []
  | i + 1, stop =>
    if i + find.length ≤ stop ∧ find <+: s.drop i then placesBelow find s i i ++ [i]
    else placesBelow find s i stop

/-- The occurrences side by side, picked from the end. -/
def fromEnd (find s : List α) : List Nat := placesBelow find s s.length s.length

/-! ## From the start -/

section

variable {find text s : List α}

theorem replaceFrom_skip (skip : Nat) (s : List α) :
    replaceFrom find text skip s = replaceAll find text (s.drop skip) := by
  induction s generalizing skip with
  | nil =>
    rw [drop_nil]
    cases skip <;> rfl
  | cons a s ih =>
    cases skip with
    | zero => rfl
    | succ skip => exact ih skip

theorem replaceAll_cons {a : α} (hno : ¬ find <+: a :: s) :
    replaceAll find text (a :: s) = a :: replaceAll find text s := by
  rw [replaceAll, replaceFrom, if_neg hno]
  rfl

theorem replaceAll_here (hne : find ≠ []) (hhere : find <+: s) :
    replaceAll find text s = text ++ replaceAll find text (s.drop find.length) := by
  cases s with
  | nil => exact absurd (prefix_nil.mp hhere) hne
  | cons a s =>
    have hpos := length_pos_of_ne_nil hne
    obtain ⟨k, hk⟩ : ∃ k, find.length = k + 1 := ⟨find.length - 1, by omega⟩
    rw [replaceAll, replaceFrom, if_pos hhere, replaceFrom_skip, hk, Nat.add_sub_cancel,
      drop_succ_cons]

/-- **Up to the first occurrence** the text stays. -/
theorem replaceAll_first (hne : find ≠ []) {n : Nat} (hhere : find <+: s.drop n)
    (hfirst : ∀ j < n, ¬ find <+: s.drop j) :
    replaceAll find text s =
      s.take n ++ text ++ replaceAll find text (s.drop (n + find.length)) := by
  induction n generalizing s with
  | zero =>
    rw [drop_zero] at hhere
    rw [replaceAll_here hne hhere, take_zero, nil_append, Nat.zero_add]
  | succ n ih =>
    cases s with
    | nil => exact absurd (prefix_nil.mp hhere) hne
    | cons a s =>
      have hnext : n + 1 + find.length = n + find.length + 1 := by omega
      rw [replaceAll_cons (hfirst 0 (Nat.succ_pos n)),
        ih hhere fun j hj => hfirst (j + 1) (Nat.succ_lt_succ hj), hnext,
        drop_succ_cons, take_succ_cons]
      rfl

theorem replaceAll_none (hnone : ∀ j, ¬ find <+: s.drop j) : replaceAll find text s = s := by
  induction s with
  | nil => rfl
  | cons a s ih =>
    rw [replaceAll_cons (hnone 0), ih fun j => hnone (j + 1)]

theorem replaceAll_self (hne : find ≠ []) : replaceAll find text find = text := by
  rw [replaceAll_here hne (prefix_refl find), drop_length]
  exact append_nil text

theorem replaceFrom_length_le (hlen : text.length ≤ find.length) (skip : Nat) (s : List α) :
    (replaceFrom find text skip s).length ≤ s.length - skip := by
  induction s generalizing skip with
  | nil => cases skip <;> exact Nat.zero_le _
  | cons a s ih =>
    cases skip with
    | succ skip =>
      have hrest := ih skip
      rw [length_cons, Nat.add_sub_add_right]
      exact hrest
    | zero =>
      rw [replaceFrom]
      split
      · rename_i hhere
        have hrest := ih (find.length - 1)
        have hle := hhere.length_le
        rw [length_append]
        rw [length_cons] at hle ⊢
        omega
      · have hrest := ih 0
        rw [length_cons, length_cons]
        omega

theorem le_placesFrom {i skip : Nat} {s : List α} :
    ∀ j ∈ placesFrom find i skip s, i + skip ≤ j := by
  induction s generalizing i skip with
  | nil =>
    intro j hj
    cases skip <;> cases hj
  | cons a s ih =>
    intro j hj
    cases skip with
    | succ skip =>
      have hle := ih j hj
      omega
    | zero =>
      rw [placesFrom] at hj
      split at hj
      · rcases mem_cons.mp hj with rfl | hj
        · exact Nat.le_refl j
        · have hle := ih j hj
          omega
      · have hle := ih j hj
        omega

/-- **Spliced at the places from the start**, the text is replaced. -/
theorem splice_placesFrom (hne : find ≠ []) {i skip : Nat} {rest : List α}
    (hrest : s.drop i = rest) :
    splice find.length text s (i + skip) (placesFrom find i skip rest) =
      replaceFrom find text skip rest := by
  have hpos := length_pos_of_ne_nil hne
  induction rest generalizing i skip with
  | nil =>
    have hend := drop_eq_nil_iff.mp hrest
    have hnil : s.drop (i + skip) = [] := drop_eq_nil_iff.mpr (by omega)
    cases skip with
    | zero => exact hnil
    | succ skip => exact hnil
  | cons a rest ih =>
    have hnext : s.drop (i + 1) = rest := by
      rw [← drop_drop, hrest]
      rfl
    cases skip with
    | succ skip =>
      have hplace : i + (skip + 1) = i + 1 + skip := by omega
      rw [hplace]
      exact ih hnext
    | zero =>
      rw [placesFrom, replaceFrom, Nat.add_zero]
      split
      · have hplace : i + find.length = i + 1 + (find.length - 1) := by omega
        rw [splice, hplace, ih hnext, Nat.sub_self, take_zero, nil_append]
      · rw [splice_split (Nat.le_succ i) le_placesFrom, hrest]
        have hstep := @ih (i + 1) 0 hnext
        rw [Nat.add_zero] at hstep
        rw [Nat.succ_eq_add_one, hstep, Nat.add_sub_cancel_left]
        rfl

theorem splice_fromStart (hne : find ≠ []) (s : List α) :
    splice find.length text s 0 (fromStart find s) = replaceAll find text s :=
  @splice_placesFrom α _ find text s hne 0 0 s rfl

/-! ## From the end -/

theorem placesBelow_none {i stop : Nat}
    (hnone : ∀ j < i, j + find.length ≤ stop → ¬ find <+: s.drop j) :
    placesBelow find s i stop = [] := by
  induction i with
  | zero => rfl
  | succ i ih =>
    rw [placesBelow, if_neg fun h => hnone i (Nat.lt_succ_self i) h.1 h.2]
    exact ih fun j hj => hnone j (Nat.lt_succ_of_lt hj)

/-- **The last occurrence** is picked first. -/
theorem placesBelow_last {i stop index : Nat} (hindex : index < i)
    (hend : index + find.length ≤ stop) (hhere : find <+: s.drop index)
    (hlast : ∀ j, index < j → j < i → j + find.length ≤ stop → ¬ find <+: s.drop j) :
    placesBelow find s i stop = placesBelow find s index index ++ [index] := by
  induction i with
  | zero => cases hindex
  | succ i ih =>
    rw [placesBelow]
    by_cases heq : index = i
    · rw [← heq, if_pos ⟨hend, hhere⟩]
    · rw [if_neg fun h => hlast i (by omega) (Nat.lt_succ_self i) h.1 h.2]
      exact ih (by omega) fun j hj hji => hlast j hj (Nat.lt_succ_of_lt hji)

end

end Substitute
