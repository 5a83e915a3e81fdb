import Mathlib.Data.List.Perm.Basic

/-!
# Delta lists

A delta list holds tagged moments in order of time, each as the distance from the one before
it; the distance from the last one to the end of the period is kept beside the list.
-/

namespace DeltaList

variable {α : Type}

/-- The moments of a list whose first distance is counted from `t`. -/
def edges : Nat → List (α × Nat) → List (α × Nat)
  | _, [] => []
  | t, (x, d) :: rest => (x, t + d) :: edges (t + d) rest

/-- The sum of the distances. -/
def total : List (α × Nat) → Nat
  | [] => 0
  | (_, d) :: rest => d + total rest

/-- A new moment `moment`, in front of the first one that is not earlier; beside the list the
distance to the end. -/
def insert (x : α) (moment : Nat) : Nat → List (α × Nat) → Nat → List (α × Nat) × Nat
  | t, [], final => ([(x, moment - t)], final - (moment - t))
  | t, (y, d) :: rest, final =>
    if t + d < moment then
      ((y, d) :: (insert x moment (t + d) rest final).1, (insert x moment (t + d) rest final).2)
    else ((x, moment - t) :: (y, d - (moment - t)) :: rest, final)

/-- Only the tags to keep: the distance of a dropped moment goes to the one behind it. -/
def sift (keep : α → Bool) : Nat → List (α × Nat) → Nat → List (α × Nat) × Nat
  | leftover, [], final => ([], final + leftover)
  | leftover, (y, d) :: rest, final =>
    if keep y then ((y, d + leftover) :: (sift keep 0 rest final).1, (sift keep 0 rest final).2)
    else sift keep (leftover + d) rest final

@[simp] theorem map_fst_edges (t : Nat) (l : List (α × Nat)) :
    (edges t l).map Prod.fst = l.map Prod.fst := by
  induction l generalizing t with
  | nil => rfl
  | cons e rest ih => simp [edges, ih]

theorem mem_edges_fst {t : Nat} {l : List (α × Nat)} {e : α × Nat} (h : e ∈ edges t l) :
    e.1 ∈ l.map Prod.fst :=
  map_fst_edges t l ▸ List.mem_map_of_mem h

variable {x : α} {moment t leftover final : Nat} {l : List (α × Nat)} {keep : α → Bool}

/-- **Insertion adds one moment** and leaves the others where they were. -/
theorem edges_insert (h : t ≤ moment) :
    (edges t (insert x moment t l final).1).Perm ((x, moment) :: edges t l) := by
  induction l generalizing t with
  | nil => simp [insert, edges, Nat.add_sub_cancel' h]
  | cons e rest ih =>
    obtain ⟨y, d⟩ := e
    by_cases hd : t + d < moment
    · rw [insert, if_pos hd]
      exact ((ih (Nat.le_of_lt hd)).cons (y, t + d)).trans (List.Perm.swap _ _ _)
    · have hrest : moment + (d - (moment - t)) = t + d := by omega
      simp [insert, hd, edges, Nat.add_sub_cancel' h, hrest]

theorem map_fst_insert (h : t ≤ moment) :
    ((insert x moment t l final).1.map Prod.fst).Perm (x :: l.map Prod.fst) := by
  simpa using (edges_insert h).map Prod.fst

theorem total_insert (h : t ≤ moment) (hl : moment ≤ t + total l + final) :
    total (insert x moment t l final).1 + (insert x moment t l final).2 = total l + final := by
  induction l generalizing t with
  | nil =>
    simp only [insert, total] at hl ⊢
    omega
  | cons e rest ih =>
    obtain ⟨y, d⟩ := e
    simp only [total] at hl
    by_cases hd : t + d < moment
    · have := ih (Nat.le_of_lt hd) (by omega)
      simp only [insert, hd, ↓reduceIte, total]
      omega
    · simp only [insert, hd, ↓reduceIte, total]
      omega

theorem final_insert_pos (h : t ≤ moment) (hl : moment < t + total l + final) (hf : 0 < final) :
    0 < (insert x moment t l final).2 := by
  induction l generalizing t with
  | nil =>
    simp only [insert, total] at hl ⊢
    omega
  | cons e rest ih =>
    obtain ⟨y, d⟩ := e
    simp only [total] at hl
    by_cases hd : t + d < moment
    · simpa [insert, hd] using ih (Nat.le_of_lt hd) (by omega)
    · simpa [insert, hd] using hf

/-- **Sifting drops moments** and leaves the others where they were. -/
theorem edges_sift :
    edges t (sift keep leftover l final).1 = (edges (t + leftover) l).filter (keep ·.1) := by
  induction l generalizing t leftover with
  | nil => rfl
  | cons e rest ih =>
    obtain ⟨y, d⟩ := e
    have hsum : t + (d + leftover) = t + leftover + d := by omega
    by_cases hk : keep y = true
    · simp [sift, hk, edges, ih, hsum]
    · simp [sift, hk, edges, ih, Nat.add_assoc]

theorem map_fst_sift :
    (sift keep leftover l final).1.map Prod.fst = (l.map Prod.fst).filter keep := by
  rw [← map_fst_edges 0, edges_sift, ← map_fst_edges (0 + leftover) l, List.filter_map]
  rfl

theorem total_sift :
    total (sift keep leftover l final).1 + (sift keep leftover l final).2 =
      leftover + total l + final := by
  induction l generalizing leftover with
  | nil =>
    simp only [sift, total]
    omega
  | cons e rest ih =>
    obtain ⟨y, d⟩ := e
    by_cases hk : keep y = true
    · have := @ih 0
      simp only [sift, hk, ↓reduceIte, total]
      omega
    · have := @ih (leftover + d)
      simp only [sift, hk, Bool.false_eq_true, ↓reduceIte, total]
      omega

theorem final_le_sift : final ≤ (sift keep leftover l final).2 := by
  induction l generalizing leftover with
  | nil => exact Nat.le_add_right _ _
  | cons e rest ih =>
    obtain ⟨y, d⟩ := e
    by_cases hk : keep y = true
    · simpa [sift, hk] using ih
    · simpa [sift, hk] using ih

theorem sift_congr {keep' : α → Bool} (h : ∀ y ∈ l.map Prod.fst, keep y = keep' y) :
    sift keep leftover l final = sift keep' leftover l final := by
  induction l generalizing leftover with
  | nil => rfl
  | cons e rest ih =>
    obtain ⟨y, d⟩ := e
    obtain ⟨hy, hrest⟩ := List.forall_mem_cons.mp h
    simp only [sift, hy, ih hrest]

end DeltaList
