import Mathlib.Logic.Equiv.Basic
import Mathlib.Data.List.Nodup
import Mathlib.Order.Lattice

/-!
# Exchange sort in place

Cells are sorted by the key of what they hold, the greatest first: each cell is compared with all
behind it, and the two are exchanged where the one behind is greater.  The writes to the cells are
noted.
-/

namespace ExchangeSort

open List

variable {α κ : Type}

/-- Cells, and which of them were written. -/
structure Cells (α : Type) where
  mem : Nat → α
  writes : List Nat

def Cells.set (i : Nat) (v : α) (c : Cells α) : Cells α :=
  ⟨fun k => if k = i then v else c.mem k, c.writes ++ [i]⟩

/-- Nothing but an order of the first `n` cells is changed, and no other cell is written. -/
structure Rearranged (n : Nat) (c c' : Cells α) : Prop where
  perm : ((List.range n).map c'.mem).Perm ((List.range n).map c.mem)
  writes : ∃ new, c'.writes = c.writes ++ new ∧ ∀ w ∈ new, w < n

theorem Rearranged.refl (n : Nat) (c : Cells α) : Rearranged n c c :=
  ⟨List.Perm.refl _, [], (append_nil _).symm, fun _ hw => by cases hw⟩

theorem Rearranged.trans {n : Nat} {c c' c'' : Cells α} (h : Rearranged n c c')
    (h' : Rearranged n c' c'') : Rearranged n c c'' := by
  obtain ⟨new, heq, hnew⟩ := h.writes
  obtain ⟨new', heq', hnew'⟩ := h'.writes
  refine ⟨h'.perm.trans h.perm, new ++ new', by rw [heq', heq, append_assoc], ?_⟩
  intro w hw
  rcases mem_append.mp hw with hw | hw
  · exact hnew w hw
  · exact hnew' w hw

theorem Rearranged.mem_iff {n : Nat} {c c' : Cells α} (h : Rearranged n c c') (v : α) :
    (∃ p < n, c'.mem p = v) ↔ ∃ p < n, c.mem p = v := by
  have hmem := h.perm.mem_iff (a := v)
  simpa only [mem_map, mem_range] using hmem

variable [LinearOrder κ] (key : α → κ)

def exchange (i j : Nat) (c : Cells α) : Cells α :=
  if key (c.mem i) < key (c.mem j) then (c.set i (c.mem j)).set j (c.mem i) else c

/-- The cell `i` against `m` cells from `j` on. -/
def pass (i : Nat) : Nat → Nat → Cells α → Cells α
  | 0, _, c => c
  | m + 1, j, c => pass i m (j + 1) (exchange key i j c)

/-- The cells from `i` on, `m` of them, each against all of the `n` that are behind it. -/
def passes (n : Nat) : Nat → Nat → Cells α → Cells α
  | 0, _, c => c
  | m + 1, i, c => passes n m (i + 1) (pass key i (n - (i + 1)) (i + 1) c)

def sort (n : Nat) (c : Cells α) : Cells α := passes key n n 0 c

variable {key} {n i j : Nat} {c : Cells α}

theorem swapped_eq (i j : Nat) (c : Cells α) (k : Nat) :
    ((c.set i (c.mem j)).set j (c.mem i)).mem k = c.mem (Equiv.swap i j k) := by
  simp only [Cells.set]
  by_cases hj : k = j
  · rw [if_pos hj, hj, Equiv.swap_apply_right]
  · grind

theorem swap_lt (hi : i < n) (hj : j < n) {k : Nat} (hk : k < n) : Equiv.swap i j k < n := by
  rw [Equiv.swap_apply_def]
  split
  · exact hj
  · split
    · exact hi
    · exact hk

theorem perm_swap (hi : i < n) (hj : j < n) :
    ((List.range n).map (Equiv.swap i j)).Perm (List.range n) := by
  refine (perm_ext_iff_of_nodup
    (nodup_range.map (Equiv.swap i j).injective) nodup_range).mpr fun k => ?_
  rw [mem_map, mem_range]
  constructor
  · rintro ⟨l, hl, rfl⟩
    exact swap_lt hi hj (mem_range.mp hl)
  · intro hk
    exact ⟨Equiv.swap i j k, mem_range.mpr (swap_lt hi hj hk), Equiv.swap_apply_self i j k⟩

theorem rearranged_exchange (hi : i < n) (hj : j < n) :
    Rearranged n c (exchange key i j c) := by
  unfold exchange
  split
  · refine ⟨?_, [i, j], append_assoc _ _ _, fun w hw => ?_⟩
    · have hmap : (range n).map ((c.set i (c.mem j)).set j (c.mem i)).mem =
          ((range n).map (Equiv.swap i j)).map c.mem := by
        rw [map_map]
        exact map_congr_left fun k _ => swapped_eq i j c k
      rw [hmap]
      exact (perm_swap hi hj).map c.mem
    · rcases mem_cons.mp hw with rfl | hw
      · exact hi
      · grind
  · exact Rearranged.refl n c

/-- The cells in front of `i` are each as great as all behind them. -/
def Leads (key : α → κ) (n i : Nat) (c : Cells α) : Prop :=
  ∀ p q, p < i → p < q → q < n → key (c.mem q) ≤ key (c.mem p)

/-- The cell `i` is as great as those behind it up to `j`. -/
def Tops (key : α → κ) (i j : Nat) (c : Cells α) : Prop :=
  ∀ q, i < q → q < j → key (c.mem q) ≤ key (c.mem i)

theorem Leads.exchange (hleads : Leads key n i c) (hij : i < j) (hj : j < n) :
    Leads key n i (exchange key i j c) := by
  unfold ExchangeSort.exchange
  split
  · intro p q hp hpq hq
    have hswap : p < Equiv.swap i j q := by grind
    rw [swapped_eq, swapped_eq,
      Equiv.swap_apply_of_ne_of_ne (by omega : p ≠ i) (by omega)]
    exact hleads p _ hp hswap (swap_lt (by omega) hj hq)
  · exact hleads

theorem Tops.exchange (htops : Tops key i j c) :
    Tops key i (j + 1) (exchange key i j c) := by
  unfold ExchangeSort.exchange
  intro q hiq hq
  split
  · next hlt =>
      rw [swapped_eq, swapped_eq, Equiv.swap_apply_left]
      by_cases hqj : q = j
      · grind
      · rw [Equiv.swap_apply_of_ne_of_ne (by omega) hqj]
        exact le_trans (htops q hiq (by omega)) (le_of_lt hlt)
  · next hge =>
      by_cases hqj : q = j
      · rw [hqj]
        exact le_of_not_gt hge
      · exact htops q hiq (by omega)

theorem pass_spec {m : Nat} (hij : i < j) (hm : j + m = n) (hleads : Leads key n i c)
    (htops : Tops key i j c) :
    Rearranged n c (pass key i m j c) ∧ Leads key n (i + 1) (pass key i m j c) := by
  induction m generalizing j c with
  | zero =>
    refine ⟨Rearranged.refl n c, fun p q hp hpq hq => ?_⟩
    by_cases hpi : p = i
    · rw [hpi]
      exact htops q (by omega) (by omega)
    · exact hleads p q (by omega) hpq hq
  | succ m ih =>
    obtain ⟨hrearranged, hlead⟩ := ih (j := j + 1) (c := exchange key i j c) (by omega) (by omega)
      (hleads.exchange hij (by omega)) htops.exchange
    exact ⟨(rearranged_exchange (by omega) (by omega)).trans hrearranged, hlead⟩

theorem passes_spec {m : Nat} (hm : i + m = n) (hleads : Leads key n i c) :
    Rearranged n c (passes key n m i c) ∧ Leads key n n (passes key n m i c) := by
  induction m generalizing i c with
  | zero =>
    have hin : i = n := by omega
    exact ⟨Rearranged.refl n c, hin ▸ hleads⟩
  | succ m ih =>
    have htops : Tops key i (i + 1) c := fun q hiq hq => by omega
    obtain ⟨hpass, hlead⟩ := pass_spec (m := n - (i + 1)) (Nat.lt_succ_self i) (by omega)
      hleads htops
    obtain ⟨hpasses, hall⟩ := ih (by omega) hlead
    exact ⟨hpass.trans hpasses, hall⟩

/-- **The sort** rearranges the first `n` cells, and each is as great as all behind it. -/
theorem sort_spec (key : α → κ) (n : Nat) (c : Cells α) :
    Rearranged n c (sort key n c) ∧
      ∀ p q, p < q → q < n → key ((sort key n c).mem q) ≤ key ((sort key n c).mem p) := by
  have hstart : Leads key n 0 c := fun p _ hp => absurd hp (Nat.not_lt_zero p)
  obtain ⟨hrearranged, hleads⟩ := passes_spec (Nat.zero_add n) hstart
  exact ⟨hrearranged, fun p q hpq hq => hleads p q (by omega) hpq hq⟩

end ExchangeSort
