import Mathlib.Data.List.Basic
import Mathlib.Logic.Function.Basic

/-!
# Lists linked in place

The nodes of a list know the next one by a pointer; a pointer that is null is
`none`.  What matters of a list is the run of nodes that its links lead through, and
what each operation on the links makes of that run.
-/

namespace Links

variable {Node : Type} {next next' : Node → Option Node} {p q : Option Node}

/-- From `p` the links lead through the nodes of a list and on to `q`. -/
def Path (next : Node → Option Node) : Option Node → List Node → Option Node → Prop
  | p, [], q => p = q
  | p, a :: rest, q => p = some a ∧ Path next (next a) rest q

/-- The nodes that are met on `n` links. -/
def walk (next : Node → Option Node) : Nat → Option Node → List Node
  | 0, _ => []
  | _, none => []
  | n + 1, some a => a :: walk next n (next a)

@[simp] theorem path_nil : Path next p [] q ↔ p = q := Iff.rfl

@[simp] theorem path_cons {a : Node} {rest : List Node} :
    Path next p (a :: rest) q ↔ p = some a ∧ Path next (next a) rest q := Iff.rfl

variable {xs : List Node}

variable {ys : List Node}

theorem path_append :
    Path next p (xs ++ ys) q ↔ ∃ r, Path next p xs r ∧ Path next r ys q := by
  induction xs generalizing p with
  | nil => simp
  | cons a xs ih => simp [ih, and_assoc]

theorem Path.walk_eq (h : Path next p xs q) : walk next xs.length p = xs := by
  induction xs generalizing p with
  | nil => rfl
  | cons a xs ih =>
    obtain ⟨rfl, hrest⟩ := h
    rw [List.length_cons, walk, ih hrest]

theorem Path.walk_add (h : Path next p xs q) (n : Nat) :
    walk next (xs.length + n) p = xs ++ walk next n q := by
  induction xs generalizing p with
  | nil =>
    obtain rfl : p = q := h
    rw [List.length_nil, Nat.zero_add, List.nil_append]
  | cons a xs ih =>
    obtain ⟨rfl, hrest⟩ := h
    rw [List.length_cons, Nat.add_right_comm, walk, ih hrest, List.cons_append]

@[simp] theorem walk_none (next : Node → Option Node) (n : Nat) : walk next n none = [] := by
  cases n <;> rfl

theorem Path.unique (hx : Path next p xs none) (hy : Path next p ys none) :
    xs = ys := by
  induction xs generalizing p ys with
  | nil =>
    obtain rfl : p = none := hx
    cases ys with
    | nil => rfl
    | cons b ys => exact absurd hy.1 (by simp)
  | cons a xs ih =>
    obtain ⟨rfl, hrest⟩ := hx
    cases ys with
    | nil => exact absurd hy (by simp)
    | cons b ys =>
      obtain ⟨hb, hy⟩ := hy
      obtain rfl := Option.some.inj hb
      rw [ih hrest hy]

theorem Path.congr (h : Path next p xs q) (hsame : ∀ a ∈ xs, next' a = next a) :
    Path next' p xs q := by
  induction xs generalizing p with
  | nil => exact h
  | cons a xs ih =>
    refine ⟨h.1, ?_⟩
    rw [hsame a List.mem_cons_self]
    exact ih h.2 fun b hb => hsame b (List.mem_cons_of_mem a hb)

theorem Path.head (h : Path next p xs none) : p = xs.head? := by
  cases xs with
  | nil => exact h
  | cons a xs => exact h.1

variable [DecidableEq Node]

variable {a : Node} {r : Option Node}

theorem Path.update (h : Path next p xs q)
    (ha : a ∉ xs) : Path (Function.update next a r) p xs q :=
  h.congr fun _ hb => Function.update_of_ne (ne_of_mem_of_not_mem hb ha) _ _

theorem Path.push (h : Path next p xs q) (ha : a ∉ xs) :
    Path (Function.update next a p) (some a) (a :: xs) q :=
  ⟨rfl, by rw [Function.update_self]; exact h.update ha⟩

variable {l : Node}

theorem Path.relink
    (h : Path next p (xs ++ [l]) q) (hl : l ∉ xs) :
    Path (Function.update next l r) p (xs ++ [l]) r := by
  obtain ⟨m, hxs, hm, -⟩ := path_append.mp h
  exact path_append.mpr ⟨m, hxs.update hl, hm, by rw [Function.update_self]; rfl⟩

theorem Path.unlink (h : Path next p (xs ++ l :: a :: ys) q)
    (hl : l ∉ xs ++ ys) : Path (Function.update next l (next a)) p (xs ++ l :: ys) q := by
  obtain ⟨m, hxs, hm, ha, hys⟩ := path_append.mp h
  rw [List.mem_append, not_or] at hl
  refine path_append.mpr ⟨m, hxs.update hl.1, hm, ?_⟩
  rw [Function.update_self]
  exact hys.update hl.2

theorem Path.append_node (h : Path next p (xs ++ [l]) q)
    (hl : l ∉ xs) (ha : a ∉ xs) (hne : a ≠ l) :
    Path (Function.update (Function.update next a r) l (some a)) p (xs ++ [l] ++ [a]) r := by
  refine path_append.mpr ⟨some a, ?_, rfl, ?_⟩
  · exact Path.relink (h.update (a := a) (by simp [ha, hne])) hl
  · rw [Function.update_of_ne hne, Function.update_self]
    rfl

end Links
