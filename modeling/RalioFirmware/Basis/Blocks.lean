import Mathlib.Data.List.Basic
import Mathlib.Data.List.Nodup

/-!
# Blocks of a heap

A heap hands out blocks under numbers that it has not used before.  Nothing
comes of a block that is used or freed when it is not live.
-/

namespace Blocks

/-- A heap: the live blocks, and the next number. -/
structure Heap where
  next : Nat
  live : List Nat
  lt_next : ∀ a ∈ live, a < next
  nodup : live.Nodup

namespace Heap

/-- A heap without blocks. -/
def empty : Heap := ⟨0, [], fun _ hfalse => absurd hfalse List.not_mem_nil, List.nodup_nil⟩

/-- `malloc`, which is granted or not. -/
def malloc (granted : Bool) (h : Heap) : Option Nat × Heap :=
  if granted then
    (some h.next, {
      next := h.next + 1
      live := h.next :: h.live
      lt_next := List.forall_mem_cons.2
        ⟨Nat.lt_succ_self _, fun a ha => Nat.lt_succ_of_lt (h.lt_next a ha)⟩
      nodup := List.nodup_cons.2 ⟨fun hmem => Nat.lt_irrefl _ (h.lt_next _ hmem), h.nodup⟩ })
  else (none, h)

/-- `free`, of a pointer that may be null. -/
def free (p : Option Nat) (h : Heap) : Option Heap :=
  match p with
  | none => some h
  | some a =>
    if a ∈ h.live then
      some {
        next := h.next
        live := h.live.erase a
        lt_next := fun b hb => h.lt_next b (List.mem_of_mem_erase hb)
        nodup := h.nodup.erase a }
    else none

/-- A null pointer, or one to a live block. -/
def Valid (p : Option Nat) (h : Heap) : Prop := ∀ a, p = some a → a ∈ h.live

variable {h h' : Heap} {p q : Option Nat}

theorem valid_none : h.Valid none := fun _ hfalse => Option.noConfusion rfl (heq_of_eq hfalse)

/-- **A pointer is freed** exactly if it is valid. -/
theorem free_isSome : (h.free p).isSome = true ↔ h.Valid p := by
  rcases p with _ | a
  · exact iff_of_true rfl valid_none
  · rw [free]
    split
    · rename_i ha
      refine iff_of_true rfl fun b hb => ?_
      cases hb
      exact ha
    · rename_i ha
      exact iff_of_false Bool.noConfusion fun hvalid => ha (hvalid a rfl)

theorem valid_free (hfree : h.free p = some h') (hq : h.Valid q) (hne : q = none ∨ q ≠ p) :
    h'.Valid q := by
  rcases p with _ | a
  · cases hfree
    exact hq
  · rw [free] at hfree
    split at hfree
    · cases hfree
      rintro b rfl
      refine (List.mem_erase_of_ne fun heq => ?_).2 (hq b rfl)
      exact hne.elim (fun hfalse => Option.noConfusion rfl (heq_of_eq hfalse))
        fun hdiff => hdiff (congrArg some heq)
    · cases hfree

theorem not_valid_free {a : Nat} (hfree : h.free (some a) = some h') : ¬ h'.Valid (some a) := by
  rw [free] at hfree
  split at hfree
  · cases hfree
    exact fun hvalid => h.nodup.not_mem_erase (hvalid a rfl)
  · cases hfree

theorem malloc_fst (granted : Bool) (h : Heap) :
    (h.malloc granted).1 = if granted = true then some h.next else none := by
  rw [malloc]
  split <;> rfl

theorem valid_malloc (granted : Bool) (h : Heap) :
    (h.malloc granted).2.Valid (h.malloc granted).1 := by
  rw [malloc]
  split
  · rintro a ⟨⟩
    exact List.mem_cons_self
  · exact valid_none

theorem valid_malloc_of_valid (granted : Bool) (hp : h.Valid p) :
    (h.malloc granted).2.Valid p ∧ (p = none ∨ p ≠ (h.malloc granted).1) := by
  rw [malloc]
  split
  · refine ⟨fun a ha => List.mem_cons_of_mem _ (hp a ha), ?_⟩
    rcases p with _ | a
    · exact .inl rfl
    · refine .inr fun heq => ?_
      exact Nat.lt_irrefl _ (Option.some.inj heq ▸ h.lt_next a (hp a rfl))
  · grind

end Heap

end Blocks
