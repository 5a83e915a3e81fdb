import Mathlib.Order.Basic
import Mathlib.Data.List.Nodup

/-!
# Items that are taken in groups

Items are taken one after another, each with a key.  The group that is open has a key, too; an item
with another key closes it and opens the next.  In order of their keys no group is opened twice.
-/

namespace Groups

open List

variable {α β κ : Type} [DecidableEq κ]

/-- The groups of a list of items, where one with the key `k` is open and holds `held`. -/
def groups (key : α → κ) (k : κ) (held : List α) : List α → List (κ × List α)
  | [] => [(k, held)]
  | a :: rest =>
    if key a = k then groups key k (held ++ [a]) rest
    else (k, held) :: groups key (key a) [a] rest

/-- What is done while items are taken: each is handled, and a group that is closed is finished. -/
def handle (item : α → List β) (finish : κ → List β) (key : α → κ) : κ → List α → List β
  | k, [] => finish k
  | k, a :: rest =>
    if key a = k then item a ++ handle item finish key k rest
    else finish k ++ (item a ++ handle item finish key (key a) rest)

variable {key : α → κ} {k : κ} {held items : List α}

theorem flatMap_groups (item : α → List β) (finish : κ → List β) :
    (groups key k held items).flatMap (fun g => g.2.flatMap item ++ finish g.1) =
      held.flatMap item ++ handle item finish key k items := by
  induction items generalizing k held with
  | nil => rw [groups, handle, flatMap_singleton]
  | cons a rest ih =>
    by_cases ha : key a = k
    · rw [groups, if_pos ha, handle, if_pos ha, ih, flatMap_append, flatMap_singleton,
        append_assoc]
    · rw [groups, if_neg ha, handle, if_neg ha, flatMap_cons, ih, flatMap_singleton,
        append_assoc]

theorem flatMap_snd_groups : (groups key k held items).flatMap Prod.snd = held ++ items := by
  induction items generalizing k held with
  | nil => rw [groups, flatMap_singleton, append_nil]
  | cons a rest ih =>
    by_cases ha : key a = k
    · rw [groups, if_pos ha, ih, append_assoc, singleton_append]
    · rw [groups, if_neg ha, flatMap_cons, ih, singleton_append]

theorem key_of_mem_groups (hheld : ∀ a ∈ held, key a = k) {g : κ × List α}
    (hg : g ∈ groups key k held items) {a : α} (ha : a ∈ g.2) : key a = g.1 := by
  induction items generalizing k held with
  | nil =>
    rw [groups, mem_singleton] at hg
    subst hg
    exact hheld a ha
  | cons b rest ih =>
    by_cases hb : key b = k
    · rw [groups, if_pos hb] at hg
      refine ih ?_ hg
      intro c hc
      rcases mem_append.mp hc with hc | hc
      · exact hheld c hc
      · rw [mem_singleton.mp hc, hb]
    · rw [groups, if_neg hb] at hg
      rcases mem_cons.mp hg with rfl | hg
      · exact hheld a ha
      · refine ih ?_ hg
        intro c hc
        rw [mem_singleton.mp hc]

theorem mem_keys {k' : κ} (hk : k' ∈ (groups key k held items).map Prod.fst) :
    k' = k ∨ ∃ a ∈ items, key a = k' := by
  induction items generalizing k held with
  | nil =>
    rw [groups, map_singleton, mem_singleton] at hk
    exact Or.inl hk
  | cons a rest ih =>
    by_cases ha : key a = k
    · rw [groups, if_pos ha] at hk
      rcases ih hk with hk | ⟨b, hb, hbk⟩
      · exact Or.inl hk
      · exact Or.inr ⟨b, mem_cons_of_mem a hb, hbk⟩
    · rw [groups, if_neg ha, map_cons, mem_cons] at hk
      rcases hk with hk | hk
      · exact Or.inl hk
      · rcases ih hk with hk | ⟨b, hb, hbk⟩
        · exact Or.inr ⟨a, mem_cons_self, hk.symm⟩
        · exact Or.inr ⟨b, mem_cons_of_mem a hb, hbk⟩

/-- **Items in the order of their keys** have every group opened once. -/
theorem pairwise_keys [PartialOrder κ] (hk : ∀ a ∈ items, k ≤ key a)
    (hsorted : items.Pairwise fun a b => key a ≤ key b) :
    ((groups key k held items).map Prod.fst).Pairwise (· < ·) := by
  induction items generalizing k held with
  | nil =>
    rw [groups, map_singleton]
    exact pairwise_singleton _ _
  | cons a rest ih =>
    obtain ⟨hfirst, hsorted⟩ := pairwise_cons.mp hsorted
    by_cases ha : key a = k
    · rw [groups, if_pos ha]
      exact ih (fun b hb => hk b (mem_cons_of_mem a hb)) hsorted
    · rw [groups, if_neg ha, map_cons, pairwise_cons]
      refine ⟨fun k' hk' => ?_, ih hfirst hsorted⟩
      have hlt : k < key a := lt_of_le_of_ne (hk a mem_cons_self) (Ne.symm ha)
      rcases mem_keys hk' with rfl | ⟨b, hb, rfl⟩
      · exact hlt
      · exact lt_of_lt_of_le hlt (hfirst b hb)

theorem keys_of_injective (hne : ∀ a ∈ items, key a ≠ k)
    (hown : items.Pairwise fun a b => key a ≠ key b) :
    (groups key k held items).map Prod.fst = k :: items.map key := by
  induction items generalizing k held with
  | nil => rfl
  | cons a rest ih =>
    obtain ⟨hfirst, hown⟩ := pairwise_cons.mp hown
    rw [groups, if_neg (hne a mem_cons_self), map_cons,
      ih (fun b hb => Ne.symm (hfirst b hb)) hown, map_cons]

end Groups
