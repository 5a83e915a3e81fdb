import Mathlib.Data.List.Nodup

/-!
# Registries

A registry is a list of entries in the strict order of their positions, in which
no owner has two entries.  Entries can leave, be entered at a free position, and
pass from one owner to another; each of these keeps a registry one.
-/

namespace Registry

open List

variable {Entry Owner : Type} {pos : Entry → Nat} {owner : Entry → Owner} {allowed : Nat → Prop}

/-- The entries stand at allowed positions, in their order, each owner once. -/
structure Ok (pos : Entry → Nat) (owner : Entry → Owner) (allowed : Nat → Prop)
    (entries : List Entry) : Prop where
  allowed : ∀ e ∈ entries, allowed (pos e)
  sorted : entries.Pairwise fun a b => pos a < pos b
  owners : (entries.map owner).Nodup

/-- Insertion in front of the first entry behind the new one. -/
def insert (pos : Entry → Nat) (entry : Entry) : List Entry → List Entry
  | [] => [entry]
  | e :: rest => if pos entry < pos e then entry :: e :: rest else e :: insert pos entry rest

theorem ok_nil : Ok pos owner allowed [] := ⟨by simp, List.Pairwise.nil, nodup_nil⟩

variable {entries : List Entry}

variable {entries' : List Entry}

theorem Ok.of_sublist (h : Ok pos owner allowed entries)
    (hsub : (entries'.map fun e => (pos e, owner e)).Sublist
      (entries.map fun e => (pos e, owner e))) : Ok pos owner allowed entries' := by
  have hpos : (entries'.map pos).Sublist (entries.map pos) := by
    have := hsub.map Prod.fst
    rwa [map_map, map_map] at this
  have howner : (entries'.map owner).Sublist (entries.map owner) := by
    have := hsub.map Prod.snd
    rwa [map_map, map_map] at this
  refine ⟨?_, ?_, h.owners.sublist howner⟩
  · intro e he
    obtain ⟨e', he', heq⟩ := mem_map.mp (hpos.subset (mem_map_of_mem he))
    exact heq ▸ h.allowed e' he'
  · have hsorted : (entries.map pos).Pairwise (· < ·) := pairwise_map.mpr h.sorted
    exact pairwise_map.mp (hsorted.sublist hpos)

theorem Ok.sublist (h : Ok pos owner allowed entries)
    (hsub : entries'.Sublist entries) : Ok pos owner allowed entries' :=
  h.of_sublist (hsub.map _)

theorem Ok.positions (h : Ok pos owner allowed entries) :
    (entries.map pos).Nodup :=
  pairwise_map.mpr (h.sorted.imp Nat.ne_of_lt)

variable {i : Nat} {e : Entry}

theorem Ok.owner_of_eraseIdx (h : Ok pos owner allowed entries) (hi : entries[i]? = some e) :
    ∀ a ∈ entries.eraseIdx i, owner a ≠ owner e := by
  intro a ha heq
  obtain ⟨j, hji, hj⟩ := mem_eraseIdx_iff_getElem?.mp ha
  have hlt : j < (entries.map owner).length := by
    rw [length_map]
    exact (List.getElem?_eq_some_iff.mp hj).1
  have hown : (entries.map owner)[j]? = (entries.map owner)[i]? := by grind
  exact hji ((getElem?_inj hlt h.owners).mp hown)

theorem insert_perm (entry : Entry) (entries : List Entry) :
    (insert pos entry entries).Perm (entry :: entries) := by
  induction entries with
  | nil => exact List.Perm.refl _
  | cons a rest ih =>
    unfold insert
    split
    · exact List.Perm.refl _
    · exact (ih.cons a).trans (List.Perm.swap entry a rest)

theorem mem_insert {entry : Entry} :
    e ∈ insert pos entry entries ↔ e = entry ∨ e ∈ entries :=
  (insert_perm entry entries).mem_iff.trans mem_cons

/-- **An owner without an entry enters at a free position.** -/
theorem Ok.insert {entry : Entry} (h : Ok pos owner allowed entries)
    (hallowed : allowed (pos entry)) (hfree : ∀ e ∈ entries, pos e ≠ pos entry)
    (hnew : ∀ e ∈ entries, owner e ≠ owner entry) :
    Ok pos owner allowed (insert pos entry entries) := by
  refine ⟨?_, ?_, ?_⟩
  · intro e he
    rcases mem_insert.mp he with rfl | he
    · exact hallowed
    · exact h.allowed e he
  · have hsorted := h.sorted
    clear h hnew
    induction entries with
    | nil => exact pairwise_singleton _ _
    | cons a rest ih =>
      obtain ⟨ha, hrest⟩ := pairwise_cons.mp hsorted
      unfold Registry.insert
      split
      · rename_i hlt
        refine pairwise_cons.mpr ⟨?_, hsorted⟩
        intro e he
        rcases mem_cons.mp he with rfl | he
        · exact hlt
        · exact Nat.lt_trans hlt (ha e he)
      · rename_i hle
        have hne := hfree a mem_cons_self
        refine pairwise_cons.mpr
          ⟨?_, ih (fun e he => hfree e (mem_cons_of_mem a he)) hrest⟩
        intro e he
        rcases mem_insert.mp he with rfl | he
        · omega
        · exact ha e he
  · have hperm := (@insert_perm _ pos entry entries).map owner
    refine hperm.nodup_iff.mpr (nodup_cons.mpr ⟨?_, h.owners⟩)
    intro hmem
    obtain ⟨e, he, heq⟩ := mem_map.mp hmem
    exact hnew e he heq

/-- **An entry passes to an owner without one.** -/
theorem Ok.set {entry : Entry} (h : Ok pos owner allowed entries) (hi : entries[i]? = some e)
    (hpos : pos entry = pos e)
    (hnew : ∀ a ∈ entries, owner a ≠ owner entry) :
    Ok pos owner allowed (entries.set i entry) := by
  obtain ⟨hlt, rfl⟩ := List.getElem?_eq_some_iff.mp hi
  have hposs : (entries.set i entry).map pos = entries.map pos := by
    rw [map_set, hpos]
    have hset := @List.set_getElem_self _ (entries.map pos) i (by simpa using hlt)
    rwa [getElem_map] at hset
  refine ⟨?_, ?_, ?_⟩
  · intro a ha
    have hmem : pos a ∈ entries.map pos := hposs ▸ mem_map_of_mem ha
    obtain ⟨a', ha', heq⟩ := mem_map.mp hmem
    exact heq ▸ h.allowed a' ha'
  · have hsorted : (entries.map pos).Pairwise (· < ·) := pairwise_map.mpr h.sorted
    rw [← hposs] at hsorted
    exact pairwise_map.mp hsorted
  · rw [map_set]
    refine h.owners.set ?_
    intro hmem
    obtain ⟨a, ha, heq⟩ := mem_map.mp hmem
    exact hnew a ha heq

/-- **An owner gives its entry up for another one.** -/
theorem Ok.takeover {entry mine : Entry}
    (h : Ok pos owner allowed entries) {m : Nat} (him : i ≠ m) (hi : entries[i]? = some e)
    (hm : entries[m]? = some mine) (hpos : pos entry = pos e) (howner : owner entry = owner mine) :
    Ok pos owner allowed ((entries.set i entry).eraseIdx m) := by
  have hrest := h.sublist (eraseIdx_sublist entries m)
  have hnew : ∀ a ∈ entries.eraseIdx m, owner a ≠ owner entry := by
    rw [howner]
    exact h.owner_of_eraseIdx hm
  rcases Nat.lt_or_gt_of_ne him with hlt | hgt
  · rw [eraseIdx_set_gt hlt]
    refine hrest.set ?_ hpos hnew
    rw [getElem?_eraseIdx, if_pos hlt, hi]
  · rw [eraseIdx_set_lt hgt]
    refine hrest.set ?_ hpos hnew
    rw [getElem?_eraseIdx, if_neg (by omega), Nat.sub_add_cancel (by omega), hi]

end Registry
