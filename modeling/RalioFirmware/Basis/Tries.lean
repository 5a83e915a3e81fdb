/-!
# Tries until one succeeds

Of a list of tries one is made after another, up to the first that succeeds.  Whether a try does
may depend on all that were made before it.
-/

namespace Tries

variable {α : Type}

/-- Whether one has succeeded, and the tries that were made, those of before in front.  `ok` says
whether the last of the tries made so far succeeds. -/
def tryAll (ok : List α → Bool) : List α → List α → Bool × List α
  | [], made => (false, made)
  | a :: rest, made =>
    if ok (made ++ [a]) then (true, made ++ [a]) else tryAll ok rest (made ++ [a])

variable {ok : List α → Bool}

theorem tryAll_append (front back made : List α) : tryAll ok (front ++ back) made =
    if (tryAll ok front made).1 then tryAll ok front made
    else tryAll ok back (tryAll ok front made).2 := by
  induction front generalizing made with
  | nil => rfl
  | cons a front ih =>
    rw [List.cons_append, tryAll, tryAll]
    split
    · rfl
    · exact ih (made ++ [a])

/-- Tries of which the last one and no other succeeds, or all of which fail. -/
structure UpToSuccess (ok : List α → Bool) (todo : List α) (success : Bool) (made : List α) :
    Prop where
  front : made <+: todo
  failed : ∀ before a after, made = before ++ a :: after → after ≠ [] → ok (before ++ [a]) = false
  last : success = true ↔ made ≠ [] ∧ ok made = true
  all : success = false → made = todo

theorem tryAll_from (ok : List α → Bool) (todo before : List α) :
    ∃ made, (tryAll ok todo before).2 = before ++ made ∧
      UpToSuccess (fun tries => ok (before ++ tries)) todo (tryAll ok todo before).1 made := by
  induction todo generalizing before with
  | nil =>
    refine ⟨[], (List.append_nil before).symm, List.nil_prefix, ?_, ?_, fun _ => rfl⟩
    · intro front a after heq
      cases front <;> cases heq
    · exact iff_of_false Bool.false_ne_true fun h => h.1 rfl
  | cons a rest ih =>
    unfold tryAll
    by_cases hok : ok (before ++ [a]) = true
    · rw [if_pos hok]
      refine ⟨[a], rfl, ⟨rest, rfl⟩, ?_, iff_of_true rfl ⟨List.cons_ne_nil a [], hok⟩,
        fun h => by cases h⟩
      intro front b after heq hafter
      cases front with
      | nil => exact absurd (List.cons.inj heq).2.symm hafter
      | cons c front => cases front <;> cases (List.cons.inj heq).2
    · rw [if_neg hok]
      obtain ⟨made, heq, hmade⟩ := ih (before ++ [a])
      have hassoc : ∀ tries, before ++ [a] ++ tries = before ++ a :: tries :=
        fun tries => List.append_assoc before [a] tries
      refine ⟨a :: made, by rw [heq, hassoc], ?_, ?_, ?_, fun h => by rw [hmade.all h]⟩
      · exact List.prefix_cons_inj a |>.mpr hmade.front
      · intro front b after hfront hafter
        cases front with
        | nil =>
          grind
        | cons c front =>
          obtain ⟨hc, hrest⟩ := List.cons.inj hfront
          have hfail := hmade.failed front b after hrest hafter
          rw [hassoc, hc] at hfail
          exact hfail
      · rw [hmade.last, hassoc]
        constructor
        · exact fun h => ⟨List.cons_ne_nil a made, h.2⟩
        · refine fun h => ⟨fun hnil => hok ?_, h.2⟩
          rw [hnil] at h
          exact h.2

/-- **What was tried**: all, or up to the first try that succeeds. -/
theorem tryAll_spec (ok : List α → Bool) (todo : List α) :
    UpToSuccess ok todo (tryAll ok todo []).1 (tryAll ok todo []).2 := by
  obtain ⟨made, heq, hmade⟩ := tryAll_from ok todo []
  rw [heq]
  exact hmade

end Tries
