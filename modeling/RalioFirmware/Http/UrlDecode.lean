import RalioFirmware.Http.Args

/-!
# `urlDecode` undoes what was encoded

A text can be written in many ways: `%` and `+` as an escape, a space as a `+` or an escape or as
it is, and any other byte as an escape or as it is.  The decoder looks two characters ahead of an
escape, and leaves a `%` alone that has not as many behind it.
-/

namespace Http

/-! ## The loop -/

/-- `charAt`, where a character has to be. -/
def characterAt (s : Text) (index : Nat) : Except Halt UInt8 :=
  match s[index]? with
  | none => .error .outOfBounds
  | some c => .ok c

/-- The loop of `urlDecode` from the `i`-th character on; every round takes one at least. -/
def urlDecodeLoop (s : Text) : Nat → Nat → Except Halt Text
  | 0, _ => .ok []
  | rounds + 1, i =>
    if i < s.length then do
      let encodedChar ← characterAt s i
      if encodedChar = 37 ∧ i + 1 + 1 < s.length then
        let a ← characterAt s (i + 1)
        let b ← characterAt s (i + 2)
        return UInt8.ofNat (strtol a b) :: (← urlDecodeLoop s rounds (i + 3))
      else
        return (if encodedChar = 43 then 32 else encodedChar) :: (← urlDecodeLoop s rounds (i + 1))
    else .ok []

theorem characterAt_drop {s rest : Text} {i : Nat} {c : UInt8} (h : s.drop i = c :: rest) :
    characterAt s i = .ok c := by
  have hget : s[i]? = some c := by
    rw [← Nat.add_zero i, ← List.getElem?_drop, h]
    rfl
  rw [characterAt, hget]

theorem drop_succ {s rest : Text} {i : Nat} {c : UInt8} (h : s.drop i = c :: rest) :
    s.drop (i + 1) = rest := by
  rw [← List.drop_drop, h]
  rfl

theorem urlDecode_cons (c : UInt8) {rest : Text} (h : c = 37 → rest.length < 2) :
    urlDecode (c :: rest) = (if c = 43 then 32 else c) :: urlDecode rest := by
  match rest with
  | [] => rfl
  | [_] => rfl
  | a :: b :: rest =>
    have hplain : ¬ c = 37 := fun hc => by
      have hlt := h hc
      simp only [List.length_cons] at hlt
      omega
    rw [urlDecode, if_neg hplain]

/-- **No character is read behind the end.** -/
theorem urlDecodeLoop_eq (s : Text) {rounds i : Nat} (hrounds : s.length ≤ i + rounds) :
    urlDecodeLoop s rounds i = .ok (urlDecode (s.drop i)) := by
  induction rounds generalizing i with
  | zero =>
    rw [List.drop_eq_nil_of_le (show s.length ≤ i from hrounds)]
    rfl
  | succ rounds ih =>
    rw [urlDecodeLoop]
    by_cases hi : i < s.length
    · have hsome : s.drop i ≠ [] := fun hnil => by
        have hle := List.drop_eq_nil_iff.mp hnil
        omega
      obtain ⟨c, rest, hdrop⟩ := List.exists_cons_of_ne_nil hsome
      have hlength : rest.length + 1 = s.length - i := by
        rw [← List.length_drop, hdrop, List.length_cons]
      rw [if_pos hi, characterAt_drop hdrop]
      dsimp only [Bind.bind, Except.bind]
      by_cases hescape : c = 37 ∧ i + 1 + 1 < s.length
      · obtain ⟨a, b, rest, rfl⟩ : ∃ a b rest', rest = a :: b :: rest' := by
          match rest, hlength with
          | [], hlength => exact absurd hlength (by simp only [List.length_nil]; omega)
          | [_], hlength => exact absurd hlength (by simp only [List.length_singleton]; omega)
          | a :: b :: rest, _ => exact ⟨a, b, rest, rfl⟩
        have hnext := drop_succ hdrop
        have hlast := drop_succ hnext
        rw [if_pos hescape, characterAt_drop hnext, characterAt_drop hlast,
          ih (by omega), drop_succ hlast, hdrop, urlDecode, if_pos hescape.1]
        rfl
      · rw [if_neg hescape, ih (by omega), drop_succ hdrop, hdrop, urlDecode_cons c]
        · rfl
        · intro hc
          have hend : ¬ i + 1 + 1 < s.length := fun hlt => hescape ⟨hc, hlt⟩
          omega
    · rw [if_neg hi, List.drop_eq_nil_of_le (Nat.not_lt.mp hi)]
      rfl

/-! ## Encodings -/

inductive PercentEncoded : Text → Text → Prop
  | nil : PercentEncoded [] []
  | plain {s t : Text} (b : UInt8) (hb : b ≠ 37 ∧ b ≠ 43) (h : PercentEncoded s t) :
      PercentEncoded (b :: s) (b :: t)
  | space {s t : Text} (h : PercentEncoded s t) : PercentEncoded (32 :: s) (43 :: t)
  /-- The digits may be in upper or lower case. -/
  | escape {s t : Text} (b high low : UInt8) (hhigh : hexDigit high = some (b.toNat / 16))
      (hlow : hexDigit low = some (b.toNat % 16)) (h : PercentEncoded s t) :
      PercentEncoded (b :: s) (37 :: high :: low :: t)

theorem PercentEncoded.decoded {s t : Text} (h : PercentEncoded s t) : urlDecode t = s := by
  induction h with
  | nil => rfl
  | plain b hb _ ih => rw [urlDecode_cons b fun hc => absurd hc hb.1, if_neg hb.2, ih]
  | space _ ih => rw [urlDecode_cons 43 fun hc => absurd hc (by decide), if_pos rfl, ih]
  | escape b high low hhigh hlow _ ih =>
    have hvalue : strtol high low = b.toNat := by
      rw [strtol, hhigh, hlow]
      exact Nat.div_add_mod b.toNat 16
    rw [urlDecode, if_pos rfl, hvalue, UInt8.ofNat_toNat, ih]

/-- **What was encoded is decoded**, whichever bytes were written as escapes; and no text has the
decoder read behind its end. -/
theorem urlDecode_encoded :
    (∀ s t, PercentEncoded s t → urlDecodeLoop t t.length 0 = .ok s) ∧
      ∀ t : Text, (urlDecodeLoop t t.length 0).isOk = true := by
  have hloop (t : Text) : urlDecodeLoop t t.length 0 = .ok (urlDecode t) :=
    urlDecodeLoop_eq t (Nat.le_of_eq (Nat.zero_add _).symm)
  constructor
  · intro s t h
    rw [hloop, h.decoded]
  · intro t
    rw [hloop]
    rfl

/-- `a %`, with one escape in upper case and one in lower case. -/
theorem urlDecode_encoded_sample :
    urlDecodeLoop [37, 54, 49, 43, 37, 50, 53] 7 0 = .ok [97, 32, 37] ∧
      (urlDecodeLoop [37, 50] 2 0).isOk = true := by
  have hencoded : PercentEncoded [97, 32, 37] [37, 54, 49, 43, 37, 50, 53] :=
    .escape 97 54 49 rfl rfl (.space (.escape 37 50 53 rfl rfl .nil))
  exact ⟨urlDecode_encoded.1 _ _ hencoded, urlDecode_encoded.2 _⟩

end Http
