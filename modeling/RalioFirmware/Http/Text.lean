import RalioFirmware.Basis.CString

/-!
# The characters of a `String`

What the web server does with a `String` depends on its characters only, so here a
`String` is their list, up to the length that goes with it.  Some of its functions stop
at a NUL all the same.
-/

namespace Http

open CString

abbrev Text := List UInt8

def text (s : String) : Text := s.toUTF8.data.toList

namespace Text

/-- `operator[]`, and `charAt`. -/
def charAt (s : Text) (index : Nat) : UInt8 := s.getD index 0

/-- `indexOf`, which gives -1 where there is none. -/
def indexOf (s : Text) (ch : UInt8) (fromIndex : Nat) : Int :=
  if fromIndex ≥ s.length then -1
  else match strchr ch (s.drop fromIndex) with
    | none => -1
    | some i => (fromIndex + i : Nat)

/-- An `int` as an `unsigned int`. -/
def unsigned (i : Int) : Nat := (i % 4294967296).toNat

def substring (s : Text) (left right : Nat) : Text :=
  let (left, right) := if left > right then (right, left) else (left, right)
  if left ≥ s.length then [] else (s.drop left).take (min right s.length - left)

def equals (s t : Text) : Bool := s.length = t.length && strcmp s t = 0

/-- `startsWith`, of which `strncmp` is the heart. -/
def startsWith (s t : Text) : Bool := t.length ≤ s.length && cstr (s.take t.length) = cstr t

/-- The loop of `equalsIgnoreCase`. -/
def equalsLoop : Text → Text → Bool
  | [], _ => true
  | a :: as, bs =>
    if a = 0 then true
    else if tolower a ≠ tolower (bs.headD 0) then false
    else equalsLoop as bs.tail

def equalsIgnoreCase (s t : Text) : Bool := s.length = t.length && equalsLoop s t

theorem equals_iff {s t : Text} (hzero : (0 : UInt8) ∉ s ∨ (0 : UInt8) ∉ t) :
    s.equals t = true ↔ s = t := by
  rw [Text.equals, Bool.and_eq_true, decide_eq_true_eq, decide_eq_true_eq]
  constructor
  · exact fun h => strcmp_eq_zero hzero h.1 h.2
  · rintro rfl
    exact ⟨rfl, strcmp_self s⟩

theorem equals_eq {s : Text} (hs : (0 : UInt8) ∉ s) (t : Text) : s.equals t = decide (s = t) := by
  rw [Bool.eq_iff_iff, equals_iff (.inl hs), decide_eq_true_eq]

end Text

/-! ## Indices -/

/-- An offset from `q` on, as an index. -/
def indexAt (q : Nat) : Option Nat → Int
  | none => -1
  | some i => (q + i : Nat)

theorem indexOf_eq {ch : UInt8} (hch : ch ≠ 0) (data : Text) (q : Nat) :
    data.indexOf ch q = indexAt q (strchr ch (data.drop q)) := by
  rw [Text.indexOf]
  split
  · rw [List.drop_eq_nil_of_le (by assumption), strchr, if_neg hch]
    rfl
  · cases strchr ch (data.drop q) <;> rfl

@[simp] theorem indexAt_none (q : Nat) : indexAt q none = -1 := rfl

@[simp] theorem indexAt_ne (q i : Nat) : indexAt q (some i) ≠ -1 := by
  rw [indexAt]
  omega

@[simp] theorem indexAt_lt (q i j : Nat) : indexAt q (some i) < indexAt q (some j) ↔ i < j := by
  rw [indexAt, indexAt]
  omega

theorem indexAt_succ (q i : Nat) : indexAt q (some i) + 1 = indexAt q (some (i + 1)) := rfl

theorem unsigned_indexAt {q i : Nat} (h : q + i < 4294967296) :
    Text.unsigned (indexAt q (some i)) = q + i := by
  rw [Text.unsigned, indexAt]
  omega

theorem substring_eq (data : Text) {l r : Nat} (hlr : l ≤ r) :
    data.substring l r = (data.drop l).take (r - l) := by
  rw [Text.substring, if_neg (Nat.not_lt.mpr hlr)]
  dsimp only
  split
  · rw [List.drop_eq_nil_of_le (by assumption), List.take_nil]
  · rw [List.take_eq_take_iff, List.length_drop]
    omega

def hexDigit (b : UInt8) : Option Nat :=
  if 48 ≤ b ∧ b ≤ 57 then some (b.toNat - 48)
  else if 65 ≤ b ∧ b ≤ 70 then some (b.toNat - 55)
  else if 97 ≤ b ∧ b ≤ 102 then some (b.toNat - 87)
  else none

end Http
