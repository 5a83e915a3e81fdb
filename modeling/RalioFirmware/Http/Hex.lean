import Mathlib.Data.List.DropRight
import Mathlib.Data.Nat.Digits.Defs
import RalioFirmware.Http.Text

/-!
# Hexadecimal numbers

`printf` writes a number to base 16 with the digits it needs, and `strtol` reads one from
the start of a text: blanks, a sign and `0x` may stand in front of its digits, and anything
behind them.
-/

namespace Http

open CString List

def hexChar (d : Nat) : UInt8 := if d < 10 then UInt8.ofNat (48 + d) else UInt8.ofNat (87 + d)

/-- `%x`. -/
def printHex (n : Nat) : Text :=
  if n = 0 then [48] else (Nat.digits 16 n).reverse.map hexChar

def isxdigit (b : UInt8) : Bool := (hexDigit b).isSome

def hexValue (ds : Text) : Nat := ds.foldl (fun n d => 16 * n + (hexDigit d).getD 0) 0

/-- A `0x` in front is skipped. -/
def skipPrefix (mem : Text) : Text :=
  match mem with
  | b :: x :: rest => if b = 48 ∧ (x = 120 ∨ x = 88) then rest else mem
  | _ => mem

def hexMagnitude (mem : Text) : Nat := hexValue ((skipPrefix mem).takeWhile isxdigit)

/-- `strtol` to base 16, for a `long` of 32 bits. -/
def strtolHex (mem : Text) : Int :=
  match mem.dropWhile isspace with
  | [] => 0
  | b :: rest =>
    if b = 45 then max (-(hexMagnitude rest : Int)) (-2147483648)
    else if b = 43 then min (hexMagnitude rest : Int) 2147483647
    else min (hexMagnitude (b :: rest) : Int) 2147483647

def Text.trim (s : Text) : Text := (s.dropWhile isspace).rdropWhile isspace

/-! ## Writing -/

theorem hexDigit_hexChar {d : Nat} (hd : d < 16) : hexDigit (hexChar d) = some d := by
  revert d
  decide

theorem hexValue_append (ds es : Text) :
    hexValue (ds ++ es) = es.foldl (fun n d => 16 * n + (hexDigit d).getD 0) (hexValue ds) :=
  foldl_append

theorem hexValue_digits {ds : List Nat} (hds : ∀ d ∈ ds, d < 16) :
    hexValue (ds.reverse.map hexChar) = Nat.ofDigits 16 ds := by
  induction ds with
  | nil => rfl
  | cons d ds ih =>
    rw [reverse_cons, map_append, hexValue_append,
      ih fun e he => hds e (mem_cons_of_mem d he), Nat.ofDigits_cons,
      Nat.add_comm]
    show 16 * _ + (hexDigit (hexChar d)).getD 0 = _
    rw [hexDigit_hexChar (hds d mem_cons_self), Option.getD_some]

/-- **What is printed** stands for the number. -/
theorem hexValue_printHex (n : Nat) : hexValue (printHex n) = n := by
  unfold printHex
  split
  · rename_i hzero
    exact hzero ▸ rfl
  · rw [hexValue_digits fun d => Nat.digits_lt_base (by omega), Nat.ofDigits_digits]

theorem printHex_ne_nil (n : Nat) : printHex n ≠ [] := by
  unfold printHex
  split
  · simp
  · rename_i hne
    simpa using Nat.digits_ne_nil_iff_ne_zero.mpr hne

theorem isxdigit_printHex {n : Nat} {b : UInt8} (hb : b ∈ printHex n) : isxdigit b = true := by
  unfold printHex at hb
  split at hb
  · rw [mem_singleton.mp hb]
    decide
  · obtain ⟨d, hd, rfl⟩ := mem_map.mp hb
    have hlt : d < 16 := Nat.digits_lt_base (by omega) (mem_reverse.mp hd)
    rw [isxdigit, hexDigit_hexChar hlt]
    rfl

/-! ## Reading -/

theorem isspace_of_isxdigit {b : UInt8} (hb : isxdigit b = true) : isspace b = false := by
  have hlow : ¬ (isspace b = true) := by
    intro hspace
    have hle : b.toNat ≤ 32 := by
      simp only [isspace, Bool.or_eq_true, Bool.and_eq_true, decide_eq_true_eq] at hspace
      rcases hspace with rfl | ⟨-, hle⟩
      · decide
      · exact Nat.le_trans (UInt8.le_iff_toNat_le.mp hle) (by decide)
    have hnone : hexDigit b = none := by
      simp only [hexDigit, UInt8.le_iff_toNat_le, UInt8.reduceToNat]
      rw [if_neg (by omega), if_neg (by omega), if_neg (by omega)]
    rw [isxdigit, hnone] at hb
    cases hb
  exact Bool.eq_false_iff.mpr hlow

theorem trim_digits {ds : Text} (hds : ∀ b ∈ ds, isxdigit b = true) :
    Text.trim (ds ++ [13]) = ds := by
  have hdrop : (ds ++ [13]).dropWhile isspace = ds ++ [13] ∨ ds = [] := by
    cases ds with
    | nil => exact .inr rfl
    | cons d ds =>
      left
      rw [cons_append, dropWhile_cons_of_neg]
      rw [isspace_of_isxdigit (hds d mem_cons_self)]
      decide
  rcases hdrop with hdrop | rfl
  · rw [Text.trim, hdrop, rdropWhile_concat_pos _ _ _ (by decide),
      rdropWhile_eq_self_iff]
    intro hne
    rw [isspace_of_isxdigit (hds _ (getLast_mem hne))]
    decide
  · rfl

theorem skipPrefix_digits {ds : Text} (hds : ∀ b ∈ ds, isxdigit b = true) :
    skipPrefix ds = ds := by
  unfold skipPrefix
  split
  · rename_i b x rest
    rw [if_neg]
    rintro ⟨-, rfl | rfl⟩
    · exact absurd (hds 120 (by simp)) (by decide)
    · exact absurd (hds 88 (by simp)) (by decide)
  · rfl

/-- **Digits are read** as the number they stand for, if a `long` holds it. -/
theorem strtolHex_digits {ds : Text} (hne : ds ≠ []) (hds : ∀ b ∈ ds, isxdigit b = true) :
    strtolHex ds = min (hexValue ds : Int) 2147483647 := by
  obtain ⟨d, rest, rfl⟩ := exists_cons_of_ne_nil hne
  have hd : isxdigit d = true := hds d mem_cons_self
  have hminus : d ≠ 45 := by
    rintro rfl
    exact absurd hd (by decide)
  have hplus : d ≠ 43 := by
    rintro rfl
    exact absurd hd (by decide)
  have hdrop : (d :: rest).dropWhile isspace = d :: rest := by
    rw [dropWhile_cons_of_neg]
    rw [isspace_of_isxdigit hd]
    decide
  rw [strtolHex, hdrop]
  simp only [if_neg hminus, if_neg hplus]
  rw [hexMagnitude, skipPrefix_digits hds, takeWhile_eq_self_iff.mpr hds]

theorem strtolHex_bounds (mem : Text) :
    -2147483648 ≤ strtolHex mem ∧ strtolHex mem ≤ 2147483647 := by
  unfold strtolHex
  split
  · omega
  · split
    · omega
    · split <;> omega

end Http
