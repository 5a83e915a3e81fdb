import RalioFirmware.Http.Text

/-!
# Hexadecimal digits of the core

`base36Chars` has the digits that are written, and `base36CharValues` the values of the characters
that are read, from `'0'` to `'z'`.  Both tables are in the flash, and nothing keeps a character
that is no digit from being looked up.
-/

namespace TypeConversion

open Http CString List
open UInt8 (ofNat toNat_ofNat')

/-! ## The tables -/

def base36Chars : Text :=
  [48, 49, 50, 51, 52, 53, 54, 55, 56, 57, 65, 66, 67, 68, 69, 70, 71, 72, 73, 74, 75, 76, 77, 78,
    79, 80, 81, 82, 83, 84, 85, 86, 87, 88, 89, 90]

def base36CharValues : List UInt8 :=
  [0, 1, 2, 3, 4, 5, 6, 7, 8, 9, 0, 0, 0, 0, 0, 0, 0,
    10, 11, 12, 13, 14, 15, 16, 17, 18, 19, 20, 21, 22, 23, 24, 25, 26, 27, 28, 29, 30, 31, 32, 33,
    34, 35, 0, 0, 0, 0, 0, 0,
    10, 11, 12, 13, 14, 15, 16, 17, 18, 19, 20, 21, 22, 23, 24, 25, 26, 27, 28, 29, 30, 31, 32, 33,
    34, 35]

inductive Fault where
  | assertFailed
  /-- What is read stands in front of a table or behind it. -/
  | outsideTable
deriving DecidableEq, Repr

def pgm_read_byte (table : List UInt8) (index : Int) : Except Fault UInt8 :=
  if index < 0 then .error .outsideTable
  else match table[index.toNat]? with
    | none => .error .outsideTable
    | some b => .ok b

def digitChar (d : Nat) : Except Fault UInt8 := pgm_read_byte base36Chars d

def charValue (c : UInt8) : Except Fault UInt8 :=
  pgm_read_byte base36CharValues ((c.toNat : Int) - 48)

/-! ## The conversions -/

/-- The loop of `uint8ArrayToHexString`. -/
def hexCharacters : List UInt8 → Except Fault Text
  | [] => .ok []
  | b :: uint8Array => do
    let high ← digitChar (b.toNat / 16)
    let low ← digitChar (b.toNat % 16)
    return high :: low :: (← hexCharacters uint8Array)

/-- `reserved` says whether there is memory for the characters. -/
def uint8ArrayToHexString (reserved : Bool) (uint8Array : List UInt8) : Except Fault Text :=
  if reserved then hexCharacters uint8Array else .ok []

/-- The loop of `hexStringToUint8Array`, for so many bytes from the `i`-th one on. -/
def hexBytes (hexString : Text) : Nat → Nat → Except Fault (List UInt8)
  | 0, _ => .ok []
  | count + 1, i => do
    let high ← charValue (hexString.charAt (i * 2))
    let low ← charValue (hexString.charAt (i * 2 + 1))
    return UInt8.ofNat (high.toNat * 16 + low.toNat) :: (← hexBytes hexString count (i + 1))

def hexStringToUint8Array (hexString : Text) (arrayLength : Nat) : Except Fault (List UInt8) :=
  if arrayLength * 2 ≤ hexString.length then hexBytes hexString arrayLength 0
  else .error .assertFailed

/-! ## What the tables hold -/

def upperDigit (d : Nat) : UInt8 := if d < 10 then UInt8.ofNat (48 + d) else UInt8.ofNat (55 + d)

theorem digitChar_eq {d : Nat} (hd : d < 36) : digitChar d = .ok (upperDigit d) := by
  revert hd
  revert d
  decide

theorem charValue_upperDigit {d : Nat} (hd : d < 36) :
    charValue (upperDigit d) = .ok (ofNat d) := by
  revert hd
  revert d
  decide

/-- **Inside of the table** are the characters from `'0'` to `'z'`. -/
theorem charValue_ok_iff (c : UInt8) : (charValue c).isOk = true ↔ 48 ≤ c ∧ c ≤ 122 := by
  have hlength : base36CharValues.length = 75 := rfl
  rw [UInt8.le_iff_toNat_le, UInt8.le_iff_toNat_le, charValue, pgm_read_byte]
  have h48 : (48 : UInt8).toNat = 48 := rfl
  have h122 : (122 : UInt8).toNat = 122 := rfl
  rw [h48, h122]
  by_cases hneg : (c.toNat : Int) - 48 < 0
  · rw [if_pos hneg]
    refine iff_of_false Bool.false_ne_true ?_
    omega
  · rw [if_neg hneg]
    by_cases hlt : ((c.toNat : Int) - 48).toNat < 75
    · rw [getElem?_eq_getElem (hlength ▸ hlt)]
      refine iff_of_true rfl ?_
      omega
    · rw [getElem?_eq_none (hlength ▸ Nat.not_lt.mp hlt)]
      refine iff_of_false Bool.false_ne_true ?_
      omega

theorem charValue_hexDigit {c : UInt8} {d : Nat} (hd : hexDigit c = some d) :
    d < 16 ∧ charValue c = .ok (ofNat d) ∧ upperDigit d = toupper c := by
  have hall : ∀ n < 256, ∀ d, hexDigit (ofNat n) = some d → d < 16 ∧
      charValue (ofNat n) = .ok (ofNat d) ∧ upperDigit d = toupper (ofNat n) := by
    intro n hn d h
    have hchecked : ∀ n < 256, (hexDigit (ofNat n)).all (fun d => d < 16 ∧
        charValue (ofNat n) = .ok (ofNat d) ∧
          upperDigit d = toupper (ofNat n)) = true := by
      decide +kernel
    have hchecked := hchecked n hn
    rw [h] at hchecked
    exact of_decide_eq_true hchecked
  have hc := hall c.toNat c.toNat_lt d
  rw [UInt8.ofNat_toNat] at hc
  exact hc hd

/-! ## There and back -/

def hexPair (b : UInt8) : Text := [upperDigit (b.toNat / 16), upperDigit (b.toNat % 16)]

theorem hexCharacters_eq (uint8Array : List UInt8) :
    hexCharacters uint8Array = .ok (uint8Array.flatMap hexPair) := by
  induction uint8Array with
  | nil => rfl
  | cons b uint8Array ih =>
    have hb : b.toNat < 256 := b.toNat_lt
    rw [hexCharacters, digitChar_eq (by omega), digitChar_eq (by omega), ih]
    rfl

theorem hexBytes_cons (a b : UInt8) (hexString : Text) (count i : Nat) :
    hexBytes (a :: b :: hexString) count (i + 1) = hexBytes hexString count i := by
  have hat : ∀ j, Text.charAt (a :: b :: hexString) (j + 2) = hexString.charAt j := fun _ => rfl
  induction count generalizing i with
  | zero => rfl
  | succ count ih =>
    have hhigh : (i + 1) * 2 = i * 2 + 2 := by omega
    have hlow : (i + 1) * 2 + 1 = i * 2 + 1 + 2 := by omega
    rw [hexBytes, hexBytes, hlow, hhigh, hat, hat, ih]

theorem hexBytes_pair {a b : UInt8} {m n : Nat} (ha : charValue a = .ok (ofNat m))
    (hb : charValue b = .ok (ofNat n)) (hm : m < 16) (hn : n < 16) (hexString : Text)
    (count : Nat) : hexBytes (a :: b :: hexString) (count + 1) 0 =
      (hexBytes hexString count 0).map fun rest => ofNat (m * 16 + n) :: rest := by
  have hhigh : Text.charAt (a :: b :: hexString) (0 * 2) = a := rfl
  have hlow : Text.charAt (a :: b :: hexString) (0 * 2 + 1) = b := rfl
  have hvalues : (ofNat m).toNat * 16 + (ofNat n).toNat = m * 16 + n := by
    rw [toNat_ofNat', toNat_ofNat']
    omega
  rw [hexBytes, hhigh, hlow, ha, hb, hexBytes_cons]
  dsimp only [Bind.bind, Except.bind]
  rw [hvalues]
  cases hexBytes hexString count 0 with
  | error fault => rfl
  | ok rest => rfl

theorem length_flatMap_hexPair (uint8Array : List UInt8) :
    (uint8Array.flatMap hexPair).length = uint8Array.length * 2 := by
  induction uint8Array with
  | nil => rfl
  | cons b uint8Array ih =>
    rw [flatMap_cons, length_append, ih, length_cons]
    have hpair : (hexPair b).length = 2 := rfl
    omega

theorem hexBytes_flatMap (uint8Array : List UInt8) :
    hexBytes (uint8Array.flatMap hexPair) uint8Array.length 0 = .ok uint8Array := by
  induction uint8Array with
  | nil => rfl
  | cons b uint8Array ih =>
    have hb : b.toNat < 256 := b.toNat_lt
    have hcons : (b :: uint8Array).flatMap hexPair = upperDigit (b.toNat / 16) ::
        upperDigit (b.toNat % 16) :: uint8Array.flatMap hexPair := rfl
    rw [hcons, length_cons, hexBytes_pair (charValue_upperDigit (by omega))
      (charValue_upperDigit (by omega)) (by omega) (by omega), ih, Nat.div_add_mod',
      UInt8.ofNat_toNat]
    rfl

theorem hexBytes_digits {hexString : Text} (hdigits : ∀ c ∈ hexString, (hexDigit c).isSome = true)
    {count : Nat} (hlength : hexString.length = count * 2) :
    ∃ uint8Array, hexBytes hexString count 0 = .ok uint8Array ∧
      uint8Array.flatMap hexPair = hexString.map toupper := by
  induction count generalizing hexString with
  | zero =>
    rw [Nat.zero_mul] at hlength
    rw [eq_nil_of_length_eq_zero hlength]
    exact ⟨[], rfl, rfl⟩
  | succ count ih =>
    obtain ⟨a, b, rest, rfl⟩ : ∃ a b rest, hexString = a :: b :: rest := by
      match hexString, hlength with
      | [], hlength => exact absurd hlength (by simp)
      | [_], hlength => exact absurd hlength (by simp only [length_singleton]; omega)
      | a :: b :: rest, _ => exact ⟨a, b, rest, rfl⟩
    have hrest : rest.length = count * 2 := by grind
    obtain ⟨m, hm⟩ := Option.isSome_iff_exists.mp (hdigits a (by simp))
    obtain ⟨n, hn⟩ := Option.isSome_iff_exists.mp (hdigits b (by simp))
    obtain ⟨hmlt, hma, hmupper⟩ := charValue_hexDigit hm
    obtain ⟨hnlt, hnb, hnupper⟩ := charValue_hexDigit hn
    obtain ⟨uint8Array, hread, hwritten⟩ :=
      ih (fun c hc => hdigits c (mem_cons_of_mem a (mem_cons_of_mem b hc))) hrest
    refine ⟨ofNat (m * 16 + n) :: uint8Array, ?_, ?_⟩
    · rw [hexBytes_pair hma hnb hmlt hnlt, hread]
      rfl
    · have hvalue : (ofNat (m * 16 + n)).toNat = m * 16 + n := by
        rw [toNat_ofNat']
        omega
      have hhigh : (m * 16 + n) / 16 = m := by omega
      have hlow : (m * 16 + n) % 16 = n := by omega
      rw [flatMap_cons, hexPair, hvalue, hhigh, hlow, hmupper, hnupper, hwritten]
      rfl

end TypeConversion
