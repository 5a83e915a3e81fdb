import RalioFirmware.Basis.Radix
import RalioFirmware.Http.Text

/-!
# Numbers of 64 bits as text

`ulltoa` fills its destination from the back, as far as there is room, and gives the place where
the text starts.  It puts the NUL at the end and one digit in front of it before it looks at the
room.  `lltoa` wants a place more for the sign.  The buffer of the `String` constructors is a byte
short of the longest text there is.
-/

namespace StdlibNoniso

open Http List

/-! ## Destinations -/

/-- The memory, by its distance from the start of the destination, and where it was written. -/
structure Destination where
  mem : Int → UInt8
  written : List Int

namespace Destination

def store (i : Int) (b : UInt8) (m : Destination) : Destination where
  mem := fun j => if j = i then b else m.mem j
  written := i :: m.written

def Holds (m : Destination) (i : Int) (t : Text) : Prop :=
  ∀ (j : Nat) (b : UInt8), t[j]? = some b → m.mem (i + j) = b

end Destination

/-! ## The conversions -/

def digitChar (mod : Nat) : UInt8 := UInt8.ofNat (mod + if mod > 9 then 97 - 10 else 48)

/-- The loop of `ulltoa`: what is left of the number, the place, and the memory.  A number of 64
bits takes 64 rounds at most. -/
def ulltoaLoop (radix : Nat) : Nat → Nat → Int → Int → Destination → Nat × Int × Destination
  | 0, val, _, str, m => (val, str, m)
  | rounds + 1, val, slen, str, m =>
    let mod := val % radix
    let val := val / radix
    let str := str - 1
    let m := m.store str (digitChar mod)
    let slen := slen - 1
    if slen ≠ 0 ∧ val ≠ 0 then ulltoaLoop radix rounds val slen str m else (val, str, m)

def ulltoa (val : UInt64) (slen : Int) (radix : Nat) (m : Destination) :
    Option Int × Destination :=
  let slen := slen - 1
  let str := slen
  let (val, str, m) := ulltoaLoop radix 64 val.toNat slen str (m.store str 0)
  (if val ≠ 0 then none else some str, m)

/-- The least value is its own negation, and the right number as an unsigned one. -/
def lltoa (val : Int64) (slen : Int) (radix : Nat) (m : Destination) : Option Int × Destination :=
  let neg : Bool := val < 0
  let val := if val < 0 then -val else val
  let (ret, m) := ulltoa val.toUInt64 slen radix m
  if neg then
    match ret with
    | none => (none, m)
    | some ret => if ret = 0 then (none, m) else (some (ret - 1), m.store (ret - 1) 45)
  else (ret, m)

/-- The text that a pointer points at: `strlen` finds its end within so many bytes. -/
def cstringAt (m : Destination) : Nat → Int → Text
  | 0, _ => []
  | bytes + 1, i => if m.mem i = 0 then [] else m.mem i :: cstringAt m bytes (i + 1)

/-- `out = ret`: a null pointer leaves the `String` empty. -/
def assign (result : Option Int × Destination) (size : Nat) : Text :=
  match result.1 with
  | none => []
  | some ret => cstringAt result.2 size ret

/-- `std::numeric_limits<long long>::digits`. -/
def longLongDigits : Nat := 63

/-- `std::numeric_limits<unsigned long long>::digits`. -/
def unsignedLongLongDigits : Nat := 64

/-- `toString(long long, unsigned char)`, the conversion of the constructor; the buffer holds what
the stack has left there. -/
def toStringLongLong (value : Int64) (base : Nat) (buf : Destination) : Text :=
  let size := 2 + longLongDigits
  assign (lltoa value size base buf) size

/-- `toString(unsigned long long, unsigned char)`. -/
def toStringUnsignedLongLong (value : UInt64) (base : Nat) (buf : Destination) : Text :=
  let size := 1 + unsignedLongLongDigits
  assign (ulltoa value size base buf) size

/-! ## What is promised -/

def spelled (radix : Nat) (value : Int) : Text :=
  (if value < 0 then [45] else []) ++ ((Radix.numeral radix value.natAbs).map digitChar).reverse

def digitValue (b : UInt8) : Option Nat :=
  if 48 ≤ b ∧ b ≤ 57 then some (b.toNat - 48)
  else if 97 ≤ b ∧ b ≤ 122 then some (b.toNat - 87)
  else none

/-- The number that digits stand for; nothing, if one of them is no digit of the radix. -/
def magnitude (radix : Nat) (t : Text) : Option Nat :=
  t.foldl (fun result b => do
    let d ← digitValue b
    if d < radix then return (← result) * radix + d else none) (some 0)

def parsed (radix : Nat) (t : Text) : Option Int :=
  match t with
  | 45 :: t => (magnitude radix t).map fun (n : Nat) => -(n : Int)
  | t => (magnitude radix t).map fun (n : Nat) => (n : Int)

/-- Nothing outside of the destination is written; there is a result just when the text and the NUL
have room; and the result points at a text that stands for the number. -/
structure Formatted (radix : Nat) (value slen : Int) (result : Option Int × Destination) :
    Prop where
  inside : ∀ i ∈ result.2.written, 0 ≤ i ∧ i < slen
  fits : result.1.isSome = true ↔ ((spelled radix value).length : Int) + 1 ≤ slen
  text : ∀ i, result.1 = some i → ∃ t : Text, 0 ≤ i ∧ i + t.length + 1 = slen ∧
    result.2.Holds i (t ++ [0]) ∧ parsed radix t = some value

/-! ## Reading -/

variable {radix : Nat}

theorem digitValue_digitChar {d : Nat} (hd : d < 36) : digitValue (digitChar d) = some d := by
  revert hd
  revert d
  decide

theorem digitChar_ne {d : Nat} (hd : d < 36) : digitChar d ≠ 45 ∧ digitChar d ≠ 0 := by
  revert hd
  revert d
  decide

theorem magnitude_digits (hradix : radix ≤ 36) {ds : List Nat} (hds : ∀ d ∈ ds, d < radix) :
    magnitude radix (ds.map digitChar).reverse = some (Nat.ofDigits radix ds) := by
  induction ds with
  | nil => rfl
  | cons d ds ih =>
    have hd := hds d mem_cons_self
    rw [map_cons, reverse_cons, magnitude, foldl_append, ← magnitude,
      ih fun d' hd' => hds d' (mem_cons_of_mem d hd'), foldl_cons, foldl_nil,
      digitValue_digitChar (Nat.lt_of_lt_of_le hd hradix)]
    dsimp only [Bind.bind, Option.bind]
    rw [if_pos hd, Nat.ofDigits_cons, Nat.add_comm, Nat.mul_comm]
    rfl

theorem parsed_of_ne {t : Text} (ht : t.head? ≠ some 45) :
    parsed radix t = (magnitude radix t).map fun (n : Nat) => (n : Int) := by
  unfold parsed
  split
  · exact absurd rfl ht
  · rfl

theorem head_digits (hradix : 2 ≤ radix) (hle : radix ≤ 36) (n : Nat) :
    ((Radix.numeral radix n).map digitChar).reverse.head? ≠ some 45 := by
  intro hhead
  obtain ⟨d, hd, hchar⟩ := mem_map.mp (mem_reverse.mp (mem_of_head? hhead))
  have hlt := Radix.numeral_lt hradix hd
  exact (digitChar_ne (by omega)).1 hchar

/-- **The text stands for the number.** -/
theorem parsed_spelled (hradix : 2 ≤ radix) (hle : radix ≤ 36) (value : Int) :
    parsed radix (spelled radix value) = some value := by
  have hdigits : magnitude radix ((Radix.numeral radix value.natAbs).map digitChar).reverse =
      some value.natAbs := by
    rw [magnitude_digits hle fun d hd => Radix.numeral_lt hradix hd, Radix.ofDigits_numeral]
  unfold spelled
  by_cases hneg : value < 0
  · rw [if_pos hneg]
    have hparsed : parsed radix ([45] ++
        ((Radix.numeral radix value.natAbs).map digitChar).reverse) =
        (magnitude radix ((Radix.numeral radix value.natAbs).map digitChar).reverse).map
          fun (n : Nat) => -(n : Int) := rfl
    rw [hparsed, hdigits, Option.map_some]
    congr
    omega
  · rw [if_neg hneg, nil_append, parsed_of_ne (head_digits hradix hle _), hdigits,
      Option.map_some]
    congr
    omega

/-! ## Writing -/

namespace Destination

variable {m : Destination} {i : Int} {s t : Text}

theorem holds_append : m.Holds i (s ++ t) ↔ m.Holds i s ∧ m.Holds (i + s.length) t := by
  constructor
  · intro h
    constructor
    · intro j b hj
      refine h j b ?_
      rw [getElem?_append_left (List.getElem?_eq_some_iff.mp hj).1, hj]
    · intro j b hj
      have hat := h (s.length + j) b
      rw [getElem?_append_right (Nat.le_add_right _ _), Nat.add_sub_cancel_left] at hat
      have hat := hat hj
      rwa [Nat.cast_add, ← Int.add_assoc] at hat
  · rintro ⟨hs, ht⟩ j b hj
    by_cases hlt : j < s.length
    · rw [getElem?_append_left hlt] at hj
      exact hs j b hj
    · rw [getElem?_append_right (Nat.not_lt.mp hlt)] at hj
      have hat := ht (j - s.length) b hj
      have hplace : i + s.length + ((j - s.length : Nat) : Int) = i + j := by omega
      rwa [hplace] at hat

theorem holds_singleton {b : UInt8} : m.Holds i [b] ↔ m.mem i = b := by
  constructor
  · intro h
    have hat := h 0 b rfl
    rwa [Nat.cast_zero, Int.add_zero] at hat
  · intro h j b' hj
    cases j with
    | zero =>
      obtain rfl := Option.some.inj hj
      rw [Nat.cast_zero, Int.add_zero, h]
    | succ j => cases hj

end Destination

open Destination

/-- The memory after the loop, with room for `k` digits in front of `str`. -/
structure Filled (radix val k : Nat) (str : Int) (m : Destination) (r : Nat × Int × Destination) :
    Prop where
  rest : r.1 = 0 ↔ (Radix.numeral radix val).length ≤ k
  place : r.2.1 = str - ((Radix.numeral radix val).take k).length
  holds : r.2.2.Holds r.2.1 (((Radix.numeral radix val).take k).map digitChar).reverse
  above : ∀ i, str ≤ i → r.2.2.mem i = m.mem i
  written : ∀ i ∈ r.2.2.written, i ∈ m.written ∨ str - k ≤ i ∧ i < str

/-- **As many digits as there is room for**, or all there are. -/
theorem ulltoaLoop_filled (hradix : 2 ≤ radix) {rounds val k : Nat} (hrounds : val < radix ^ rounds)
    (hpos : 0 < rounds) (hk : 0 < k) (str : Int) (m : Destination) :
    Filled radix val k str m (ulltoaLoop radix rounds val k str m) := by
  induction rounds generalizing val k str m with
  | zero => cases hpos
  | succ rounds ih =>
    obtain ⟨k, rfl⟩ : ∃ k', k = k' + 1 := ⟨k - 1, by omega⟩
    have hroom : ((k + 1 : Nat) : Int) - 1 = k := by omega
    have hat : (m.store (str - 1) (digitChar (val % radix))).mem (str - 1) =
        digitChar (val % radix) := if_pos rfl
    have habove : ∀ i, str ≤ i →
        (m.store (str - 1) (digitChar (val % radix))).mem i = m.mem i := by
      intro i hi
      exact if_neg (by omega)
    rw [ulltoaLoop, hroom]
    by_cases hmore : (k : Int) ≠ 0 ∧ val / radix ≠ 0
    · have hhigh : val / radix < radix ^ rounds :=
        Nat.div_lt_of_lt_mul (by rwa [Nat.mul_comm, ← Nat.pow_succ])
      have hnext : 0 < rounds := by
        refine Nat.pos_of_ne_zero fun hzero => hmore.2 ?_
        rw [hzero, Nat.pow_zero] at hhigh
        exact Nat.lt_one_iff.mp hhigh
      have hroom' : 0 < k := by omega
      have hfilled := ih hhigh hnext hroom' (str - 1)
        (m.store (str - 1) (digitChar (val % radix)))
      have hnumeral : Radix.numeral radix val =
          val % radix :: Radix.numeral radix (val / radix) := by
        rw [Radix.numeral_eq hradix, if_neg hmore.2]
      rw [if_pos hmore]
      generalize ulltoaLoop radix rounds (val / radix) k (str - 1)
        (m.store (str - 1) (digitChar (val % radix))) = r at hfilled
      obtain ⟨hrest, hplace, hholds, hkept, hwritten⟩ := hfilled
      constructor
      · grind
      · grind
      · rw [hnumeral, take_succ_cons, map_cons, reverse_cons, holds_append]
        refine ⟨hholds, holds_singleton.mpr ?_⟩
        have hlast : r.2.1 + (((Radix.numeral radix (val / radix)).take k).map
            digitChar).reverse.length = str - 1 := by grind
        rw [hlast, hkept _ (Int.le_refl _), hat]
      · intro i hi
        rw [hkept i (by omega), habove i hi]
      · intro i hi
        rcases hwritten i hi with hi | hi
        · rcases mem_cons.mp hi with rfl | hi
          · exact .inr ⟨by omega, by omega⟩
          · exact .inl hi
        · exact .inr ⟨by omega, by omega⟩
    · -- The first digit is the last one that is written.
      have hone : (Radix.numeral radix val).take (k + 1) = [val % radix] := by
        rw [Radix.numeral_eq hradix, take_succ_cons]
        by_cases hlast : val / radix = 0
        · rw [if_pos hlast, take_nil]
        · have hzero : k = 0 := by
            by_contra hne
            exact hmore ⟨by omega, hlast⟩
          rw [hzero, take_zero]
      rw [if_neg hmore]
      constructor
      · rw [Radix.numeral_eq hradix, length_cons]
        dsimp only
        by_cases hlast : val / radix = 0
        · grind
        · have hzero : k = 0 := by
            by_contra hne
            exact hmore ⟨by omega, hlast⟩
          have hsome := length_pos_iff.mpr (Radix.numeral_ne_nil hradix (val / radix))
          rw [if_neg hlast]
          exact iff_of_false hlast (by omega)
      · rw [hone]
        rfl
      · rw [hone]
        exact holds_singleton.mpr hat
      · exact habove
      · intro i hi
        rcases mem_cons.mp hi with rfl | hi
        · exact .inr ⟨by omega, by omega⟩
        · exact .inl hi

theorem written_ulltoaLoop (radix rounds val : Nat) (slen str : Int) {m : Destination} {i : Int}
    (hi : i ∈ m.written) : i ∈ (ulltoaLoop radix rounds val slen str m).2.2.written := by
  induction rounds generalizing val slen str m with
  | zero => exact hi
  | succ rounds ih =>
    rw [ulltoaLoop]
    split
    · exact ih _ _ _ (mem_cons_of_mem _ hi)
    · exact mem_cons_of_mem _ hi

theorem written_ulltoa (val : UInt64) (slen : Int) (radix : Nat) (m : Destination) :
    slen - 2 ∈ (ulltoa val slen radix m).2.written := by
  have hfirst : ∀ (rounds val : Nat) (slen str : Int) (m : Destination),
      str - 1 ∈ (ulltoaLoop radix (rounds + 1) val slen str m).2.2.written := by
    intro rounds val slen str m
    have hstored : str - 1 ∈ (m.store (str - 1) (digitChar (val % radix))).written :=
      mem_cons_self
    rw [ulltoaLoop]
    split
    · exact written_ulltoaLoop _ _ _ _ _ hstored
    · exact hstored
  have hplace : slen - 2 = slen - 1 - 1 := by omega
  rw [hplace]
  exact hfirst 63 val.toNat (slen - 1) (slen - 1) (m.store (slen - 1) 0)

structure Written (radix n : Nat) (slen : Int) (m : Destination)
    (result : Option Int × Destination) : Prop where
  inside : ∀ i ∈ result.2.written, i ∈ m.written ∨ 0 ≤ i ∧ i < slen
  fits : result.1.isSome = true ↔ ((Radix.numeral radix n).length : Int) + 1 ≤ slen
  text : ∀ i, result.1 = some i → i + (Radix.numeral radix n).length + 1 = slen ∧
    result.2.Holds i (((Radix.numeral radix n).map digitChar).reverse ++ [0])

variable {slen : Int}

theorem ulltoa_written (hradix : 2 ≤ radix) (val : UInt64) (hslen : 2 ≤ slen)
    (m : Destination) : Written radix val.toNat slen m (ulltoa val slen radix m) := by
  obtain ⟨k, hk⟩ : ∃ k : Nat, slen - 1 = k := ⟨(slen - 1).toNat, by omega⟩
  have hrounds : val.toNat < radix ^ 64 :=
    Nat.lt_of_lt_of_le val.toNat_lt (Nat.pow_le_pow_left hradix 64)
  have hfilled := ulltoaLoop_filled hradix hrounds (by decide) (k := k) (by omega) (slen - 1)
    (m.store (slen - 1) 0)
  unfold ulltoa
  dsimp only
  rw [← hk] at hfilled
  generalize ulltoaLoop radix 64 val.toNat (slen - 1) (slen - 1) (m.store (slen - 1) 0) = r
    at hfilled
  obtain ⟨hrest, hplace, hholds, hkept, hwritten⟩ := hfilled
  constructor
  · intro i hi
    rcases hwritten i hi with hi | hi
    · rcases mem_cons.mp hi with rfl | hi
      · exact .inr ⟨by omega, by omega⟩
      · exact .inl hi
    · exact .inr ⟨by omega, by omega⟩
  · dsimp only
    by_cases hfits : (Radix.numeral radix val.toNat).length ≤ k
    · grind
    · grind
  · intro i hi
    dsimp only at hi ⊢
    split at hi
    · cases hi
    · rename_i hzero
      have hfits := hrest.mp (not_not.mp hzero)
      have hstart : r.2.1 = i := Option.some.inj hi
      rw [take_of_length_le hfits] at hplace hholds
      rw [← hstart]
      refine ⟨by omega, holds_append.mpr ⟨hholds, holds_singleton.mpr ?_⟩⟩
      have hend : r.2.1 + ((Radix.numeral radix val.toNat).map digitChar).reverse.length =
          slen - 1 := by grind
      rw [hend, hkept _ (Int.le_refl _)]
      exact if_pos rfl

/-! ## Signed numbers -/

theorem toNat_magnitude (val : Int64) :
    (if val < 0 then -val else val).toUInt64.toNat = val.toInt.natAbs := by
  have hint : val.toInt = val.toBitVec.toInt := rfl
  have hnat : ∀ w : Int64, w.toUInt64.toNat = w.toBitVec.toNat := fun _ => rfl
  have hlt := val.toBitVec.isLt
  rw [hnat, hint, BitVec.toInt_eq_toNat_cond]
  by_cases hneg : val < 0
  · have hbits : val.toInt < 0 := by simpa using Int64.lt_iff_toInt_lt.mp hneg
    rw [hint, BitVec.toInt_eq_toNat_cond] at hbits
    rw [if_pos hneg, Int64.toBitVec_neg, BitVec.toNat_neg]
    split at hbits
    all_goals omega
  · have hbits : ¬ val.toInt < 0 :=
      fun hlt => hneg (Int64.lt_iff_toInt_lt.mpr (by simpa using hlt))
    rw [hint, BitVec.toInt_eq_toNat_cond] at hbits
    rw [if_neg hneg]
    split at hbits
    all_goals omega

theorem neg_iff (val : Int64) : val < 0 ↔ val.toInt < 0 := by
  rw [Int64.lt_iff_toInt_lt]
  rfl

theorem length_spelled (radix : Nat) (value : Int) : (spelled radix value).length =
    (if value < 0 then 1 else 0) + (Radix.numeral radix value.natAbs).length := by
  rw [spelled, length_append, length_reverse, length_map]
  split
  all_goals rfl

/-- What `lltoa` makes of a destination with a place or more for digits. -/
structure Spelled (radix : Nat) (value slen : Int) (m : Destination)
    (result : Option Int × Destination) : Prop where
  inside : ∀ i ∈ result.2.written, i ∈ m.written ∨ 0 ≤ i ∧ i < slen
  fits : result.1.isSome = true ↔ ((spelled radix value).length : Int) + 1 ≤ slen
  text : ∀ i, result.1 = some i → 0 ≤ i ∧ i + (spelled radix value).length + 1 = slen ∧
    result.2.Holds i (spelled radix value ++ [0])

theorem ulltoa_spelled (hradix : 2 ≤ radix) (val : UInt64) (hslen : 2 ≤ slen)
    (m : Destination) : Spelled radix val.toNat slen m (ulltoa val slen radix m) := by
  have hwritten := ulltoa_written hradix val hslen m
  have hspelled : spelled radix val.toNat =
      ((Radix.numeral radix val.toNat).map digitChar).reverse := by
    rw [spelled, if_neg (by omega), nil_append, Int.natAbs_natCast]
  have hlength : (spelled radix val.toNat).length = (Radix.numeral radix val.toNat).length := by
    rw [hspelled, length_reverse, length_map]
  refine ⟨hwritten.inside, ?_, fun i hi => ?_⟩
  · rw [hlength]
    exact hwritten.fits
  · obtain ⟨hend, hholds⟩ := hwritten.text i hi
    have hfits := hwritten.fits.mp (Option.isSome_of_eq_some hi)
    rw [hlength, hspelled]
    exact ⟨by omega, hend, hholds⟩

theorem lltoa_spelled (hradix : 2 ≤ radix) (val : Int64) (hslen : 2 ≤ slen)
    (m : Destination) : Spelled radix val.toInt slen m (lltoa val slen radix m) := by
  have hwritten := ulltoa_written hradix (if val < 0 then -val else val).toUInt64 hslen m
  rw [toNat_magnitude] at hwritten
  unfold lltoa
  dsimp only
  generalize ulltoa (if val < 0 then -val else val).toUInt64 slen radix m = r at hwritten
  obtain ⟨ret, m'⟩ := r
  obtain ⟨hinside, hfits, htext⟩ := hwritten
  dsimp only at hinside hfits htext
  by_cases hneg : val < 0
  · have hnegative := (neg_iff val).mp hneg
    have hlength : (spelled radix val.toInt).length =
        1 + (Radix.numeral radix val.toInt.natAbs).length := by
      rw [length_spelled, if_pos hnegative]
    rw [if_pos (decide_eq_true hneg)]
    cases ret with
    | none =>
      have hnone : ¬ ((Radix.numeral radix val.toInt.natAbs).length : Int) + 1 ≤ slen :=
        fun hle => Bool.false_ne_true (hfits.mpr hle)
      refine ⟨hinside, iff_of_false Bool.false_ne_true (by omega), ?_⟩
      rintro i ⟨⟩
    | some ret =>
      obtain ⟨hend, hholds⟩ := htext ret rfl
      have hroom := hfits.mp rfl
      dsimp only
      by_cases hfull : ret = 0
      · rw [if_pos hfull]
        refine ⟨hinside, iff_of_false Bool.false_ne_true (by omega), ?_⟩
        rintro i ⟨⟩
      · rw [if_neg hfull]
        refine ⟨fun i hi => ?_, iff_of_true rfl (by omega), fun i hi => ?_⟩
        · rcases mem_cons.mp hi with rfl | hi
          · exact .inr ⟨by omega, by omega⟩
          · exact hinside i hi
        · have hstart : ret - 1 = i := Option.some.inj hi
          rw [← hstart]
          refine ⟨by omega, by omega, ?_⟩
          rw [spelled, if_pos hnegative, append_assoc, holds_append]
          refine ⟨holds_singleton.mpr (if_pos rfl), ?_⟩
          have hnext : ret - 1 + (([45] : Text).length : Int) = ret := by grind
          rw [hnext]
          intro j b hj
          have hkept : (m'.store (ret - 1) 45).mem (ret + j) = m'.mem (ret + j) :=
            if_neg (by omega)
          rw [hkept]
          exact hholds j b hj
  · have hpositive : ¬ val.toInt < 0 := fun hlt => hneg ((neg_iff val).mpr hlt)
    have hspelled : spelled radix val.toInt =
        ((Radix.numeral radix val.toInt.natAbs).map digitChar).reverse := by
      rw [spelled, if_neg hpositive, nil_append]
    have hlength : (spelled radix val.toInt).length =
        (Radix.numeral radix val.toInt.natAbs).length := by
      rw [length_spelled, if_neg hpositive, Nat.zero_add]
    rw [if_neg (by rw [decide_eq_true_eq]; exact hneg)]
    refine ⟨hinside, ?_, fun i hi => ?_⟩
    · rw [hlength]
      exact hfits
    · obtain ⟨hend, hholds⟩ := htext i hi
      have hroom := hfits.mp (Option.isSome_of_eq_some hi)
      rw [hlength, hspelled]
      exact ⟨by omega, hend, hholds⟩

theorem written_lltoa (val : Int64) (slen : Int) (radix : Nat) (m : Destination) :
    slen - 2 ∈ (lltoa val slen radix m).2.written := by
  have hfirst := written_ulltoa (if val < 0 then -val else val).toUInt64 slen radix m
  unfold lltoa
  dsimp only
  generalize ulltoa (if val < 0 then -val else val).toUInt64 slen radix m = r at hfirst
  obtain ⟨ret, m'⟩ := r
  split
  · split
    · exact hfirst
    · split
      · exact hfirst
      · exact mem_cons_of_mem _ hfirst
  · exact hfirst

/-! ## Destinations that are large enough -/

def Destination.fresh (mem : Int → UInt8) : Destination := ⟨mem, []⟩

variable {result : Option Int × Destination}

theorem Spelled.formatted (hradix : 2 ≤ radix) (hle : radix ≤ 36) {value : Int}
    {mem : Int → UInt8}
    (h : Spelled radix value slen (.fresh mem) result) : Formatted radix value slen result where
  inside := fun i hi => (h.inside i hi).resolve_left (by rintro ⟨⟩)
  fits := h.fits
  text := by
    intro i hi
    obtain ⟨hpos, hend, hholds⟩ := h.text i hi
    exact ⟨_, hpos, hend, hholds, parsed_spelled hradix hle value⟩

theorem not_formatted {value : Int} (hslen : slen < 2)
    (hfirst : slen - 2 ∈ result.2.written) : ¬ Formatted radix value slen result := by
  intro h
  have hinside := h.inside _ hfirst
  omega

theorem cstringAt_holds {m : Destination} {t : Text} (ht : (0 : UInt8) ∉ t) {bytes : Nat} {i : Int}
    (hbytes : t.length < bytes) (h : m.Holds i (t ++ [0])) : cstringAt m bytes i = t := by
  induction t generalizing bytes i with
  | nil =>
    obtain ⟨bytes, rfl⟩ : ∃ n, bytes = n + 1 := ⟨bytes - 1, by omega⟩
    have hzero : m.mem i = 0 := holds_singleton.mp h
    rw [cstringAt, if_pos hzero]
  | cons b t ih =>
    obtain ⟨bytes, rfl⟩ : ∃ n, bytes = n + 1 := ⟨bytes - 1, by omega⟩
    have happend : m.Holds i ([b] ++ (t ++ [0])) := h
    obtain ⟨hfirst, hrest⟩ := holds_append.mp happend
    have hfirst := holds_singleton.mp hfirst
    have hne : b ≠ 0 := fun hb => ht (hb ▸ mem_cons_self)
    have hrest : m.Holds (i + 1) (t ++ [0]) := hrest
    have hlen : t.length < bytes := by grind
    rw [cstringAt, hfirst, if_neg hne, ih (fun hmem => ht (mem_cons_of_mem b hmem)) hlen hrest]

theorem zero_not_mem_spelled (hradix : 2 ≤ radix) (hle : radix ≤ 36) (value : Int) :
    (0 : UInt8) ∉ spelled radix value := by
  intro hmem
  rcases mem_append.mp hmem with hmem | hmem
  · split at hmem
    · exact absurd (mem_singleton.mp hmem) (by decide)
    · cases hmem
  · obtain ⟨d, hd, hchar⟩ := mem_map.mp (mem_reverse.mp hmem)
    have hlt := Radix.numeral_lt hradix hd
    exact (digitChar_ne (by omega)).2 hchar

theorem Spelled.assigned (hradix : 2 ≤ radix) (hle : radix ≤ 36) {value : Int} {size : Nat}
    {mem : Int → UInt8}
    (h : Spelled radix value size (.fresh mem) result) :
    assign result size = spelled radix value ↔ (spelled radix value).length < size := by
  unfold assign
  cases hret : result.1 with
  | none =>
    have hfits : ¬ ((spelled radix value).length : Int) + 1 ≤ size := by
      rw [← h.fits, hret]
      exact Bool.false_ne_true
    have hsome := length_pos_iff.mpr (Radix.numeral_ne_nil hradix value.natAbs)
    have hlength := length_spelled radix value
    refine iff_of_false (fun hnil => ?_) (by omega)
    rw [← hnil, length_nil] at hlength
    omega
  | some i =>
    obtain ⟨hpos, hend, hholds⟩ := h.text i hret
    refine iff_of_true ?_ (by omega)
    exact cstringAt_holds (zero_not_mem_spelled hradix hle value) (by omega) hholds

/-- **The longest texts**: the least value to the base 2 takes 65 characters, and all others
64 at most. -/
theorem length_spelled_lt_iff (hradix : 2 ≤ radix) (value : Int64) :
    (spelled radix value.toInt).length < 65 ↔ ¬ (value = Int64.minValue ∧ radix = 2) := by
  have hlow := value.le_toInt
  have hhigh := value.toInt_lt
  have hmin : Int64.minValue.toInt = -2 ^ 63 := by decide
  have heq : value = Int64.minValue ↔ value.toInt = -2 ^ 63 := by
    rw [← hmin, Int64.toInt_inj]
  rw [length_spelled, heq]
  by_cases hneg : value.toInt < 0
  · have hdigits : (Radix.numeral radix value.toInt.natAbs).length ≤ 63 ↔
        value.toInt.natAbs < radix ^ 63 := Radix.length_numeral_le_iff hradix (by decide)
    rw [if_pos hneg]
    have hle : (1 + (Radix.numeral radix value.toInt.natAbs).length < 65) ↔
        (Radix.numeral radix value.toInt.natAbs).length ≤ 63 := by omega
    rw [hle, hdigits]
    by_cases htwo : radix = 2
    · rw [htwo]
      omega
    · have hpow : 3 ^ 63 ≤ radix ^ 63 := Nat.pow_le_pow_left (by omega) 63
      have hwide : (2 : Nat) ^ 63 < 3 ^ 63 := by decide
      refine iff_of_true ?_ fun hboth => htwo hboth.2
      omega
  · have hdigits : (Radix.numeral radix value.toInt.natAbs).length ≤ 64 ↔
        value.toInt.natAbs < radix ^ 64 := Radix.length_numeral_le_iff hradix (by decide)
    have hpow : 2 ^ 64 ≤ radix ^ 64 := Nat.pow_le_pow_left hradix 64
    rw [if_neg hneg]
    refine iff_of_true ?_ fun hboth => ?_
    · have hle := hdigits.mpr (by omega)
      omega
    · omega

theorem length_spelled_unsigned (hradix : 2 ≤ radix) (value : UInt64) :
    (spelled radix value.toNat).length < 65 := by
  have hpow : 2 ^ 64 ≤ radix ^ 64 := Nat.pow_le_pow_left hradix 64
  have hdigits := (Radix.length_numeral_le_iff hradix (by decide)).mpr
    (Nat.lt_of_lt_of_le value.toNat_lt hpow)
  rw [length_spelled, if_neg (by omega), Int.natAbs_natCast]
  omega

/-- **When numbers come out right**: in a destination of two bytes or more, whatever the value; and
from the constructors always, but for the least value to the base 2. -/
theorem numbers_formatted_iff (radix : Nat) (hradix : 2 ≤ radix ∧ radix ≤ 36)
    (mem : Int → UInt8) :
    (∀ (val : UInt64) (slen : Int),
      Formatted radix val.toNat slen (ulltoa val slen radix (.fresh mem)) ↔ 2 ≤ slen) ∧
    (∀ (val : Int64) (slen : Int),
      Formatted radix val.toInt slen (lltoa val slen radix (.fresh mem)) ↔ 2 ≤ slen) ∧
    (∀ value : UInt64,
      toStringUnsignedLongLong value radix (.fresh mem) = spelled radix value.toNat) ∧
    ∀ value : Int64, toStringLongLong value radix (.fresh mem) = spelled radix value.toInt ↔
      ¬ (value = Int64.minValue ∧ radix = 2) := by
  obtain ⟨hradix, hle⟩ := hradix
  refine ⟨fun val slen => ?_, fun val slen => ?_, fun value => ?_, fun value => ?_⟩
  · by_cases hslen : 2 ≤ slen
    · exact iff_of_true ((ulltoa_spelled hradix val hslen _).formatted hradix hle) hslen
    · exact iff_of_false (not_formatted (Int.not_le.mp hslen) (written_ulltoa _ _ _ _)) hslen
  · by_cases hslen : 2 ≤ slen
    · exact iff_of_true ((lltoa_spelled hradix val hslen _).formatted hradix hle) hslen
    · exact iff_of_false (not_formatted (Int.not_le.mp hslen) (written_lltoa _ _ _ _)) hslen
  · exact ((ulltoa_spelled hradix value (by decide) _).assigned hradix hle).mpr
      (length_spelled_unsigned hradix value)
  · exact ((lltoa_spelled hradix value (by decide) _).assigned hradix hle).trans
      (length_spelled_lt_iff hradix value)

theorem numbers_formatted_iff_hex :
    Formatted 16 255 3 (ulltoa 255 3 16 (.fresh fun _ => 170)) ∧
      toStringLongLong (-255) 16 (.fresh fun _ => 170) = spelled 16 (-255) := by
  have h := numbers_formatted_iff 16 (by decide) fun _ => 170
  exact ⟨(h.1 255 3).mpr (by decide), (h.2.2.2 (-255)).mpr (by decide)⟩

/-- **The least value to the base 2** comes out of the constructor as an empty text, and a
destination of one byte is written in front of its start. -/
theorem not_numbers_formatted :
    toStringLongLong Int64.minValue 2 (.fresh fun _ => 0) = [] ∧
      ¬ Formatted 10 7 1 (ulltoa 7 1 10 (.fresh fun _ => 0)) := by
  refine ⟨?_, not_formatted (by decide) (written_ulltoa _ _ _ _)⟩
  decide +kernel

end StdlibNoniso
