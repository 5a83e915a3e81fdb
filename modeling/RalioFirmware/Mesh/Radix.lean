import RalioFirmware.Basis.Radix
import RalioFirmware.Core.TypeConversion
import RalioFirmware.Mesh.FloodingMesh

/-!
# Numbers of the mesh, to any base

The mesh writes numbers of 64 bits with the digits of the core, and reads them with its values of
characters.  What it reads may come from any node, and is looked up whatever it is.
-/

namespace MeshTypeConversionFunctions

open Http TypeConversion

/-! ## The conversions -/

/-- The loop of `uint64ToString`: the last digit comes first.  The base 16 has a loop of its own,
with shifts. -/
def digitLoop (base : Nat) : Nat → Nat → Except Fault Text
  | 0, _ => .ok []
  | rounds + 1, number => do
    let c ← digitChar (number % base)
    let number := if base = 16 then number >>> 4 else number / base
    if number = 0 then return [c]
    return c :: (← digitLoop base rounds number)

def uint64ToString (number base : Nat) : Except Fault Text :=
  if 2 ≤ base ∧ base ≤ 36 then (digitLoop base 64 number).map List.reverse
  else .error .assertFailed

/-- The loop of `stringToUint64`. -/
def valueLoop (base : Nat) : Text → Nat → Except Fault Nat
  | [], result => .ok result
  | c :: string, result => do
    let result := if base = 16 then result <<< 4 % 2 ^ 64 else result * base % 2 ^ 64
    let value ← charValue c
    valueLoop base string ((result + value.toNat) % 2 ^ 64)

def stringToUint64 (string : Text) (base : Nat) : Except Fault Nat :=
  if 2 ≤ base ∧ base ≤ 36 then valueLoop base string 0 else .error .assertFailed

def StaysInside (result : Except Fault Nat) : Prop := result ≠ .error .outsideTable

/-! ## Writing -/

variable {base number : Nat}

theorem digitLoop_eq (hbase : 2 ≤ base) (hle : base ≤ 36) {rounds : Nat}
    (hrounds : number < base ^ rounds) (hpos : 0 < rounds) :
    digitLoop base rounds number = .ok ((Radix.numeral base number).map upperDigit) := by
  induction rounds generalizing number with
  | zero => cases hpos
  | succ rounds ih =>
    have hdigit : number % base < base := Nat.mod_lt _ (by omega)
    have hnext : (if base = 16 then number >>> 4 else number / base) = number / base := by
      split
      · rename_i h16
        rw [h16, Nat.shiftRight_eq_div_pow]
      · rfl
    rw [digitLoop, digitChar_eq (by omega), hnext, Radix.numeral_eq (by omega)]
    dsimp only [Bind.bind, Except.bind]
    by_cases hlast : number / base = 0
    · rw [if_pos hlast, if_pos hlast]
      rfl
    · have hhigh : number / base < base ^ rounds :=
        Nat.div_lt_of_lt_mul (by rwa [Nat.mul_comm, ← Nat.pow_succ])
      have hmore : 0 < rounds := by
        refine Nat.pos_of_ne_zero fun hzero => hlast ?_
        rw [hzero, Nat.pow_zero] at hhigh
        omega
      rw [if_neg hlast, if_neg hlast, ih hhigh hmore]
      rfl

theorem uint64ToString_eq (hbase : 2 ≤ base) (hle : base ≤ 36) (hnumber : number < 2 ^ 64) :
    uint64ToString number base = .ok ((Radix.numeral base number).reverse.map upperDigit) := by
  have hrounds : number < base ^ 64 := Nat.lt_of_lt_of_le hnumber (Nat.pow_le_pow_left hbase 64)
  rw [uint64ToString, if_pos ⟨hbase, hle⟩, digitLoop_eq hbase hle hrounds (by decide),
    List.map_reverse]
  rfl

/-! ## Reading -/

theorem valueLoop_cons (base : Nat) {c : UInt8} {d : Nat} (hc : charValue c = .ok (UInt8.ofNat d))
    (hd : d < 36) (string : Text) (result : Nat) : valueLoop base (c :: string) result =
      valueLoop base string ((result * base + d) % 2 ^ 64) := by
  have hshifted : (if base = 16 then result <<< 4 % 2 ^ 64 else result * base % 2 ^ 64) =
      result * base % 2 ^ 64 := by
    split
    · rename_i h16
      rw [h16, Nat.shiftLeft_eq]
    · rfl
  have hvalue : (UInt8.ofNat d).toNat = d := by
    rw [UInt8.toNat_ofNat']
    omega
  rw [valueLoop, hc, hshifted]
  dsimp only [Bind.bind, Except.bind]
  rw [hvalue, Nat.mod_add_mod]

theorem valueLoop_digits (base : Nat) {ds : List Nat} (hds : ∀ d ∈ ds, d < 36) (result : Nat) :
    valueLoop base (ds.map upperDigit) result =
      .ok (ds.foldl (fun result d => (result * base + d) % 2 ^ 64) result) := by
  induction ds generalizing result with
  | nil => rfl
  | cons d ds ih =>
    have hd := hds d List.mem_cons_self
    rw [List.map_cons, valueLoop_cons base (charValue_upperDigit hd) hd,
      ih fun d' hd' => hds d' (List.mem_cons_of_mem d hd')]
    rfl

theorem valueLoop_inside_iff (base : Nat) (string : Text) (result : Nat) :
    StaysInside (valueLoop base string result) ↔ ∀ c ∈ string, 48 ≤ c ∧ c ≤ 122 := by
  induction string generalizing result with
  | nil => exact iff_of_true (fun h => by cases h) (by rintro c ⟨⟩)
  | cons c string ih =>
    rw [List.forall_mem_cons, valueLoop, ← charValue_ok_iff]
    cases hc : charValue c with
    | ok value => exact (ih _).trans (iff_and_self.mpr fun _ => rfl)
    | error fault =>
      have hfault : fault = .outsideTable := by
        rw [charValue, pgm_read_byte] at hc
        split at hc
        · cases hc
          rfl
        · split at hc
          · cases hc
            rfl
          · cases hc
      rw [hfault]
      exact iff_of_false (fun h => h rfl) fun h => Bool.false_ne_true h.1

theorem stringToUint64_inside_iff (string : Text) (base : Nat) :
    StaysInside (stringToUint64 string base) ↔
      (2 ≤ base ∧ base ≤ 36 → ∀ c ∈ string, 48 ≤ c ∧ c ≤ 122) := by
  rw [stringToUint64]
  by_cases hbase : 2 ≤ base ∧ base ≤ 36
  · rw [if_pos hbase, valueLoop_inside_iff]
    exact ⟨fun h _ => h, fun h => h hbase⟩
  · rw [if_neg hbase]
    exact iff_of_true (fun h => by cases h) fun h => absurd h hbase

/-- **A number is read as it was written**, to every base; and a text is looked up inside of the
table just when its characters are among those from `'0'` to `'z'`. -/
theorem radix_round_trip_iff (base : Nat) (hbase : 2 ≤ base ∧ base ≤ 36) :
    (∀ value < 2 ^ 64, ∃ string, uint64ToString value base = .ok string ∧
      stringToUint64 string base = .ok value) ∧
    ∀ string : Text, StaysInside (stringToUint64 string base) ↔
      ∀ c ∈ string, 48 ≤ c ∧ c ≤ 122 := by
  constructor
  · intro value hvalue
    refine ⟨_, uint64ToString_eq hbase.1 hbase.2 hvalue, ?_⟩
    rw [stringToUint64, if_pos hbase, valueLoop_digits base, Radix.foldl_reverse_numeral hvalue]
    intro d hd
    exact Nat.lt_of_lt_of_le (Radix.numeral_lt (by omega) (List.mem_reverse.mp hd)) hbase.2
  · intro string
    exact (stringToUint64_inside_iff string base).trans ⟨fun h => h hbase, fun h _ => h⟩

theorem radix_round_trip_iff_hex :
    (∃ string, uint64ToString 48879 16 = .ok string ∧ stringToUint64 string 16 = .ok 48879) ∧
      StaysInside (stringToUint64 [98, 69, 101, 102] 16) := by
  have hin : ∀ c ∈ ([98, 69, 101, 102] : Text), 48 ≤ c ∧ c ≤ 122 := by simp
  exact ⟨(radix_round_trip_iff 16 (by decide)).1 48879 (by decide),
    ((radix_round_trip_iff 16 (by decide)).2 _).mpr hin⟩

/-- **A space** is looked up in front of the table. -/
theorem not_radix_round_trip : ¬ ∀ base, 2 ≤ base ∧ base ≤ 36 →
    (∀ value < 2 ^ 64, ∃ string, uint64ToString value base = .ok string ∧
      stringToUint64 string base = .ok value) ∧
    ∀ string : Text, StaysInside (stringToUint64 string base) :=
  fun hclaim => (hclaim 16 (by decide)).2 [32] (by decide)

/-! ## To the base 16 -/

end MeshTypeConversionFunctions
