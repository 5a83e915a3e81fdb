import Mathlib.Data.Nat.Digits.Lemmas

/-!
# Numerals

A loop that divides a number by a base until nothing is left writes the digits of the number, the
last one first; of zero it writes a digit too.  Read again, the digits stand for the number, in as
many bits as the number has room in.
-/

namespace Radix

variable {base n d : Nat}

/-- The digits of a number, the last one first, of which there is at least one. -/
def numeral (base n : Nat) : List Nat := if n = 0 then [0] else Nat.digits base n

theorem numeral_eq (hbase : 1 < base) (n : Nat) :
    numeral base n = n % base :: if n / base = 0 then [] else numeral base (n / base) := by
  unfold numeral
  by_cases hzero : n = 0
  · rw [if_pos hzero, hzero, Nat.zero_mod, Nat.zero_div, if_pos rfl]
  · rw [if_neg hzero, Nat.digits_def' hbase (Nat.pos_of_ne_zero hzero)]
    by_cases hlast : n / base = 0
    · rw [if_pos hlast, hlast, Nat.digits_zero]
    · rw [if_neg hlast, if_neg hlast]

theorem ofDigits_numeral (base n : Nat) : Nat.ofDigits base (numeral base n) = n := by
  unfold numeral
  by_cases hzero : n = 0
  · rw [if_pos hzero, hzero]
    rfl
  · rw [if_neg hzero, Nat.ofDigits_digits]

theorem numeral_lt (hbase : 1 < base) (hd : d ∈ numeral base n) : d < base := by
  unfold numeral at hd
  by_cases hzero : n = 0
  · grind
  · rw [if_neg hzero] at hd
    exact Nat.digits_lt_base hbase hd

theorem numeral_ne_nil (hbase : 1 < base) (n : Nat) : numeral base n ≠ [] := by
  rw [numeral_eq hbase]
  exact List.cons_ne_nil _ _

/-- **How many digits** a number takes. -/
theorem length_numeral_le_iff (hbase : 1 < base) {k : Nat} (hk : 0 < k) :
    (numeral base n).length ≤ k ↔ n < base ^ k := by
  unfold numeral
  by_cases hzero : n = 0
  · grind
  · rw [if_neg hzero]
    exact Nat.digits_length_le_iff hbase n

theorem foldl_reverse_numeral {bound : Nat} (hn : n < bound) (base : Nat) :
    (numeral base n).reverse.foldl (fun result d => (result * base + d) % bound) 0 = n := by
  have hread : ∀ ds : List Nat, Nat.ofDigits base ds < bound →
      ds.foldr (fun d result => (result * base + d) % bound) 0 = Nat.ofDigits base ds := by
    intro ds
    induction ds with
    | nil => intro _; rfl
    | cons d ds ih =>
      intro hlt
      rw [Nat.ofDigits_cons] at hlt ⊢
      by_cases hbase : base = 0
      · rw [hbase, Nat.zero_mul, Nat.add_zero] at hlt ⊢
        rw [List.foldr_cons, Nat.mul_zero, Nat.zero_add, Nat.mod_eq_of_lt hlt]
      · have hle : Nat.ofDigits base ds ≤ base * Nat.ofDigits base ds :=
          Nat.le_mul_of_pos_left _ (Nat.pos_of_ne_zero hbase)
        rw [List.foldr_cons, ih (by omega), Nat.mul_comm _ base, Nat.add_comm _ d,
          Nat.mod_eq_of_lt hlt]
  have hvalue := ofDigits_numeral base n
  rw [List.foldl_reverse, hread _ (by rw [hvalue]; exact hn), hvalue]

end Radix
