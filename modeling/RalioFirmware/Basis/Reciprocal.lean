import Mathlib.Tactic.Ring

/-!
# Division by a multiplication

A number is divided by `d` when it is multiplied with a reciprocal `k` of `d`, a little too large,
and the product divided by a power that costs nothing.  Where a number and its reciprocal are of two
words each, the product is summed word by word.
-/

namespace Reciprocal

/-- **The quotient is exact** as long as what the reciprocal is too large by adds up to less than
the power: `k * d = w + e`, and `n * e < w`. -/
theorem mul_div_eq {d k w e n : Nat} (hk : k * d = w + e) (hn : n * e < w) :
    n * k / w = n / d := by
  have hd : 0 < d := by grind
  have hprod : n * k * d = n * w + n * e := by
    rw [Nat.mul_assoc, hk, Nat.mul_add]
  have hlow : n / d * d ≤ n := Nat.div_mul_le_self n d
  have hhigh : n + 1 ≤ (n / d + 1) * d := Nat.lt_mul_of_div_lt (Nat.lt_succ_self _) hd
  apply Nat.div_eq_of_lt_le
  · -- the whole multiples of the power
    refine Nat.le_of_mul_le_mul_right ?_ hd
    calc n / d * w * d = n / d * d * w := by ring
      _ ≤ n * w := Nat.mul_le_mul_right w hlow
      _ ≤ n * k * d := by omega
  · -- and not one more
    refine Nat.lt_of_mul_lt_mul_right (a := d) ?_
    calc n * k * d = n * w + n * e := hprod
      _ < n * w + w := Nat.add_lt_add_left hn _
      _ = (n + 1) * w := by ring
      _ ≤ (n / d + 1) * d * w := Nat.mul_le_mul_right w hhigh
      _ = (n / d + 1) * w * d := by ring

theorem mul_div_words {b : Nat} (hb : 0 < b) (c m kh kl : Nat) :
    (m * kl / b + m * kh + c * kl) / b + c * kh = (c * b + m) * (kh * b + kl) / (b * b) := by
  have hsum : (c * b + m) * (kh * b + kl) =
      m * kl + b * (m * kh + c * kl) + b * b * (c * kh) := by ring
  rw [hsum, Nat.add_mul_div_left _ _ (Nat.mul_pos hb hb), ← Nat.div_div_eq_div_mul,
    Nat.add_mul_div_left _ _ hb, Nat.add_assoc (m * kl / b)]

end Reciprocal
