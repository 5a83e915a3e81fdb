/-!
# Unsigned 32-bit arithmetic, little-endian words, byte buffers

A `uint32_t` counter is kept as a `Nat` below `2 ^ 32`; the operations that
can leave that range say so with `u32` or `sub32`, and everything else is
plain `Nat` arithmetic.  A byte array is a list, and `memcpy` overwrites a
stretch of it.
-/

namespace Word

/-- Reduction to 32 bits. -/
def u32 (n : Nat) : Nat := n % 4294967296

/-- Subtraction of two 32-bit numbers, wrapping below zero. -/
def sub32 (a b : Nat) : Nat := (a + 4294967296 - b) % 4294967296

theorem u32_lt (n : Nat) : u32 n < 4294967296 := by unfold u32; omega

theorem u32_of_lt {n : Nat} (h : n < 4294967296) : u32 n = n := by unfold u32; omega

@[simp] theorem sub32_self_add (a n : Nat) (h : a + n < 4294967296) : sub32 (a + n) a = n := by
  unfold sub32; omega

theorem sub32_of_le {a b : Nat} (h : b ≤ a) (ha : a < 4294967296) : sub32 a b = a - b := by
  unfold sub32; omega

/-- Clearing the low `k` bits of a 32-bit number. -/
def clearLow (k n : Nat) : Nat := n &&& (4294967296 - 1 <<< k)

theorem clearLow_eq {k m n : Nat} (hk : k ≤ 32) (hm : 1 <<< k = m) (h : n < 4294967296) :
    clearLow k n = n / m * m := by
  have hmask : 4294967296 - 1 <<< k = (1 <<< (32 - k) - 1) <<< k := by
    have h32 : (1 <<< (32 - k)) <<< k = 4294967296 := by
      rw [← Nat.shiftLeft_add, Nat.sub_add_cancel hk]
      rfl
    have hsub : ∀ a, (a - 1) <<< k = a <<< k - 1 <<< k := fun a => by
      simp only [Nat.shiftLeft_eq, Nat.sub_mul]
    rw [hsub, h32]
  have hdiv : n / m * m = (n >>> k) <<< k := by
    rw [← hm, Nat.shiftRight_eq_div_pow, Nat.shiftLeft_eq, Nat.shiftLeft_eq, Nat.one_mul]
  unfold clearLow
  rw [hmask, hdiv]
  apply Nat.eq_of_testBit_eq
  intro i
  rw [Nat.one_shiftLeft]
  simp only [Nat.testBit_and, Nat.testBit_shiftLeft, Nat.testBit_shiftRight,
    Nat.testBit_two_pow_sub_one]
  by_cases hi : k ≤ i
  · by_cases hi' : i < 32
    · simp [hi, show i - k < 32 - k by omega, show k + (i - k) = i by omega]
    · have hn : n.testBit i = false := by
        have hpow : 2 ^ 32 ≤ 2 ^ i := Nat.pow_le_pow_right (by omega) (by omega)
        exact Nat.testBit_lt_two_pow (Nat.lt_of_lt_of_le h hpow)
      simp [hi, hn, show k + (i - k) = i by omega]
  · simp [hi]

/-- The least multiple of `m` not below `n`. -/
def roundUp (m n : Nat) : Nat := (n + m - 1) / m * m

theorem roundUp_of_mod {m n : Nat} (hm : 0 < m) (h : n % m = 0) : roundUp m n = n := by
  obtain ⟨k, rfl⟩ := Nat.dvd_of_mod_eq_zero h
  unfold roundUp
  rw [show m * k + m - 1 = m - 1 + m * k by omega, Nat.add_mul_div_left _ _ hm,
    Nat.div_eq_of_lt (by omega), Nat.zero_add, Nat.mul_comm]

theorem le_roundUp {m : Nat} (hm : 0 < m) (n : Nat) : n ≤ roundUp m n := by
  unfold roundUp
  have h := Nat.div_add_mod (n + m - 1) m
  have hlt := Nat.mod_lt (n + m - 1) hm
  rw [Nat.mul_comm] at h
  omega

theorem roundUp_lt {m : Nat} (hm : 0 < m) (n : Nat) : roundUp m n < n + m := by
  unfold roundUp
  have := Nat.div_mul_le_self (n + m - 1) m
  omega

theorem roundUp_mod {m : Nat} (n : Nat) : roundUp m n % m = 0 := Nat.mul_mod_left _ _

theorem roundUp_add_eq {m k n : Nat} (hm : 0 < m) (hk : k % m = 0) :
    roundUp m (k + n) = k + roundUp m n := by
  obtain ⟨j, rfl⟩ := Nat.dvd_of_mod_eq_zero hk
  unfold roundUp
  rw [show m * j + n + m - 1 = n + m - 1 + m * j by omega, Nat.add_mul_div_left _ _ hm,
    Nat.add_mul, Nat.mul_comm m j, Nat.add_comm]

theorem roundUp_of_le {m n : Nat} (h₀ : 0 < n) (h : n ≤ m) : roundUp m n = m := by
  have hdiv : (n + m - 1) / m = 1 := by
    rw [show n + m - 1 = (n - 1) + m by omega, Nat.add_div_right _ (by omega),
      Nat.div_eq_of_lt (by omega)]
  rw [roundUp, hdiv, Nat.one_mul]

/-- The four bytes of a word, least significant first. -/
def le32 (n : Nat) : List UInt8 :=
  [UInt8.ofNat n, UInt8.ofNat (n >>> 8), UInt8.ofNat (n >>> 16), UInt8.ofNat (n >>> 24)]

/-- The number a little-endian byte string stands for. -/
def ofLe : List UInt8 → Nat
  | [] => 0
  | b :: bs => b.toNat + 256 * ofLe bs

@[simp] theorem le32_length (n : Nat) : (le32 n).length = 4 := rfl

@[simp] theorem ofLe_le32 (n : Nat) : ofLe (le32 n) = u32 n := by
  simp only [le32, ofLe, UInt8.toNat_ofNat', Nat.shiftRight_eq_div_pow, u32]
  omega

end Word

namespace Bytes

def memcpy (buf : List UInt8) (off : Nat) (src : List UInt8) : List UInt8 :=
  buf.take off ++ src ++ buf.drop (off + src.length)

variable {buf src : List UInt8} {off : Nat}

theorem memcpy_length (h : off + src.length ≤ buf.length) :
    (memcpy buf off src).length = buf.length := by
  simp only [memcpy, List.length_append, List.length_take, List.length_drop]
  omega

theorem memcpy_take (h : off + src.length ≤ buf.length) :
    (memcpy buf off src).take (off + src.length) = buf.take off ++ src := by
  have hlen : (buf.take off ++ src).length = off + src.length := by simp; omega
  rw [memcpy, ← hlen, List.take_left]

theorem memcpy_zero_take (h : src.length ≤ buf.length) :
    (memcpy buf 0 src).take src.length = src := by
  have htake := @memcpy_take buf src 0 (by omega)
  rwa [Nat.zero_add, List.take_zero, List.nil_append] at htake

theorem memcpy_getElem? (h : off + src.length ≤ buf.length) (i : Nat) :
    (memcpy buf off src)[i]? =
      if off ≤ i ∧ i < off + src.length then src[i - off]? else buf[i]? := by
  have hoff : (buf.take off).length = off := by simp; omega
  unfold memcpy
  by_cases h₁ : i < off
  · rw [List.getElem?_append_left (by simp; omega), List.getElem?_append_left (by omega),
      List.getElem?_take_of_lt h₁, if_neg (by omega)]
  · grind

theorem memcpy_append {front old : List UInt8} (hfront : front.length = off)
    (hlen : src.length = old.length) (back : List UInt8) :
    memcpy (front ++ (old ++ back)) off src = front ++ (src ++ back) := by
  have hdrop : (front ++ (old ++ back)).drop (off + src.length) = back := by
    rw [hlen, ← hfront, ← List.length_append, ← List.append_assoc, List.drop_left]
  rw [memcpy, hdrop, List.take_left' hfront, List.append_assoc]

theorem ofInt_toNat (b : UInt8) : UInt8.ofInt b.toNat = b := by
  have hb := b.toNat_lt
  have hmod : ((b.toNat : Int) % 2 ^ 8).toNat = b.toNat := by omega
  rw [UInt8.ofInt, hmod, UInt8.ofNat_toNat]

end Bytes
