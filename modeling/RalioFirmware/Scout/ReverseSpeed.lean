import Mathlib.Data.Nat.Bitwise

/-!
# The reverse speed of `scout_basic`

`scout_basic` drives a motor backwards by a high direction pin, so that the
motor runs for the part of the period in which its PWM pin is low, and
complements the speed for that: `pwmValueReverse` is written as
`2 ^ analogResolution - pwmValue`.  In C that is an exclusive or, of 2 with the
difference, and `analogWrite` clamps what comes out.

* `reverseDuty_eq_iff`: behind the clamp a reversed motor has the duty asked for
  at full speed only;
* `pwmValueReverse_range_iff`: the value needs no clamp up to the speed
  `analogResolution`;
* `reverse_law_never`: the two never meet.
-/

namespace Scout.Basic

/-! ## The sketch -/

/-- One motor: the duty on its PWM pin and the level of its direction pin. -/
structure Drive where
  pwm : Nat
  dir : Bool
deriving DecidableEq, Repr

/-- The full scale of `analogWrite`, the two motors, and every value that has
been passed to `analogWrite`. -/
structure Board where
  analogScale : Nat
  motor1 : Drive
  motor2 : Drive
  passed : List Int

def Board.analogWriteResolution (res : Int) (b : Board) : Board :=
  { b with analogScale := if res ≥ 4 ∧ res ≤ 16 then 2 ^ res.toNat - 1 else b.analogScale }

/-- What `__analogWriteMode` makes of the value. -/
def clamp (analogScale : Nat) (val : Int) : Nat :=
  if val < 0 then 0 else if val > analogScale then analogScale else val.toNat

/-- `analogWrite(MOTOR_1_PWM, val)`, then `digitalWrite(MOTOR_1_DIR, dir)`. -/
def Board.driveMotor1 (val : Int) (dir : Bool) (b : Board) : Board :=
  { b with motor1 := ⟨clamp b.analogScale val, dir⟩, passed := b.passed ++ [val] }

def Board.driveMotor2 (val : Int) (dir : Bool) (b : Board) : Board :=
  { b with motor2 := ⟨clamp b.analogScale val, dir⟩, passed := b.passed ++ [val] }

/-- `2 ^ analogResolution - pwmValue` on 32-bit integers: the difference binds
before the exclusive or. -/
def pwmValueReverse (analogResolution pwmValue : Int) : Int :=
  (2#32 ^^^ BitVec.ofInt 32 (analogResolution - pwmValue)).toInt

def forward (pwmValue : Int) (b : Board) : Board :=
  (b.driveMotor1 pwmValue false).driveMotor2 pwmValue false

def backward (analogResolution pwmValue : Int) (b : Board) : Board :=
  (b.driveMotor1 (pwmValueReverse analogResolution pwmValue) true).driveMotor2
    (pwmValueReverse analogResolution pwmValue) true

def spin_right (analogResolution pwmValue : Int) (b : Board) : Board :=
  (b.driveMotor1 (pwmValueReverse analogResolution pwmValue) true).driveMotor2 pwmValue false

def spin_left (analogResolution pwmValue : Int) (b : Board) : Board :=
  (b.driveMotor1 pwmValue false).driveMotor2 (pwmValueReverse analogResolution pwmValue) true

/-- How fast a motor turns, on the scale of `analogWrite`: with the direction
pin high it is driven while the PWM pin is low. -/
def Board.duty (b : Board) (m : Drive) : Nat := if m.dir then b.analogScale - m.pwm else m.pwm

/-! ## What the speed law asks -/

/-- A movement whose motors in `reversed` are to turn backwards as fast as
`forward` turns them, on values that need no clamp. -/
structure SpeedLaw (analogResolution pwmValue : Int) (movement : Board → Board)
    (reversed : List (Board → Drive)) (b : Board) : Prop where
  backwards : ∀ m ∈ reversed, (m (movement b)).dir = true
  speed : ∀ m ∈ reversed, (movement b).duty (m (movement b)) = pwmValue
  same : ∀ m ∈ reversed,
    (movement b).duty (m (movement b)) = (forward pwmValue b).duty (m (forward pwmValue b))
  passed : ∀ val ∈ (movement { b with passed := [] }).passed,
    0 ≤ val ∧ val ≤ 2 ^ analogResolution.toNat - 1

/-! ## The exclusive or -/

theorem two_xor (n : Nat) : 2 ^^^ n = 4 * (n / 4) + (2 ^^^ n % 4) := by
  have hdiv : (2 ^^^ n) / 2 ^ 2 = 2 / 2 ^ 2 ^^^ n / 2 ^ 2 := Nat.xor_div_two_pow
  have hmod : (2 ^^^ n) % 2 ^ 2 = 2 % 2 ^ 2 ^^^ n % 2 ^ 2 := Nat.xor_mod_two_pow
  have hzero : (2 : Nat) / 2 ^ 2 ^^^ n / 2 ^ 2 = n / 4 := Nat.zero_xor _
  have hrest : (2 : Nat) % 2 ^ 2 ^^^ n % 2 ^ 2 = 2 ^^^ n % 4 := rfl
  omega

theorem two_xor_mod (n : Nat) :
    2 ^^^ n % 4 = if n % 4 < 2 then n % 4 + 2 else n % 4 - 2 := by
  have hlt : n % 4 < 4 := Nat.mod_lt n (by decide)
  generalize n % 4 = r at hlt ⊢
  obtain rfl | rfl | rfl | rfl : r = 0 ∨ r = 1 ∨ r = 2 ∨ r = 3 := by omega
  all_goals rfl

/-- **The value of `pwmValueReverse`**: two more or two less than the
difference. -/
theorem pwmValueReverse_eq {analogResolution pwmValue : Int}
    (hlow : -2147483648 ≤ analogResolution - pwmValue)
    (hhigh : analogResolution - pwmValue < 2147483648) :
    pwmValueReverse analogResolution pwmValue =
      if (analogResolution - pwmValue) % 4 < 2 then analogResolution - pwmValue + 2
      else analogResolution - pwmValue - 2 := by
  rw [pwmValueReverse, BitVec.toInt_eq_toNat_cond, BitVec.toNat_xor, BitVec.toNat_ofInt]
  have htwo : (2#32).toNat = 2 := rfl
  rw [htwo, two_xor, two_xor_mod]
  generalize analogResolution - pwmValue = d at hlow hhigh ⊢
  split <;> split <;> split <;> omega

variable {analogResolution pwmValue : Int}

theorem resolution_lt (hlow : 4 ≤ analogResolution) (hhigh : analogResolution ≤ 16) :
    analogResolution + 2 < 2 ^ analogResolution.toNat - 1 ∧
      2 ^ analogResolution.toNat ≤ (65536 : Int) := by
  obtain ⟨n, rfl⟩ := Int.eq_ofNat_of_zero_le (show 0 ≤ analogResolution by omega)
  have hn : 4 ≤ n ∧ n ≤ 16 := by omega
  obtain ⟨k, rfl⟩ := Nat.exists_eq_add_of_le hn.1
  have hk : k ≤ 12 := by omega
  clear hn hlow hhigh
  revert hk
  revert k
  decide

/-- **The range**: the value needs no clamp up to the speed
`analogResolution`. -/
theorem pwmValueReverse_range_iff (hlow : 4 ≤ analogResolution) (hhigh : analogResolution ≤ 16)
    (hzero : 0 ≤ pwmValue) (hfull : pwmValue ≤ 2 ^ analogResolution.toNat - 1) :
    (0 ≤ pwmValueReverse analogResolution pwmValue ∧
        pwmValueReverse analogResolution pwmValue ≤ 2 ^ analogResolution.toNat - 1) ↔
      pwmValue ≤ analogResolution := by
  obtain ⟨hlt, hscale⟩ := resolution_lt hlow hhigh
  rw [pwmValueReverse_eq (by omega) (by omega)]
  generalize (2 : Int) ^ analogResolution.toNat = full at hlt hscale hfull ⊢
  split <;> omega

/-- **The duty**: behind the clamp a reversed motor has the duty asked for at
full speed only. -/
theorem reverseDuty_eq_iff (hlow : 4 ≤ analogResolution) (hhigh : analogResolution ≤ 16)
    (hzero : 0 ≤ pwmValue) (hfull : pwmValue ≤ 2 ^ analogResolution.toNat - 1) :
    (((2 ^ analogResolution.toNat - 1 : Nat) -
        clamp (2 ^ analogResolution.toNat - 1) (pwmValueReverse analogResolution pwmValue) : Nat)
          : Int) = pwmValue ↔
      pwmValue = 2 ^ analogResolution.toNat - 1 := by
  obtain ⟨hlt, hscale⟩ := resolution_lt hlow hhigh
  rw [pwmValueReverse_eq (by omega) (by omega)]
  have hcast : ((2 ^ analogResolution.toNat : Nat) : Int) = 2 ^ analogResolution.toNat := by
    rw [Int.natCast_pow]
    rfl
  generalize (2 ^ analogResolution.toNat : Nat) = scale at hcast ⊢
  generalize (2 : Int) ^ analogResolution.toNat = full at hlt hscale hfull hcast ⊢
  rw [clamp]
  split <;> split <;> [skip; split; skip; split] <;> omega

/-! ## The movements -/

theorem analogScale_resolution (hlow : 4 ≤ analogResolution) (hhigh : analogResolution ≤ 16)
    (b : Board) :
    (b.analogWriteResolution analogResolution).analogScale = 2 ^ analogResolution.toNat - 1 :=
  if_pos ⟨hlow, hhigh⟩

theorem not_speedLaw {movement : Board → Board} {reversed : List (Board → Drive)} {b : Board}
    {m : Board → Drive} (hlow : 4 ≤ analogResolution) (hhigh : analogResolution ≤ 16)
    (hzero : 0 ≤ pwmValue) (hfull : pwmValue ≤ 2 ^ analogResolution.toNat - 1)
    (hmem : m ∈ reversed)
    (hduty : (movement b).duty (m (movement b)) = (2 ^ analogResolution.toNat - 1) -
      clamp (2 ^ analogResolution.toNat - 1) (pwmValueReverse analogResolution pwmValue))
    (hpassed : pwmValueReverse analogResolution pwmValue ∈
      (movement { b with passed := [] }).passed) :
    ¬ SpeedLaw analogResolution pwmValue movement reversed b := by
  intro hlaw
  have hspeed := hlaw.speed m hmem
  rw [hduty] at hspeed
  have hmost := (reverseDuty_eq_iff hlow hhigh hzero hfull).1 hspeed
  have hleast := (pwmValueReverse_range_iff hlow hhigh hzero hfull).1 (hlaw.passed _ hpassed)
  have hlt := (resolution_lt hlow hhigh).1
  omega

/-- **The reverse speed law fails** at every resolution and every speed, for
each of the movements that reverse a motor. -/
theorem reverse_law_never (analogResolution pwmValue : Int) (hlow : 4 ≤ analogResolution)
    (hhigh : analogResolution ≤ 16) (hzero : 0 ≤ pwmValue)
    (hfull : pwmValue ≤ 2 ^ analogResolution.toNat - 1) (b : Board) :
    ¬ SpeedLaw analogResolution pwmValue (backward analogResolution pwmValue)
          [Board.motor1, Board.motor2] (b.analogWriteResolution analogResolution) ∧
      ¬ SpeedLaw analogResolution pwmValue (spin_left analogResolution pwmValue)
          [Board.motor2] (b.analogWriteResolution analogResolution) ∧
      ¬ SpeedLaw analogResolution pwmValue (spin_right analogResolution pwmValue)
          [Board.motor1] (b.analogWriteResolution analogResolution) := by
  have hscale := analogScale_resolution hlow hhigh b
  generalize b.analogWriteResolution analogResolution = b at hscale ⊢
  refine ⟨?_, ?_, ?_⟩
  · refine not_speedLaw hlow hhigh hzero hfull (m := Board.motor1) List.mem_cons_self ?_ ?_
    · rw [← hscale]
      rfl
    · exact List.mem_cons_self
  · refine not_speedLaw hlow hhigh hzero hfull (m := Board.motor2) List.mem_cons_self ?_ ?_
    · rw [← hscale]
      rfl
    · exact List.mem_cons_of_mem _ List.mem_cons_self
  · refine not_speedLaw hlow hhigh hzero hfull (m := Board.motor1) List.mem_cons_self ?_ ?_
    · rw [← hscale]
      rfl
    · exact List.mem_cons_self

def reset : Board := ⟨255, ⟨0, false⟩, ⟨0, false⟩, []⟩

theorem reverse_law_never_half :
    ¬ SpeedLaw 8 128 (backward 8 128) [Board.motor1, Board.motor2]
      (reset.analogWriteResolution 8) :=
  (reverse_law_never 8 128 (by decide) (by decide) (by decide) (by decide) reset).1

/-- Half speed at 8 bits: `2 ^ 8 - 128` is -118, clamped to 0, and the motors
run at full speed. -/
theorem backward_half_full :
    (backward 8 128 (reset.analogWriteResolution 8)).passed = [-118, -118] ∧
      (backward 8 128 (reset.analogWriteResolution 8)).duty
        (backward 8 128 (reset.analogWriteResolution 8)).motor1 = 255 ∧
      ¬ SpeedLaw 8 128 (backward 8 128) [Board.motor1, Board.motor2]
          (reset.analogWriteResolution 8) := by
  refine ⟨by decide, by decide, fun hlaw => ?_⟩
  exact absurd (hlaw.speed Board.motor1 List.mem_cons_self) (by decide)

end Scout.Basic
