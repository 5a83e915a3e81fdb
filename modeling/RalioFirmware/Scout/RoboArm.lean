import RalioFirmware.Basis.Runs
import RalioFirmware.Core.WStringSlice

/-!
# The robot arm on the serial port

A line names an axis and an angle.  `toInt` gives the angle as a `long`, the
sketch puts it into a `uint8_t`, and `servoAngleCheck` limits what is left to the
range of the servo.

`angle_obeyed_iff` says which integers still end on the right side of the range.
-/

open WString Bytes CString

namespace Scout.RoboArm

/-! ## The sketch -/

inductive Joint
  | servo1
  | servo2
  | servo3
  | servo4
deriving DecidableEq, Repr

namespace Joint

/-- `servo1_min` and its siblings. -/
def minAngle : Joint → Nat
  | servo1 => 30
  | servo2 => 60
  | servo3 => 45
  | servo4 => 30

/-- `servo1_max` and its siblings. -/
def maxAngle : Joint → Nat
  | servo1 => 150
  | servo2 => 110
  | servo3 => 90
  | servo4 => 150

/-- The axis of a servo: `Y1`, `Y2`, `X1` and `X2`. -/
def axis : Joint → List UInt8
  | servo1 => [89, 49]
  | servo2 => [89, 50]
  | servo3 => [88, 49]
  | servo4 => [88, 50]

end Joint

/-- `servo1_angle` and its siblings, and the angles last written to the
servos. -/
structure Arm where
  angle : Joint → Nat
  written : Joint → Nat

/-- What a pass of `loop` meets: the bytes that come on the serial port in time,
and the heap for the line and for the two parts of it. -/
structure Pass where
  received : List UInt8
  line : Nat → Env
  axis : Env
  digits : Env

def servoAngleCheck (angle minA maxA : Nat) : Nat :=
  if angle ≤ minA then minA else if angle ≥ maxA then maxA else angle

namespace Arm

/-- The angles after `init_hardware`. -/
def setup : Arm := ⟨fun _ => 90, fun _ => 90⟩

def setAngle (j : Joint) (angle : Nat) (arm : Arm) : Arm :=
  { arm with angle := fun k => if k = j then angle else arm.angle k }

def select (axis : Str) (angle : Nat) (arm : Arm) : Arm :=
  if axis.equalsCstr (some Joint.servo3.axis) then arm.setAngle .servo3 angle
  else if axis.equalsCstr (some Joint.servo4.axis) then arm.setAngle .servo4 angle
  else if axis.equalsCstr (some Joint.servo1.axis) then arm.setAngle .servo1 angle
  else if axis.equalsCstr (some Joint.servo2.axis) then arm.setAngle .servo2 angle
  else arm

/-- The first half of `loop`: a line from the serial port. -/
def receive (p : Pass) (arm : Arm) : Arm :=
  if p.received = [] then arm
  else
    let data := (Str.readStringUntil 10 p.line p.received).trim
    if data.len > 0 then
      let axis := data.substring p.axis 0 2
      let angle := ((data.substringFrom p.digits 2).toInt % 256).toNat
      arm.select axis angle
    else arm

def write (arm : Arm) : Arm :=
  let angle := fun (j : Joint) => servoAngleCheck (arm.angle j) j.minAngle j.maxAngle
  ⟨angle, angle⟩

def loop (p : Pass) (arm : Arm) : Arm := (arm.receive p).write

end Arm

/-! ## What a line asks for -/

inductive Numeral : List UInt8 → Int → Prop
  | plain {digits : List UInt8} (some_ : digits ≠ []) (all : ∀ d ∈ digits, isdigit d = true) :
      Numeral digits (magnitude digits)
  | plus {digits : List UInt8} (some_ : digits ≠ []) (all : ∀ d ∈ digits, isdigit d = true) :
      Numeral (43 :: digits) (magnitude digits)
  | minus {digits : List UInt8} (some_ : digits ≠ []) (all : ∀ d ∈ digits, isdigit d = true) :
      Numeral (45 :: digits) (-(magnitude digits : Int))

/-- The line of a pass asks for an angle of a servo: the axis and a decimal
integer with blanks around them. -/
structure Asks (j : Joint) (n : Int) (p : Pass) : Prop where
  line : ∃ front between numeral back, p.received.takeWhile (· ≠ 10) =
      front ++ (j.axis ++ (between ++ numeral)) ++ back ∧
    (∀ b ∈ front ++ between ++ back, isspace b = true) ∧ Numeral numeral n

/-- The heap gives the blocks of the line and of its number. -/
structure Held (p : Pass) : Prop where
  line : ∀ i < (p.received.takeWhile (· ≠ 10)).length, (p.line i).granted = true
  digits : p.digits.granted = true
  length : (p.received.takeWhile (· ≠ 10)).length ≤ Str.MAX_LENGTH

/-- The servo is at the integer limited to its range, and the other servos are
where they were. -/
structure Obeyed (j : Joint) (n : Int) (before after : Arm) : Prop where
  written : (after.written j : Int) = max (j.minAngle : Int) (min n j.maxAngle)
  others : ∀ k, k ≠ j → after.written k = before.written k

/-- An integer as a `long`. -/
def saturated (n : Int) : Int := max (min n 2147483647) (-2147483648)

/-- The integer is a `uint8_t`, or what is left of it there is on its side of the
range. -/
def Suited (j : Joint) (n : Int) : Prop :=
  (0 ≤ n ∧ n ≤ 255) ∨ (n < 0 ∧ saturated n % 256 ≤ j.minAngle) ∨
    (255 < n ∧ j.maxAngle ≤ saturated n % 256)

instance (j : Joint) (n : Int) : Decidable (Suited j n) := by
  unfold Suited
  infer_instance

variable {j : Joint} {n : Int} {p : Pass} {arm : Arm}

/-! ## The integer -/

theorem Joint.minAngle_lt (j : Joint) : j.minAngle < j.maxAngle ∧ j.maxAngle ≤ 255 := by
  cases j <;> decide

theorem servoAngleCheck_eq {angle minA maxA : Nat} (h : minA ≤ maxA) :
    servoAngleCheck angle minA maxA = max minA (min angle maxA) := by
  rw [servoAngleCheck]
  split
  · omega
  · split <;> omega

theorem Numeral.getLast {text : List UInt8} (h : Numeral text n) :
    ∃ c, text.getLast? = some c ∧ isspace c = false := by
  have hdigits : ∀ digits : List UInt8, digits ≠ [] → (∀ d ∈ digits, isdigit d = true) →
      ∃ c, digits.getLast? = some c ∧ isspace c = false := by
    intro digits hsome hall
    obtain ⟨c, hc⟩ := Option.isSome_iff_exists.1 (List.getLast?_isSome.2 hsome)
    exact ⟨c, hc, isspace_digit (hall c (List.mem_of_getLast? hc))⟩
  cases h with
  | plain hsome hall => exact hdigits _ hsome hall
  | plus hsome hall =>
    rw [List.getLast?_cons_of_ne_nil hsome]
    exact hdigits _ hsome hall
  | minus hsome hall =>
    rw [List.getLast?_cons_of_ne_nil hsome]
    exact hdigits _ hsome hall

/-- **`atol`** of a numeral behind blanks. -/
theorem Numeral.atol {text blanks : List UInt8} (h : Numeral text n)
    (hblanks : ∀ b ∈ blanks, isspace b = true) : CString.atol (blanks ++ text) = saturated n := by
  have hskip : CString.atol (blanks ++ text) = CString.atol text := by
    rw [CString.atol, CString.atol, List.dropWhile_append_of_pos hblanks]
  rw [hskip, saturated]
  cases h with
  | plus hsome hall =>
    rw [atol_cons (by decide), if_neg (by decide), if_pos rfl]
    omega
  | minus hsome hall =>
    rw [atol_cons (by decide), if_pos rfl]
    omega
  | plain hsome hall =>
    cases text with
    | nil => exact absurd rfl hsome
    | cons d rest =>
      have hd := hall d List.mem_cons_self
      rw [atol_cons (isspace_digit hd), if_neg (digit_ne_sign hd).1,
        if_neg (digit_ne_sign hd).2]
      omega

/-- **The range**: a `long` kept as a `uint8_t` and then limited. -/
theorem servoAngleCheck_eq_iff (j : Joint) (n : Int) :
    (servoAngleCheck (saturated n % 256).toNat j.minAngle j.maxAngle : Int) =
        max (j.minAngle : Int) (min n j.maxAngle) ↔ Suited j n := by
  obtain ⟨hlt, hbyte⟩ := j.minAngle_lt
  rw [Suited, saturated, servoAngleCheck_eq (Nat.le_of_lt hlt)]
  omega

/-! ## A pass -/

theorem select_axis {axis : Str} (hinv : axis.Inv) (haxis : axis.contents = j.axis) (angle : Nat)
    (arm : Arm) : arm.select axis angle = arm.setAngle j angle := by
  have hequals := (hinv.readsContents hinv).equalsCstr
  rw [Arm.select, hequals, hequals, hequals, hequals, haxis]
  cases j <;> rfl

/-- **A command** sets the angle of its servo. -/
theorem receive_asks (h : Asks j n p) (hheld : Held p) (arm : Arm) :
    arm.receive p = arm.setAngle j (saturated n % 256).toNat := by
  obtain ⟨front, between, numeral, back, hline, hblanks, hnumeral⟩ := h.line
  have haxis : ∃ a b, j.axis = [a, b] ∧ isspace a = false := by
    cases j <;> exact ⟨_, _, rfl, by decide⟩
  obtain ⟨a, b, haxis, hspace⟩ := haxis
  have hreceived : p.received ≠ [] := by
    intro hnil
    rw [hnil, haxis] at hline
    exact absurd (congrArg List.length hline) (by simp)
  obtain ⟨hread, htext⟩ := @Str.readStringUntil_text 10 p.line _ _ rfl
    hheld.line hheld.length
  rw [hline] at htext
  have hlast : ∃ c, (j.axis ++ (between ++ numeral)).getLast? = some c ∧ isspace c = false := by
    obtain ⟨c, hc, hdigit⟩ := hnumeral.getLast
    refine ⟨c, ?_, hdigit⟩
    rw [List.getLast?_append, List.getLast?_append, hc]
    rfl
  have htrim := Str.trim_text hread htext (fun b hb => hblanks b (by simp [hb]))
    ⟨a, by rw [haxis]; rfl, hspace⟩ hlast (fun b hb => hblanks b (by simp [hb]))
  have hinv := Str.trim_inv hread
  have hlength := hinv.contents_length
  have hwhole := congrArg List.length htext
  have hmax := hheld.length
  rw [hline] at hmax
  rw [htrim, haxis, List.length_append, List.length_cons, List.length_singleton] at hlength
  rw [List.length_append, List.length_append, haxis, List.length_append, List.length_cons,
    List.length_singleton] at hmax
  rw [Arm.receive, if_neg hreceived]
  dsimp only
  generalize (Str.readStringUntil 10 p.line p.received).trim = data at htrim hinv hlength ⊢
  rw [if_pos (by omega)]
  obtain ⟨haxisInv, haxisText⟩ := @Str.substring_text _ p.axis hinv _ _ (Nat.zero_le 2)
    (by omega) (.inl (by decide)) (by omega)
  obtain ⟨hdigitsInv, hdigitsText⟩ := @Str.substring_text _ p.digits hinv _ _
    (show 2 ≤ data.len by omega) (Nat.le_refl _) (.inr hheld.digits) (by omega)
  have hint : (data.substringFrom p.digits 2).toInt = saturated n := by
    rw [Str.substringFrom, (hdigitsInv.readsContents hdigitsInv).toInt, hdigitsText, htrim, haxis]
    have hrest : (([a, b] ++ (between ++ numeral)).drop 2).take (data.len - 2) =
        between ++ numeral := by grind
    rw [hrest]
    exact hnumeral.atol fun b hb => hblanks b (by simp [hb])
  rw [hint]
  refine select_axis haxisInv ?_ _ _
  rw [haxisText, htrim, haxis]
  rfl

structure Arm.Inv (arm : Arm) : Prop where
  low : ∀ j, j.minAngle ≤ arm.angle j
  high : ∀ j, arm.angle j ≤ j.maxAngle
  written : ∀ j, arm.written j = arm.angle j

theorem setup_inv : Arm.setup.Inv where
  low := fun j => by cases j <;> decide
  high := fun j => by cases j <;> decide
  written := fun _ => rfl

theorem servoAngleCheck_range (angle : Nat) (j : Joint) :
    j.minAngle ≤ servoAngleCheck angle j.minAngle j.maxAngle ∧
      servoAngleCheck angle j.minAngle j.maxAngle ≤ j.maxAngle := by
  have hlt := j.minAngle_lt.1
  rw [servoAngleCheck_eq (Nat.le_of_lt hlt)]
  omega

/-- **Every pass** leaves the angles in their ranges. -/
theorem loop_inv (p : Pass) (arm : Arm) : (arm.loop p).Inv where
  low := fun j => (servoAngleCheck_range _ j).1
  high := fun j => (servoAngleCheck_range _ j).2
  written := fun _ => rfl

def after (passes : List Pass) : Arm := Runs.after Arm.loop passes Arm.setup

theorem after_inv (passes : List Pass) : (after passes).Inv :=
  Runs.invariant_of_step (fun p arm _ => loop_inv p arm) passes setup_inv

theorem servoAngleCheck_self (h : arm.Inv) (j : Joint) :
    servoAngleCheck (arm.angle j) j.minAngle j.maxAngle = arm.angle j := by
  have hlow := h.low j
  have hhigh := h.high j
  rw [servoAngleCheck_eq (Nat.le_of_lt j.minAngle_lt.1)]
  omega

/-- **A pass with a command** from an arm in its ranges. -/
theorem loop_obeyed_iff (hinv : arm.Inv) (h : Asks j n p) (hheld : Held p) :
    Obeyed j n arm (arm.loop p) ↔ Suited j n := by
  have hwritten : (arm.loop p).written j =
      servoAngleCheck (saturated n % 256).toNat j.minAngle j.maxAngle := by
    show servoAngleCheck ((arm.receive p).angle j) _ _ = _
    rw [receive_asks h hheld]
    exact congrArg (servoAngleCheck · _ _) (if_pos rfl)
  have hothers : ∀ k, k ≠ j → (arm.loop p).written k = arm.written k := by
    intro k hk
    show servoAngleCheck ((arm.receive p).angle k) _ _ = _
    have hkept : (arm.setAngle j (saturated n % 256).toNat).angle k = arm.angle k := if_neg hk
    rw [receive_asks h hheld, hinv.written k, hkept]
    exact servoAngleCheck_self hinv k
  constructor
  · intro hobeyed
    rw [← servoAngleCheck_eq_iff, ← hwritten]
    exact hobeyed.written
  · intro hsuited
    refine ⟨?_, hothers⟩
    rw [hwritten]
    exact (servoAngleCheck_eq_iff j n).2 hsuited

/-- **The robot arm**: after any passes, a command is obeyed exactly where its
integer is a `uint8_t`, or is left on its side of the range. -/
theorem angle_obeyed_iff (earlier : List Pass) (j : Joint) (n : Int) (p : Pass) (h : Asks j n p)
    (hheld : Held p) :
    Obeyed j n (after earlier) ((after earlier).loop p) ↔ Suited j n :=
  loop_obeyed_iff (after_inv earlier) h hheld

def ample : Env := ⟨true, Vector.replicate 11 0⟩

def sent (line : List UInt8) : Pass := ⟨line ++ [10], fun _ => ample, ample, ample⟩

/-- ` X1 60` is obeyed. -/
theorem angle_obeyed_sample :
    Obeyed .servo3 60 (after []) ((after []).loop (sent [32, 88, 49, 32, 54, 48, 13])) :=
  (angle_obeyed_iff [] .servo3 60 (sent [32, 88, 49, 32, 54, 48, 13])
    ⟨[32], [32], [54, 48], [13], by decide, List.all_eq_true.1 rfl,
      .plain (by decide) (List.all_eq_true.1 rfl)⟩
    ⟨fun _ _ => rfl, rfl, by decide⟩).2 (by decide)

/-- `X2-1`: the angle is 255 in a `uint8_t`, and the base goes to its other end. -/
theorem not_angle_obeyed :
    Asks .servo4 (-1) (sent [88, 50, 45, 49]) ∧
      ((after []).loop (sent [88, 50, 45, 49])).written .servo4 = 150 ∧
      ¬ Obeyed .servo4 (-1) (after []) ((after []).loop (sent [88, 50, 45, 49])) := by
  have hwritten : ((after []).loop (sent [88, 50, 45, 49])).written .servo4 = 150 := by
    decide +kernel
  refine ⟨⟨[], [], [45, 49], [], by decide, List.all_eq_true.1 rfl,
    .minus (by decide) (List.all_eq_true.1 rfl)⟩, hwritten, fun hobeyed => ?_⟩
  have hlimited := hobeyed.written
  rw [hwritten] at hlimited
  exact absurd hlimited (by decide)

end Scout.RoboArm
