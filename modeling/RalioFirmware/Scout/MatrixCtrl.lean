/-!
# The obstacle stop of `scout_matrixCtrl`

The sketch keeps three things between two passes of `loop`: the last bytes
of the UDP buffer, what it decoded from them, and the levels on the motor
pins.  `drive` rewrites the motor pins only for the command codes of its
`switch`, so a pin level is state that outlives the packet which set it.

This file models one pass (`drive`) over the decoded packet and the measured
echo, and settles when the obstacle stop does stop the robot:

* `drive_not_forward_iff`: in one pass with an obstacle the motors end up
  not driven forward exactly when the code in force is one the `switch`
  knows, or they were not driven forward before;
* `obstacleStop_iff`: the same over every run of the sketch.
-/

namespace Scout

/-- The levels on the two pins of one motor driver input pair, as duties
between 0 (`LOW`) and 255 (`HIGH`). -/
structure Motor where
  pwm : Nat
  dir : Nat
deriving DecidableEq, Repr

/-- A motor is driven forward when its PWM pin is high for longer than its
direction pin: the driver sees the difference of the two levels. -/
def Motor.forward (m : Motor) : Prop := m.dir < m.pwm

instance (m : Motor) : Decidable m.forward := by
  unfold Motor.forward; infer_instance

/-- `LOW` and `HIGH` as duties. -/
def LOW : Nat := 0
def HIGH : Nat := 255

/-- `analogWrite` at the default scale of 255: the value is clamped. -/
def analogWrite (val : Int) : Nat := (min (max val 0) 255).toNat

/-- `int(x * 0.9)` for the values the sketch applies it to. -/
def nineTenths (x : Int) : Int := x * 9 / 10

/-- The globals of the sketch and the outputs it last wrote. -/
structure Robot where
  motor1 : Motor
  motor2 : Motor
  servo1 : Int
  pixel : Nat × Nat × Nat
  data : List UInt8
  cmdCode : Nat
  currentModeState : Nat
  servo_init_angle : Int
  stop_distance : Int
deriving DecidableEq, Repr

namespace Robot

def drivenForward (r : Robot) : Prop := r.motor1.forward ∨ r.motor2.forward

instance (r : Robot) : Decidable r.drivenForward := by
  unfold drivenForward; infer_instance

def stop_distance_threshold : Int := 60
def steerAngleMid : Int := 15
def steerAngleMax : Int := 30

/-- The state after `setup`: pins low, servo at its initial angle. -/
def setup : Robot where
  motor1 := ⟨LOW, LOW⟩
  motor2 := ⟨LOW, LOW⟩
  servo1 := 90
  pixel := (0, 0, 0)
  data := [0, 0, 0, 0, 0]
  cmdCode := 0
  currentModeState := 0
  servo_init_angle := 90
  stop_distance := 0

/-- The writes every motion function ends in: both motors, then the servo. -/
def setMotors (m₁ m₂ : Motor) (angle : Int) (r : Robot) : Robot :=
  { r with motor1 := m₁, motor2 := m₂, servo1 := angle }

def cruise (r : Robot) : Robot :=
  setMotors ⟨LOW, LOW⟩ ⟨LOW, LOW⟩ r.servo_init_angle r

def forward (pwmValue : Int) (r : Robot) : Robot :=
  setMotors ⟨analogWrite pwmValue, LOW⟩ ⟨analogWrite pwmValue, LOW⟩
    r.servo_init_angle r

def backward (pwmValue : Int) (r : Robot) : Robot :=
  setMotors ⟨LOW, analogWrite pwmValue⟩ ⟨LOW, analogWrite pwmValue⟩
    r.servo_init_angle r

def left (pwmValue steerAngle : Int) (r : Robot) : Robot :=
  setMotors ⟨analogWrite (nineTenths pwmValue), LOW⟩ ⟨analogWrite pwmValue, LOW⟩
    (r.servo_init_angle + steerAngle) r

def right (pwmValue steerAngle : Int) (r : Robot) : Robot :=
  setMotors ⟨analogWrite pwmValue, LOW⟩ ⟨analogWrite (nineTenths pwmValue), LOW⟩
    (r.servo_init_angle - steerAngle) r

def leftBack (pwmValue steerAngle : Int) (r : Robot) : Robot :=
  setMotors ⟨LOW, analogWrite (nineTenths pwmValue)⟩ ⟨LOW, analogWrite pwmValue⟩
    (r.servo_init_angle + steerAngle) r

def rightBack (pwmValue steerAngle : Int) (r : Robot) : Robot :=
  setMotors ⟨LOW, analogWrite pwmValue⟩ ⟨LOW, analogWrite (nineTenths pwmValue)⟩
    (r.servo_init_angle - steerAngle) r

/-- `strip.setPixelColor(0, …)` followed by `strip.show()`. -/
def show_ (red green blue : Nat) (r : Robot) : Robot :=
  { r with pixel := (red, green, blue) }

/-- `measureDistance` for the echo time `pulseIn` returned, in centimetres;
a time-out counts as twice the threshold. -/
def measureDistance (echo_time : Nat) : Int :=
  if echo_time = 0 then stop_distance_threshold * 2
  else (echo_time * 34 / 2000 : Nat)

/-- `receiveUdpPacket` for the datagram waiting (`[]` when there is none):
`Udp.read` overwrites as many bytes of `data` as the datagram has. -/
def receiveUdpPacket (packet : List UInt8) (r : Robot) : Robot :=
  if packet.length = 0 then r
  else
    let got := packet.take 5
    let data := got ++ r.data.drop got.length
    let r := { r with
      data := data
      cmdCode := (data.getD 0 0).toNat
      currentModeState := (data.getD 2 0).toNat }
    let servoPin := (data.getD 3 0).toNat
    let servo_angle := (data.getD 4 0).toNat
    if servoPin = 6 then { r with servo_init_angle := servo_angle } else r

/-- The first half of `drive`: the obstacle check.  Returns the duty the
forward commands will use. -/
def checkObstacle (echo_time : Nat) (r : Robot) : Int × Robot :=
  if r.currentModeState ≠ 0 then
    let r := { r with stop_distance := measureDistance echo_time }
    if r.stop_distance < stop_distance_threshold then (0, r) else (255, r)
  else (255, r)

/-- The `switch` of `drive`.  Its default case writes nothing. -/
def dispatch (pwmValue : Int) (r : Robot) : Robot :=
  match r.cmdCode with
  | 0 => (r.cruise).show_ 255 0 0
  | 1 => (r.forward pwmValue).show_ 0 0 0
  | 2 => (r.backward 225).show_ 255 255 255
  | 3 => (r.left (nineTenths pwmValue) steerAngleMax).show_ 220 40 10
  | 4 => (r.right (nineTenths pwmValue) steerAngleMax).show_ 220 40 10
  | 5 => (r.left (nineTenths pwmValue) steerAngleMid).show_ 220 40 10
  | 6 => (r.right (nineTenths pwmValue) steerAngleMid).show_ 220 40 10
  | 7 => (r.leftBack 200 steerAngleMax).show_ 255 255 255
  | 8 => (r.rightBack 200 steerAngleMax).show_ 255 255 255
  | _ => r

/-- One call of `drive`. -/
def drive (packet : List UInt8) (echo_time : Nat) (r : Robot) : Robot :=
  let r := r.receiveUdpPacket packet
  let (pwmValue, r) := r.checkObstacle echo_time
  r.dispatch pwmValue

/-- The obstacle mode is on and the measured distance is below the
threshold. -/
def obstacle (echo_time : Nat) (r : Robot) : Prop :=
  r.currentModeState ≠ 0 ∧ measureDistance echo_time < stop_distance_threshold

instance (echo_time : Nat) (r : Robot) : Decidable (r.obstacle echo_time) := by
  unfold obstacle; infer_instance

@[simp] theorem receiveUdpPacket_drivenForward (packet : List UInt8) (r : Robot) :
    (r.receiveUdpPacket packet).drivenForward ↔ r.drivenForward := by
  unfold receiveUdpPacket drivenForward
  split
  · rfl
  · dsimp only
    split <;> rfl

variable {echo_time : Nat} {r : Robot}

theorem checkObstacle_obstacle
    (h : r.obstacle echo_time) :
    r.checkObstacle echo_time = (0, { r with stop_distance := measureDistance echo_time }) := by
  simp [checkObstacle, h.1, h.2]

@[simp] theorem analogWrite_zero : analogWrite 0 = LOW := rfl

@[simp] theorem nineTenths_zero : nineTenths 0 = 0 := rfl

theorem dispatch_known_pwm (h : r.cmdCode ≤ 8) :
    (r.dispatch 0).motor1.pwm = LOW ∧ (r.dispatch 0).motor2.pwm = LOW := by
  have hcodes : r.cmdCode = 0 ∨ r.cmdCode = 1 ∨ r.cmdCode = 2 ∨ r.cmdCode = 3 ∨
      r.cmdCode = 4 ∨ r.cmdCode = 5 ∨ r.cmdCode = 6 ∨ r.cmdCode = 7 ∨ r.cmdCode = 8 := by
    omega
  rcases hcodes with h | h | h | h | h | h | h | h | h <;>
    simp [dispatch, h, cruise, forward, backward, left, right, leftBack, rightBack,
      setMotors, show_]

theorem dispatch_known (h : r.cmdCode ≤ 8) :
    ¬ (r.dispatch 0).drivenForward := by
  obtain ⟨h₁, h₂⟩ := dispatch_known_pwm h
  simp [drivenForward, Motor.forward, h₁, h₂, LOW]

theorem dispatch_unknown {pwmValue : Int} (h : 8 < r.cmdCode) :
    r.dispatch pwmValue = r := by
  unfold dispatch
  split <;> first | omega | rfl

/-- **One pass with an obstacle.**  The motors end up not driven forward
exactly when the code in force is known to the `switch` or they were not
driven forward before the pass. -/
theorem drive_not_forward_iff {packet : List UInt8}
    (h : (r.receiveUdpPacket packet).obstacle echo_time) :
    ¬ (r.drive packet echo_time).drivenForward ↔
      (r.receiveUdpPacket packet).cmdCode ≤ 8 ∨ ¬ r.drivenForward := by
  have hdrive : r.drive packet echo_time = dispatch 0
      { r.receiveUdpPacket packet with stop_distance := measureDistance echo_time } := by
    simp [drive, checkObstacle_obstacle h]
  rw [hdrive]
  by_cases hcode : (r.receiveUdpPacket packet).cmdCode ≤ 8
  · simp [hcode, dispatch_known]
  · rw [dispatch_unknown (by simpa using hcode), ← receiveUdpPacket_drivenForward packet r]
    simp [hcode, drivenForward]

/-- One pass of the sketch: the datagram waiting and the echo time. -/
abbrev Input := List UInt8 × Nat

/-- The obstacle stop over a run: after each `drive` call with an obstacle,
no motor is being driven forward. -/
def ObstacleStop : Robot → List Input → Prop
  | _, [] => True
  | r, (packet, echo_time) :: rest =>
    ((r.receiveUdpPacket packet).obstacle echo_time →
      ¬ (r.drive packet echo_time).drivenForward) ∧
    ObstacleStop (r.drive packet echo_time) rest

/-- In every pass with an obstacle the code in force is one the `switch`
knows, or the robot was not being driven forward when the pass began. -/
def KnownOrIdle : Robot → List Input → Prop
  | _, [] => True
  | r, (packet, echo_time) :: rest =>
    ((r.receiveUdpPacket packet).obstacle echo_time →
      (r.receiveUdpPacket packet).cmdCode ≤ 8 ∨ ¬ r.drivenForward) ∧
    KnownOrIdle (r.drive packet echo_time) rest

instance decidableObstacleStop : ∀ (r : Robot) (run : List Input),
    Decidable (r.ObstacleStop run)
  | _, [] => .isTrue trivial
  | r, (packet, echo_time) :: rest =>
    have := decidableObstacleStop (r.drive packet echo_time) rest
    inferInstanceAs (Decidable (_ ∧ _))

/-- **The obstacle stop, over every run.**  From any state of the robot and
for any datagrams and echo times, the stop holds throughout exactly when no
pass with an obstacle meets an unknown code while driving forward. -/
theorem obstacleStop_iff (r : Robot) (run : List Input) :
    r.ObstacleStop run ↔ r.KnownOrIdle run := by
  induction run generalizing r with
  | nil => exact Iff.rfl
  | cons input rest ih =>
    obtain ⟨packet, echo_time⟩ := input
    refine and_congr ?_ (ih _)
    exact forall_congr' drive_not_forward_iff

/-- Forward, then an unknown code with the obstacle mode on and an echo of
one millisecond (17 cm): the motors keep running. -/
theorem obstacleStop_unknown_code :
    ¬ setup.ObstacleStop [([1, 0, 0, 0, 0], 0), ([9, 0, 1, 0, 0], 1000)] := by
  decide

end Robot

end Scout
