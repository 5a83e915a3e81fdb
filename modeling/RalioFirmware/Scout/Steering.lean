import RalioFirmware.Basis.Runs
import RalioFirmware.Wifi.UdpContext
import RalioFirmware.Scout.MatrixCtrl

/-!
# The steering of `scout_matrixCtrl`

The sketch reads a datagram into five bytes that stay from one datagram to the
next, and does not look at how many it got: a short one is filled up with what
an earlier one left.  The trim is one of the bytes, and the commands add their
offset to it as it is; the servo takes what is 200 or more for microseconds.

`steering_iff` says for which runs neither matters.
-/

namespace Scout

open List

/-! ## The servo -/

def constrain (x low high : Int) : Int := if x < low then low else if high < x then high else x

/-- `improved_map`, with the division of C. -/
def improvedMap (value minIn maxIn minOut maxOut : Int) : Int :=
  let rangeIn := maxIn - minIn
  let rangeOut := maxOut - minOut
  let deltaIn := value - minIn
  let fixedHalfDecimal := 1
  let fixedDecimal := fixedHalfDecimal * 2
  ((deltaIn * rangeOut * fixedDecimal).tdiv rangeIn + fixedHalfDecimal).tdiv fixedDecimal + minOut

/-- What a `Servo` keeps of its range and its pulse, in microseconds. -/
structure Servo where
  minUs : Int
  maxUs : Int
  valueUs : Int

namespace Servo

/-- `Servo()`. -/
def new : Servo := ⟨1000, 2000, 1500⟩

def writeMicroseconds (value : Int) (s : Servo) : Servo :=
  { s with valueUs := constrain value s.minUs s.maxUs }

def write (value : Int) (s : Servo) : Servo :=
  if value < 200 then
    s.writeMicroseconds (improvedMap (constrain value 0 180) 0 180 s.minUs s.maxUs)
  else s.writeMicroseconds value

def attach (minUs maxUs : Int) (s : Servo) : Servo :=
  let maxUs := max 250 (min 3000 maxUs)
  let minUs := max 200 (min maxUs minUs)
  { s with minUs := minUs, maxUs := maxUs }.write s.valueUs

/-- `read()`, in degrees. -/
def read (s : Servo) : Int := improvedMap s.valueUs s.minUs s.maxUs 0 180

def InRange (s : Servo) : Prop := s.minUs = 600 ∧ s.maxUs = 2400

theorem InRange.write {s : Servo} (h : s.InRange) (value : Int) : (s.write value).InRange := by
  unfold Servo.write
  split <;> exact h

variable {angle : Int}

theorem InRange.write_angle {s : Servo} (h : s.InRange) (hlow : 0 ≤ angle)
    (hhigh : angle ≤ 180) : (s.write angle).valueUs = 600 + 10 * angle := by
  obtain ⟨hmin, hmax⟩ := h
  have hangle : constrain angle 0 180 = angle := by
    unfold constrain
    rw [if_neg (by omega), if_neg (by omega)]
  have hmap : improvedMap angle 0 180 600 2400 = 600 + 10 * angle := by
    have hscaled : ((angle - 0) * (2400 - 600) * (1 * 2)).tdiv (180 - 0) = 20 * angle := by grind
    unfold improvedMap
    dsimp only
    rw [hscaled, Int.tdiv_eq_ediv_of_nonneg (by omega)]
    omega
  rw [Servo.write, if_pos (by omega), hangle, hmin, hmax, hmap]
  show constrain (600 + 10 * angle) s.minUs s.maxUs = 600 + 10 * angle
  unfold constrain
  rw [hmin, hmax, if_neg (by omega), if_neg (by omega)]

theorem InRange.read_write {s : Servo} (h : s.InRange) (hlow : 0 ≤ angle)
    (hhigh : angle ≤ 180) : (s.write angle).read = angle := by
  have hvalue := h.write_angle hlow hhigh
  obtain ⟨hmin, hmax⟩ := h.write angle
  have hscaled : ((600 + 10 * angle - 600) * (180 - 0) * (1 * 2)).tdiv (2400 - 600) =
      2 * angle := by grind
  unfold Servo.read
  rw [hvalue, hmin, hmax]
  unfold improvedMap
  dsimp only
  rw [hscaled, Int.tdiv_eq_ediv_of_nonneg (by omega)]
  omega

end Servo

/-! ## The sketch -/

structure MatrixCtrl where
  udp : UdpContext
  robot : Robot
  servo1 : Servo

/-- A datagram arrives, or the sketch makes a pass, with the echo time it would
measure. -/
inductive MatrixAction
  | arrive (datagram : List UInt8)
  | drive (echo_time : Nat)

namespace MatrixCtrl

def setup : MatrixCtrl where
  udp := UdpContext.init
  robot := Robot.setup
  servo1 := ((Servo.new.attach 600 2400).write Robot.setup.servo_init_angle)

/-- One pass of `loop`.  Each case of the `switch` writes the servo once. -/
def drive (echo_time : Nat) (s : MatrixCtrl) : MatrixCtrl :=
  let (packetSize, udp) := s.udp.parsePacket
  let (packet, udp) := if packetSize = 0 then ([], udp) else udp.read 5
  let robot := s.robot.drive packet echo_time
  { udp := udp
    robot := robot
    servo1 := if robot.cmdCode ≤ 8 then s.servo1.write robot.servo1 else s.servo1 }

def act (a : MatrixAction) (s : MatrixCtrl) : MatrixCtrl :=
  match a with
  | .arrive datagram => { s with udp := s.udp.recv datagram }
  | .drive echo_time => s.drive echo_time

/-! ## What a command asks for -/

/-- How far from the trim a command wants the servo, to the left if positive. -/
def steerOffset : Nat → Option Int
  | 0 | 1 | 2 => some 0
  | 3 | 7 => some Robot.steerAngleMax
  | 4 | 8 => some (-Robot.steerAngleMax)
  | 5 => some Robot.steerAngleMid
  | 6 => some (-Robot.steerAngleMid)
  | _ => none

/-- Code, mode and trim are those of the datagram, or the earlier ones where the
datagram is too short. -/
def Decoded (datagram : List UInt8) (r r' : Robot) : Prop :=
  if 5 ≤ datagram.length then
    r'.cmdCode = (datagram.getD 0 0).toNat ∧ r'.currentModeState = (datagram.getD 2 0).toNat ∧
      r'.servo_init_angle =
        if (datagram.getD 3 0).toNat = 6 then ((datagram.getD 4 0).toNat : Int)
        else r.servo_init_angle
  else
    r'.cmdCode = r.cmdCode ∧ r'.currentModeState = r.currentModeState ∧
      r'.servo_init_angle = r.servo_init_angle

instance (datagram : List UInt8) (r r' : Robot) : Decidable (Decoded datagram r r') := by
  unfold Decoded; infer_instance

/-- The angle of a command is one the servo has, the servo is there, and it is
on the side of the trim that the command asks for. -/
def Steered (s : MatrixCtrl) : Prop :=
  match steerOffset s.robot.cmdCode with
  | none => True
  | some offset =>
    (0 ≤ s.robot.servo_init_angle + offset ∧ s.robot.servo_init_angle + offset ≤ 180) ∧
      s.servo1.read = s.robot.servo_init_angle + offset ∧
      (0 < offset → s.robot.servo_init_angle < s.servo1.read) ∧
      (offset < 0 → s.servo1.read < s.robot.servo_init_angle)

/-- A step does what the claim on packets and steering says. -/
def Obeys (a : MatrixAction) (s : MatrixCtrl) : Prop :=
  match a with
  | .arrive _ => True
  | .drive echo_time =>
    Decoded (s.udp.waiting.headD []) s.robot (s.drive echo_time).robot ∧
      Steered (s.drive echo_time)

def Repeats (datagram : List UInt8) (r : Robot) : Prop :=
  (0 < datagram.length → (datagram.getD 0 0).toNat = r.cmdCode) ∧
    (2 < datagram.length → (datagram.getD 2 0).toNat = r.currentModeState) ∧
    (3 < datagram.length → datagram.getD 3 0 = 6 →
      ((r.data.getD 4 0).toNat : Int) = r.servo_init_angle)

/-- The trims from which a command stays inside the servo's range. -/
def TrimFits (cmdCode : Nat) (trim : Int) : Prop :=
  match cmdCode with
  | 0 | 1 | 2 => trim ≤ 180
  | 3 | 7 => trim ≤ 150
  | 4 | 8 => 30 ≤ trim ∧ trim ≤ 210
  | 5 => trim ≤ 165
  | 6 => 15 ≤ trim ∧ trim ≤ 195
  | _ => True

/-- The datagram has its five bytes or repeats what is in force, and the trim it
leaves fits the command. -/
def Fits (a : MatrixAction) (s : MatrixCtrl) : Prop :=
  match a with
  | .arrive _ => True
  | .drive _ =>
    let datagram := s.udp.waiting.headD []
    if 5 ≤ datagram.length then
      TrimFits (datagram.getD 0 0).toNat
        (if datagram.getD 3 0 = 6 then (datagram.getD 4 0).toNat else s.robot.servo_init_angle)
    else Repeats datagram s.robot ∧ TrimFits s.robot.cmdCode s.robot.servo_init_angle

/-! ## Decoding -/

/-- What the bytes kept from the last datagram have to do with what was decoded
from it. -/
structure Kept (r : Robot) : Prop where
  length_data : r.data.length = 5
  cmdCode : r.cmdCode = (r.data.getD 0 0).toNat
  mode : r.currentModeState = (r.data.getD 2 0).toNat
  trim : r.data.getD 3 0 = 6 → r.servo_init_angle = (r.data.getD 4 0).toNat
  nonneg : 0 ≤ r.servo_init_angle

section

variable {r : Robot} {packet : List UInt8}

def merged (packet data : List UInt8) : List UInt8 :=
  packet.take 5 ++ data.drop (packet.take 5).length

theorem merged_getD {data : List UInt8} {i : Nat} (hi : i < 5) :
    (merged packet data).getD i 0 =
      if i < packet.length then packet.getD i 0 else data.getD i 0 := by
  have hlen : (packet.take 5).length = min 5 packet.length := length_take
  rw [getD_eq_getElem?_getD, getD_eq_getElem?_getD, getD_eq_getElem?_getD, merged]
  split
  · rw [getElem?_append_left (by omega), getElem?_take_of_lt hi]
  · rw [getElem?_append_right (by omega), getElem?_drop, hlen,
      Nat.add_sub_cancel' (by omega)]

theorem receive_fields (h : packet ≠ []) :
    (r.receiveUdpPacket packet).data = merged packet r.data ∧
      (r.receiveUdpPacket packet).cmdCode = ((merged packet r.data).getD 0 0).toNat ∧
      (r.receiveUdpPacket packet).currentModeState = ((merged packet r.data).getD 2 0).toNat ∧
      (r.receiveUdpPacket packet).servo_init_angle =
        if (merged packet r.data).getD 3 0 = 6 then (((merged packet r.data).getD 4 0).toNat : Int)
        else r.servo_init_angle := by
  have hsix : ∀ b : UInt8, b.toNat = 6 ↔ b = 6 :=
    fun b => ⟨fun hb => UInt8.toNat_inj.1 hb, fun hb => by rw [hb]; rfl⟩
  have hpos : ¬ packet.length = 0 := fun hnil => h (eq_nil_of_length_eq_zero hnil)
  rw [Robot.receiveUdpPacket, if_neg hpos]
  simp only [hsix]
  split
  · rename_i hpin
    exact ⟨rfl, rfl, rfl, (if_pos hpin).symm⟩
  · rename_i hpin
    exact ⟨rfl, rfl, rfl, (if_neg hpin).symm⟩

theorem receive_nil : r.receiveUdpPacket [] = r := rfl

theorem receive_kept (hr : Kept r) (packet : List UInt8) : Kept (r.receiveUdpPacket packet) := by
  by_cases hnil : packet = []
  · rw [hnil, receive_nil]
    exact hr
  · obtain ⟨hdata, hcode, hmode, htrim⟩ := receive_fields (r := r) hnil
    exact {
      length_data := by
        have hlength := hr.length_data
        rw [hdata, merged, length_append, length_drop, length_take]
        omega
      cmdCode := by rw [hcode, hdata]
      mode := by rw [hmode, hdata]
      trim := by
        intro hpin
        rw [hdata] at hpin ⊢
        rw [htrim, if_pos hpin]
      nonneg := by
        have hnonneg := hr.nonneg
        rw [htrim]
        split <;> omega }

theorem receive_long (h : 5 ≤ packet.length) : Decoded packet r (r.receiveUdpPacket packet) := by
  have hne : packet ≠ [] := by
    intro hnil
    rw [hnil] at h
    exact absurd h (by decide)
  have hsix : (packet.getD 3 0).toNat = 6 ↔ packet.getD 3 0 = 6 :=
    ⟨fun hb => UInt8.toNat_inj.1 hb, fun hb => by rw [hb]; rfl⟩
  obtain ⟨-, hcode, hmode, htrim⟩ := receive_fields (r := r) hne
  rw [merged_getD (by omega), if_pos (by omega)] at hcode hmode
  rw [merged_getD (by omega), merged_getD (by omega), if_pos (show 3 < packet.length by omega),
    if_pos (show 4 < packet.length by omega)] at htrim
  rw [Decoded, if_pos h]
  simp only [hsix]
  exact ⟨hcode, hmode, htrim⟩

theorem receive_short_iff (hr : Kept r) (h : packet.length < 5) :
    Decoded packet r (r.receiveUdpPacket packet) ↔ Repeats packet r := by
  rw [Decoded, if_neg (by omega)]
  by_cases hnil : packet = []
  · subst hnil
    rw [receive_nil]
    exact iff_of_true ⟨rfl, rfl, rfl⟩ (by simp [Repeats])
  · have hpos : 0 < packet.length := length_pos_iff.2 hnil
    obtain ⟨-, hcode, hmode, htrim⟩ := receive_fields (r := r) hnil
    rw [merged_getD (by omega), if_pos hpos] at hcode
    rw [merged_getD (by omega)] at hmode
    rw [merged_getD (by omega), merged_getD (by omega), if_neg (show ¬ 4 < packet.length by omega)]
      at htrim
    rw [hcode, hmode, htrim, Repeats]
    refine and_congr ?_ (and_congr ?_ ?_)
    · exact ⟨fun heq _ => heq, fun himp => himp hpos⟩
    · by_cases htwo : 2 < packet.length
      · grind
      · rw [if_neg htwo]
        exact iff_of_true hr.mode.symm fun hp => absurd hp htwo
    · by_cases hthree : 3 < packet.length
      · rw [if_pos hthree]
        by_cases hpin : packet.getD 3 0 = 6
        · grind
        · grind
      · rw [if_neg hthree]
        refine iff_of_true ?_ fun hp => absurd hp hthree
        split
        · rename_i hpin
          exact (hr.trim hpin).symm
        · rfl

end

/-! ## Steering -/

variable {cmdCode : Nat} {offset : Int}

section

variable {r : Robot}

theorem steerOffset_known (h : steerOffset cmdCode = some offset) :
    cmdCode ≤ 8 := by
  unfold steerOffset at h
  split at h <;> first | omega | cases h

theorem dispatch_servo1 (hoffset : steerOffset r.cmdCode = some offset)
    (pwmValue : Int) : (r.dispatch pwmValue).servo1 = r.servo_init_angle + offset := by
  have hknown : r.cmdCode ≤ 8 := steerOffset_known hoffset
  have hcodes : r.cmdCode = 0 ∨ r.cmdCode = 1 ∨ r.cmdCode = 2 ∨ r.cmdCode = 3 ∨
      r.cmdCode = 4 ∨ r.cmdCode = 5 ∨ r.cmdCode = 6 ∨ r.cmdCode = 7 ∨ r.cmdCode = 8 := by
    omega
  rcases hcodes with h | h | h | h | h | h | h | h | h <;> rw [h] at hoffset <;>
    cases hoffset <;>
    simp [Robot.dispatch, h, Robot.cruise, Robot.forward, Robot.backward, Robot.left,
      Robot.right, Robot.leftBack, Robot.rightBack, Robot.setMotors, Robot.show_,
      Int.sub_eq_add_neg]

theorem dispatch_decoded (pwmValue : Int) (r : Robot) :
    (r.dispatch pwmValue).cmdCode = r.cmdCode ∧
      (r.dispatch pwmValue).currentModeState = r.currentModeState ∧
      (r.dispatch pwmValue).servo_init_angle = r.servo_init_angle ∧
      (r.dispatch pwmValue).data = r.data := by
  unfold Robot.dispatch
  split <;> exact ⟨rfl, rfl, rfl, rfl⟩

theorem checkObstacle_decoded (echo_time : Nat) (r : Robot) :
    (r.checkObstacle echo_time).2.cmdCode = r.cmdCode ∧
      (r.checkObstacle echo_time).2.currentModeState = r.currentModeState ∧
      (r.checkObstacle echo_time).2.servo_init_angle = r.servo_init_angle ∧
      (r.checkObstacle echo_time).2.data = r.data := by
  unfold Robot.checkObstacle
  split
  · grind
  · exact ⟨rfl, rfl, rfl, rfl⟩

/-- **A call of `drive`** decodes the datagram and writes the servo with what the
command asks for. -/
theorem drive_fields (packet : List UInt8) (echo_time : Nat) (r : Robot) :
    (r.drive packet echo_time).cmdCode = (r.receiveUdpPacket packet).cmdCode ∧
      (r.drive packet echo_time).currentModeState =
        (r.receiveUdpPacket packet).currentModeState ∧
      (r.drive packet echo_time).servo_init_angle =
        (r.receiveUdpPacket packet).servo_init_angle ∧
      (r.drive packet echo_time).data = (r.receiveUdpPacket packet).data ∧
      ∀ offset, steerOffset (r.receiveUdpPacket packet).cmdCode = some offset →
        (r.drive packet echo_time).servo1 =
          (r.receiveUdpPacket packet).servo_init_angle + offset := by
  obtain ⟨hcode, hmode, htrim, hdata⟩ :=
    checkObstacle_decoded echo_time (r.receiveUdpPacket packet)
  rw [Robot.drive]
  generalize (r.receiveUdpPacket packet).checkObstacle echo_time = checked
    at hcode hmode htrim hdata ⊢
  obtain ⟨pwmValue, r'⟩ := checked
  dsimp only at hcode hmode htrim hdata ⊢
  obtain ⟨hcode', hmode', htrim', hdata'⟩ := dispatch_decoded pwmValue r'
  refine ⟨hcode'.trans hcode, hmode'.trans hmode, htrim'.trans htrim, hdata'.trans hdata, ?_⟩
  intro offset hoffset
  rw [← hcode] at hoffset
  rw [dispatch_servo1 hoffset, htrim]

theorem drive_kept {packet : List UInt8} (hr : Kept r) (echo_time : Nat) :
    Kept (r.drive packet echo_time) := by
  obtain ⟨hcode, hmode, htrim, hdata, -⟩ := drive_fields packet echo_time r
  have h := receive_kept hr packet
  constructor
  · rw [hdata]
    exact h.length_data
  · rw [hcode, hdata]
    exact h.cmdCode
  · rw [hmode, hdata]
    exact h.mode
  · rw [htrim, hdata]
    exact h.trim
  · rw [htrim]
    exact h.nonneg

theorem decoded_drive_iff {packet datagram : List UInt8} {echo_time : Nat} :
    Decoded datagram r (r.drive packet echo_time) ↔
      Decoded datagram r (r.receiveUdpPacket packet) := by
  obtain ⟨hcode, hmode, htrim, -, -⟩ := drive_fields packet echo_time r
  rw [Decoded, Decoded, hcode, hmode, htrim]

theorem receive_take (datagram : List UInt8) (r : Robot) :
    r.receiveUdpPacket (datagram.take 5) = r.receiveUdpPacket datagram := by
  by_cases hnil : datagram = []
  · rw [hnil, take_nil]
  · have hlen : (datagram.take 5).length ≠ 0 := by
      have := length_pos_iff.2 hnil
      rw [length_take]
      omega
    have hlen' : datagram.length ≠ 0 := fun h => hnil (eq_nil_of_length_eq_zero h)
    rw [Robot.receiveUdpPacket, Robot.receiveUdpPacket, if_neg hlen, if_neg hlen',
      take_take, Nat.min_self]

end

section

variable {s : MatrixCtrl}

structure Inv (s : MatrixCtrl) : Prop where
  fresh : s.udp.Fresh
  kept : Kept s.robot
  range : s.servo1.InRange

theorem Inv.setup : Inv MatrixCtrl.setup where
  fresh := UdpContext.fresh_init
  kept := ⟨rfl, rfl, rfl, fun h => absurd h (by decide), by decide⟩
  range := ⟨rfl, rfl⟩

theorem Inv.drive_robot (h : Inv s) (echo_time : Nat) :
    (s.drive echo_time).robot = s.robot.drive ((s.udp.waiting.headD []).take 5) echo_time ∧
      (s.drive echo_time).udp.Fresh := by
  rw [MatrixCtrl.drive]
  cases hwaiting : s.udp.waiting with
  | nil =>
    obtain ⟨hsize, -, hfresh⟩ := UdpContext.parsePacket_none h.fresh hwaiting
    generalize s.udp.parsePacket = result at hsize hfresh ⊢
    obtain ⟨packetSize, udp⟩ := result
    obtain rfl : packetSize = 0 := hsize
    exact ⟨rfl, hfresh⟩
  | cons datagram rest =>
    obtain ⟨hread, -, hfresh⟩ := UdpContext.read_taken datagram rest 5
    rw [UdpContext.parsePacket_some h.fresh hwaiting]
    dsimp only
    split
    · rename_i hlen
      obtain rfl := eq_nil_of_length_eq_zero hlen
      exact ⟨rfl, fun hfalse => absurd hfalse (by simp)⟩
    · generalize UdpContext.read 5 _ = result at hread hfresh ⊢
      obtain ⟨bytes, udp⟩ := result
      obtain rfl : bytes = datagram.take 5 := hread
      exact ⟨rfl, hfresh⟩

theorem drive_servo1 (s : MatrixCtrl) (echo_time : Nat) :
    (s.drive echo_time).servo1 =
      if (s.drive echo_time).robot.cmdCode ≤ 8 then
        s.servo1.write (s.drive echo_time).robot.servo1
      else s.servo1 := by
  rw [MatrixCtrl.drive]

theorem Inv.act (a : MatrixAction) (h : Inv s) : Inv (s.act a) := by
  cases a with
  | arrive datagram => exact ⟨h.fresh.recv datagram, h.kept, h.range⟩
  | drive echo_time =>
    obtain ⟨hrobot, hfresh⟩ := h.drive_robot echo_time
    refine ⟨hfresh, ?_, ?_⟩
    · show Kept (s.drive echo_time).robot
      rw [hrobot]
      exact drive_kept h.kept echo_time
    · show (s.drive echo_time).servo1.InRange
      rw [drive_servo1]
      split
      · exact h.range.write _
      · exact h.range

theorem trimFits_iff {trim : Int} (hnonneg : 0 ≤ trim)
    (hoffset : steerOffset cmdCode = some offset) :
    TrimFits cmdCode trim ↔ 0 ≤ trim + offset ∧ trim + offset ≤ 180 := by
  have hmax : Robot.steerAngleMax = 30 := rfl
  have hmid : Robot.steerAngleMid = 15 := rfl
  unfold steerOffset at hoffset
  split at hoffset <;> cases hoffset <;> simp only [TrimFits] <;> omega

theorem trimFits_of_none {trim : Int} (hnone : steerOffset cmdCode = none) :
    TrimFits cmdCode trim := by
  have hknown : ∀ code ≤ 8, steerOffset code ≠ none := by decide
  have hunknown : 8 < cmdCode := Nat.lt_of_not_le fun hle => hknown cmdCode hle hnone
  unfold TrimFits
  split <;> first | omega | trivial

/-- **The servo after a pass** is where the command wants it exactly if the trim
fits. -/
theorem Inv.steered_iff (h : Inv s) (echo_time : Nat) :
    Steered (s.drive echo_time) ↔
      TrimFits (s.drive echo_time).robot.cmdCode (s.drive echo_time).robot.servo_init_angle := by
  obtain ⟨hrobot, -⟩ := h.drive_robot echo_time
  have hkept : Kept (s.drive echo_time).robot := by
    rw [hrobot]
    exact drive_kept h.kept echo_time
  rw [Steered]
  cases hoffset : steerOffset (s.drive echo_time).robot.cmdCode with
  | none => exact iff_of_true trivial (trimFits_of_none hoffset)
  | some offset =>
    dsimp only
    rw [trimFits_iff hkept.nonneg hoffset]
    refine ⟨And.left, fun hangle => ⟨hangle, ?_⟩⟩
    have hwritten : (s.drive echo_time).robot.servo1 =
        (s.drive echo_time).robot.servo_init_angle + offset := by
      obtain ⟨hcode, -, htrim, -, hservo⟩ :=
        drive_fields ((s.udp.waiting.headD []).take 5) echo_time s.robot
      rw [hrobot] at hoffset ⊢
      rw [hcode] at hoffset
      rw [hservo offset hoffset, htrim]
    have hread : (s.drive echo_time).servo1.read =
        (s.drive echo_time).robot.servo_init_angle + offset := by
      rw [drive_servo1, if_pos (steerOffset_known hoffset), hwritten]
      exact h.range.read_write hangle.1 hangle.2
    exact ⟨hread, fun hleft => by omega, fun hright => by omega⟩

/-- **One step** obeys exactly where its datagram is whole or repeats what is in
force, and the trim fits. -/
theorem Inv.obeys_iff (h : Inv s) (a : MatrixAction) : Obeys a s ↔ Fits a s := by
  cases a with
  | arrive datagram => exact Iff.rfl
  | drive echo_time =>
    obtain ⟨hrobot, -⟩ := h.drive_robot echo_time
    obtain ⟨hcode, -, htrim, -, -⟩ :=
      drive_fields ((s.udp.waiting.headD []).take 5) echo_time s.robot
    rw [Obeys, Fits, h.steered_iff, hrobot, decoded_drive_iff, hcode, htrim, receive_take]
    split
    · rename_i hwhole
      have hdecoded := receive_long (r := s.robot) hwhole
      have hsix : ((s.udp.waiting.headD []).getD 3 0).toNat = 6 ↔
          (s.udp.waiting.headD []).getD 3 0 = 6 :=
        ⟨fun hb => UInt8.toNat_inj.1 hb, fun hb => by rw [hb]; rfl⟩
      obtain ⟨hcode', -, htrim'⟩ := (if_pos hwhole).mp hdecoded
      simp only [hsix] at htrim'
      rw [hcode', htrim']
      exact ⟨And.right, fun hfits => ⟨hdecoded, hfits⟩⟩
    · rename_i hshort
      rw [receive_short_iff h.kept (by omega)]
      refine and_congr_right fun hrepeats => ?_
      have hdecoded := (receive_short_iff h.kept (by omega)).2 hrepeats
      obtain ⟨hcode', -, htrim'⟩ := (if_neg hshort).mp hdecoded
      rw [hcode', htrim']

/-- **Packets and steering over a run.**  Every step of a run obeys exactly where
every pass meets a whole datagram, none, or one that repeats what is in force,
and a trim that fits the command. -/
theorem steering_iff (actions : List MatrixAction) :
    Runs.AllFit act Obeys actions MatrixCtrl.setup ↔
      Runs.AllFit act Fits actions MatrixCtrl.setup := by
  have hrun : ∀ {s : MatrixCtrl}, Inv s →
      (Runs.AllFit act Obeys actions s ↔ Runs.AllFit act Fits actions s) := by
    induction actions with
    | nil => exact fun _ => Iff.rfl
    | cons a rest ih => exact fun hs => and_congr (hs.obeys_iff a) (ih (hs.act a))
  exact hrun Inv.setup

/-- A datagram of one byte changes the code.  A left turn from a trim of 170
degrees asks for 200, which is microseconds to the servo. -/
theorem short_or_steep_disobeys :
    ¬ Runs.AllFit act Obeys [.arrive [1], .drive 0] MatrixCtrl.setup ∧
      ¬ Runs.AllFit act Obeys [.arrive [3, 0, 0, 6, 170], .drive 0] MatrixCtrl.setup := by
  constructor
  · intro h
    exact absurd h.2.1.1 (by decide)
  · intro h
    have hsteered := h.2.1.2
    have hoffset : steerOffset ((MatrixCtrl.setup.act (.arrive [3, 0, 0, 6, 170])).drive
        0).robot.cmdCode = some 30 := by decide
    rw [Steered, hoffset] at hsteered
    exact absurd hsteered.1.2 (by decide)

end

end MatrixCtrl

end Scout
