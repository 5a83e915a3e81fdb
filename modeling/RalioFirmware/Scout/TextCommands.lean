import RalioFirmware.Basis.Runs
import RalioFirmware.Wifi.UdpContext
import RalioFirmware.Scout.MatrixCtrl

/-!
# The sketches that take commands as text

`scout_appControl` on two and on four wheels and `udp_smart_home` read a
datagram into `incomingPacket`, put a NUL behind it and take the array for a C
string.  They read up to 255 bytes into 255, so that the NUL of a datagram of
that length or more falls behind the array.

The three share the reading and differ in what they do with the string.
-/

open Bytes List

namespace Scout

/-! ## Reading a packet -/

/-- `sizeof(incomingPacket)`. -/
def PACKET_SIZE : Nat := 255

/-- A sketch's socket and its array, with the memory behind it, and every index
at which the array has been written. -/
structure PacketReader where
  udp : UdpContext
  memory : List UInt8
  written : List Nat

namespace PacketReader

def init (behind : List UInt8) : PacketReader where
  udp := UdpContext.init
  memory := List.replicate PACKET_SIZE 0 ++ behind
  written := []

def cstring (r : PacketReader) : List UInt8 := r.memory.takeWhile (· ≠ 0)

/-- `receiveUdpPacket`, and the same lines of `handleUDP`.  The number is
`packetSize`. -/
def receiveUdpPacket (r : PacketReader) : Nat × PacketReader :=
  let (packetSize, udp) := r.udp.parsePacket
  if packetSize = 0 then (0, { r with udp := udp })
  else
    let (bytes, udp) := udp.read 255
    let len := bytes.length
    let memory := memcpy r.memory 0 bytes
    let written := r.written ++ List.range len
    if len > 0 then
      (packetSize, { udp := udp, memory := memory.set len 0, written := written ++ [len] })
    else (packetSize, { udp := udp, memory := memory, written := written })

end PacketReader

/-! ## What the sketches do with the string -/

def ascii (s : String) : List UInt8 := s.toUTF8.data.toList

/-- A sketch after some passes of `loop`: its packet reader, what else it keeps,
the string its last pass acted on, and the last datagram it took. -/
structure Sketch (Device : Type) where
  reader : PacketReader
  device : Device
  command : Option (List UInt8)
  latest : List UInt8

/-- What a sketch does: whether it looks at the string after a pass of the
reader, what it does before, on the string, and at the end. -/
structure Behaviour (Device : Type) where
  acts : Nat → List UInt8 → Bool
  before : Device → Device
  obey : List UInt8 → Device → Device
  settle : Device → Device

/-- One pass of `loop`. -/
def Sketch.pass {Device : Type} (b : Behaviour Device) (s : Sketch Device) : Sketch Device :=
  let (packetSize, reader) := s.reader.receiveUdpPacket
  let string := reader.cstring
  let device := b.before s.device
  { reader := reader
    latest := if packetSize = 0 then s.latest else s.reader.udp.waiting.headD []
    command := if b.acts packetSize string then some string else none
    device := b.settle (if b.acts packetSize string then b.obey string device else device) }

/-- The motors and the light of a robot, and the code in force. -/
structure Car where
  motor1 : Motor
  motor2 : Motor
  pixel : Nat × Nat × Nat
  cmdCode : Nat

namespace Car

def init : Car := ⟨⟨LOW, LOW⟩, ⟨LOW, LOW⟩, (0, 0, 0), 0⟩

def motors (m₁ m₂ : Motor) (c : Car) : Car := { c with motor1 := m₁, motor2 := m₂ }

def light (red green blue : Nat) (c : Car) : Car := { c with pixel := (red, green, blue) }

def cruise (c : Car) : Car := c.motors ⟨LOW, LOW⟩ ⟨LOW, LOW⟩

def forward (pwmValue : Int) (c : Car) : Car :=
  c.motors ⟨analogWrite pwmValue, LOW⟩ ⟨analogWrite pwmValue, LOW⟩

def backward (pwmValue : Int) (c : Car) : Car :=
  c.motors ⟨LOW, analogWrite pwmValue⟩ ⟨LOW, analogWrite pwmValue⟩

end Car

/-! ### `scout_4wd` -/

namespace Scout4wd

def left (pwmValue : Int) (c : Car) : Car :=
  c.motors ⟨analogWrite (nineTenths pwmValue), LOW⟩ ⟨analogWrite pwmValue, LOW⟩

def right (pwmValue : Int) (c : Car) : Car :=
  c.motors ⟨analogWrite pwmValue, LOW⟩ ⟨analogWrite (nineTenths pwmValue), LOW⟩

def leftBack (pwmValue : Int) (c : Car) : Car :=
  c.motors ⟨LOW, analogWrite (nineTenths pwmValue)⟩ ⟨LOW, analogWrite pwmValue⟩

def rightBack (pwmValue : Int) (c : Car) : Car :=
  c.motors ⟨LOW, analogWrite pwmValue⟩ ⟨LOW, analogWrite (nineTenths pwmValue)⟩

/-- The code of a command; another string leaves the one in force. -/
def codeOf (string : List UInt8) (cmdCode : Nat) : Nat :=
  if string = ascii "S" then 0
  else if string = ascii "F" then 1
  else if string = ascii "B" then 2
  else if string = ascii "L" then 3
  else if string = ascii "R" then 4
  else if string = ascii "LF" then 5
  else if string = ascii "RF" then 6
  else if string = ascii "LB" then 7
  else if string = ascii "RB" then 8
  else cmdCode

/-- The `switch` of `loop`, for the one LED of the board. -/
def obey (string : List UInt8) (c : Car) : Car :=
  let c := { c with cmdCode := codeOf string c.cmdCode }
  match c.cmdCode with
  | 0 => c.cruise.light 255 0 0
  | 1 => (c.forward 255).light 0 0 0
  | 2 => (c.backward 224).light 255 255 255
  | 3 => (left 200 c).light 250 90 0
  | 4 => (right 200 c).light 0 0 0
  | 5 => (left 224 c).light 250 90 0
  | 6 => (right 224 c).light 0 0 0
  | 7 => (leftBack 200 c).light 255 255 255
  | 8 => (rightBack 200 c).light 255 255 255
  | _ => c

def loop : Behaviour Car where
  acts := fun _ string => 0 < string.length
  before := Car.cruise
  obey := obey
  settle := id

end Scout4wd

/-! ### `scout_2wd` -/

namespace Scout2wd

def left (pwmValue : Int) (c : Car) : Car := c.motors ⟨LOW, LOW⟩ ⟨analogWrite pwmValue, LOW⟩

def right (pwmValue : Int) (c : Car) : Car := c.motors ⟨analogWrite pwmValue, LOW⟩ ⟨LOW, LOW⟩

/-- The `switch` of `loop` on the first character. -/
def obey (string : List UInt8) (c : Car) : Car :=
  let first := string.take 1
  if first = ascii "F" then (c.forward 250).light 0 0 0
  else if first = ascii "S" then c.cruise.light 255 0 0
  else if first = ascii "L" then (left 225 c).light 220 40 10
  else if first = ascii "R" then (right 255 c).light 220 40 10
  else if first = ascii "B" then (c.backward 250).light 255 255 255
  else c

def loop : Behaviour Car where
  acts := fun _ string => 0 < string.length
  before := Car.cruise
  obey := obey
  settle := id

end Scout2wd

/-! ### `udp_smart_home` -/

/-- What the smart home keeps and what it last wrote to its pins, with every
angle written to the servo. -/
structure Home where
  windowPos : Int
  hall_light_state : Bool
  bedroom_light_state : Bool
  fan : Motor
  hall_light : Nat
  bedroom_light : Nat
  servo : List Int

namespace Home

def init : Home := ⟨10, false, false, ⟨LOW, LOW⟩, LOW, LOW, [10]⟩

def moveServo (angle : Int) (h : Home) : Home :=
  let angles :=
    if angle < 50 then
      (List.range ((h.windowPos - angle + 4) / 5).toNat).map fun (i : Nat) => h.windowPos - 5 * i
    else
      (List.range ((angle - h.windowPos + 4) / 5).toNat).map fun (i : Nat) => h.windowPos + 5 * i
  { h with servo := h.servo ++ angles, windowPos := angle }

def fanOn (pwmValue : Int) (h : Home) : Home := { h with fan := ⟨analogWrite pwmValue, LOW⟩ }

def fanOff (h : Home) : Home := { h with fan := ⟨LOW, LOW⟩ }

def controlLights (light1 light2 : Bool) (h : Home) : Home :=
  { h with
    hall_light := if light1 then HIGH else LOW
    bedroom_light := if light2 then HIGH else LOW }

/-- The commands of `handleUDP`. -/
def command (string : List UInt8) (h : Home) : Home :=
  if string = ascii "CU" then h.moveServo 180
  else if string = ascii "CD" then h.moveServo 10
  else if string = ascii "L1ON" then { h with hall_light_state := true }
  else if string = ascii "L1OFF" then { h with hall_light_state := false }
  else if string = ascii "L2ON" then { h with bedroom_light_state := true }
  else if string = ascii "L2OFF" then { h with bedroom_light_state := false }
  else if string = ascii "FON" then h.fanOn 255
  else if string = ascii "FOFF" then h.fanOff
  else h

/-- `handleUDP` looks at the string where there was a packet. -/
def handleUDP : Behaviour Home where
  acts := fun packetSize _ => packetSize ≠ 0
  before := id
  obey := command
  settle := fun h => h.controlLights h.hall_light_state h.bedroom_light_state

end Home

/-! ## Runs -/

inductive SketchAction
  | arrive (datagram : List UInt8)
  | loop

namespace Sketch

section

variable {Device : Type} (b : Behaviour Device)

def start (behind : List UInt8) (device : Device) : Sketch Device where
  reader := PacketReader.init behind
  device := device
  command := none
  latest := []

def act (a : SketchAction) (s : Sketch Device) : Sketch Device :=
  match a with
  | .arrive datagram => { s with reader := { s.reader with udp := s.reader.udp.recv datagram } }
  | .loop => s.pass b

/-- The datagram that a pass takes leaves room for the NUL. -/
def Fits (a : SketchAction) (s : Sketch Device) : Prop :=
  match a with
  | .arrive _ => True
  | .loop => (s.reader.udp.waiting.headD []).length < PACKET_SIZE

instance (a : SketchAction) (s : Sketch Device) : Decidable (Fits a s) :=
  match a with
  | .arrive _ => isTrue trivial
  | .loop => inferInstanceAs (Decidable (_ < _))

/-- A datagram as the string of a command: up to its first NUL, or as much as
the array can hold with one. -/
def cut (datagram : List UInt8) : List UInt8 :=
  (datagram.take (PACKET_SIZE - 1)).takeWhile (· ≠ 0)

/-- The array is written inside only and holds a NUL, and the string in it, as
the one that was acted on, is that of the latest datagram. -/
structure Safe (s : Sketch Device) : Prop where
  inside : ∀ i ∈ s.reader.written, i < PACKET_SIZE
  terminated : 0 ∈ s.reader.memory.take PACKET_SIZE
  string : s.reader.cstring = cut s.latest
  command : ∀ string, s.command = some string → string = cut s.latest

end

end Sketch

/-! ## What a packet leaves in the array -/

namespace PacketReader

variable {r : PacketReader}

theorem receive_none (h : r.udp.Fresh) (hnone : r.udp.waiting.headD [] = []) :
    r.receiveUdpPacket.1 = 0 ∧ r.receiveUdpPacket.2.memory = r.memory ∧
      r.receiveUdpPacket.2.written = r.written ∧ r.receiveUdpPacket.2.udp.Fresh := by
  rw [receiveUdpPacket]
  cases hwaiting : r.udp.waiting with
  | nil =>
    obtain ⟨hsize, -, hfresh⟩ := UdpContext.parsePacket_none h hwaiting
    generalize r.udp.parsePacket = result at hsize hfresh ⊢
    obtain ⟨packetSize, udp⟩ := result
    obtain rfl : packetSize = 0 := hsize
    exact ⟨rfl, rfl, rfl, hfresh⟩
  | cons datagram rest =>
    rw [hwaiting] at hnone
    obtain rfl : datagram = [] := hnone
    rw [UdpContext.parsePacket_some h hwaiting]
    exact ⟨rfl, rfl, rfl, fun hfalse => absurd hfalse (by simp)⟩

/-- **A datagram in the array**: its bytes, and a NUL behind as many of them as
fit. -/
theorem receive_some (h : r.udp.Fresh) {datagram : List UInt8}
    (hsome : r.udp.waiting.headD [] = datagram) (hne : datagram ≠ []) :
    r.receiveUdpPacket.1 = datagram.length ∧
      r.receiveUdpPacket.2.memory =
        (memcpy r.memory 0 (datagram.take 255)).set (datagram.take 255).length 0 ∧
      r.receiveUdpPacket.2.written =
        r.written ++ List.range (datagram.take 255).length ++ [(datagram.take 255).length] ∧
      r.receiveUdpPacket.2.udp.Fresh := by
  have hpos : 0 < datagram.length := length_pos_iff.2 hne
  rw [receiveUdpPacket]
  cases hwaiting : r.udp.waiting with
  | nil =>
    grind
  | cons first rest =>
    rw [hwaiting] at hsome
    obtain rfl : first = datagram := hsome
    obtain ⟨hread, -, hfresh⟩ := UdpContext.read_taken first rest 255
    rw [UdpContext.parsePacket_some h hwaiting]
    dsimp only
    rw [if_neg (by omega)]
    generalize UdpContext.read 255 _ = result at hread hfresh ⊢
    obtain ⟨bytes, udp⟩ := result
    obtain rfl : bytes = first.take 255 := hread
    have hlen : (first.take 255).length > 0 := by
      rw [length_take]
      omega
    dsimp only
    rw [if_pos hlen]
    exact ⟨rfl, rfl, rfl, hfresh⟩

theorem takeWhile_append_nul (bs rest : List UInt8) :
    (bs ++ 0 :: rest).takeWhile (· ≠ 0) = bs.takeWhile (· ≠ 0) := by
  induction bs with
  | nil => rfl
  | cons b bs ih =>
    rw [cons_append, takeWhile_cons, takeWhile_cons, ih]

theorem memcpy_set_nul {memory datagram : List UInt8} (h : datagram.length < memory.length) :
    (memcpy memory 0 datagram).set datagram.length 0 =
      datagram ++ 0 :: memory.drop (datagram.length + 1) := by
  rw [memcpy, take_zero, nil_append, Nat.zero_add,
    set_append_right _ _ (Nat.le_refl _), Nat.sub_self, drop_eq_getElem_cons h,
    set_cons_zero]

end PacketReader

namespace Sketch

open PacketReader

section

variable {Device : Type} {b : Behaviour Device} {s : Sketch Device}

/-- A sketch in a safe state whose memory has room for the array. -/
structure Inv (s : Sketch Device) : Prop where
  safe : Safe s
  fresh : s.reader.udp.Fresh
  room : PACKET_SIZE ≤ s.reader.memory.length

theorem Inv.start (behind : List UInt8) (device : Device) : Inv (start behind device) := by
  have hmemory : (Sketch.start behind device).reader.memory =
      [] ++ 0 :: (replicate (PACKET_SIZE - 1) 0 ++ behind) := rfl
  exact {
    safe := {
      inside := fun i hi => nomatch hi
      terminated := by rw [hmemory]; exact mem_cons_self
      string := by rw [cstring, hmemory, takeWhile_append_nul]; rfl
      command := fun string hnone => nomatch hnone }
    fresh := UdpContext.fresh_init
    room := by
      rw [hmemory, nil_append, length_cons, length_append, length_replicate]
      omega }

theorem pass_command (s : Sketch Device) (string : List UInt8)
    (h : (s.pass b).command = some string) : string = (s.pass b).reader.cstring := by
  rw [Sketch.pass] at h ⊢
  dsimp only at h ⊢
  split at h
  · exact (Option.some.inj h).symm
  · cases h

theorem pass_reader (s : Sketch Device) : (s.pass b).reader = s.reader.receiveUdpPacket.2 := rfl

theorem pass_latest (s : Sketch Device) :
    (s.pass b).latest = if s.reader.receiveUdpPacket.1 = 0 then s.latest
      else s.reader.udp.waiting.headD [] := rfl

/-- **One pass** over a datagram that leaves room for the NUL. -/
theorem Inv.pass (h : Inv s) (hfit : Fits .loop s) : Inv (s.pass b) := by
  have hcommand := pass_command (b := b) s
  have hfit : (s.reader.udp.waiting.headD []).length < PACKET_SIZE := hfit
  by_cases hnone : s.reader.udp.waiting.headD [] = []
  · obtain ⟨hsize, hmemory, hwritten, hfresh⟩ := receive_none h.fresh hnone
    have hlatest : (s.pass b).latest = s.latest := by rw [pass_latest, if_pos hsize]
    have hstring : (s.pass b).reader.cstring = cut (s.pass b).latest := by
      rw [hlatest, pass_reader, cstring, hmemory]
      exact h.safe.string
    exact {
      safe := {
        inside := by rw [pass_reader, hwritten]; exact h.safe.inside
        terminated := by rw [pass_reader, hmemory]; exact h.safe.terminated
        string := hstring
        command := fun string hsome => (hcommand string hsome).trans hstring }
      fresh := hfresh
      room := by rw [pass_reader, hmemory]; exact h.room }
  · obtain ⟨datagram, hdatagram⟩ : ∃ datagram, s.reader.udp.waiting.headD [] = datagram := ⟨_, rfl⟩
    rw [hdatagram] at hnone hfit
    obtain ⟨hsize, hmemory, hwritten, hfresh⟩ := receive_some h.fresh hdatagram hnone
    have hroom := h.room
    have hpos : 0 < datagram.length := length_pos_iff.2 hnone
    have hle : datagram.length ≤ PACKET_SIZE - 1 := Nat.le_sub_one_of_lt hfit
    have htake : datagram.take 255 = datagram := take_of_length_le (Nat.le_of_lt hfit)
    rw [htake] at hmemory hwritten
    rw [memcpy_set_nul (by omega)] at hmemory
    have hlatest : (s.pass b).latest = datagram := by
      rw [pass_latest, if_neg (by omega), hdatagram]
    have hstring : (s.pass b).reader.cstring = cut (s.pass b).latest := by
      rw [hlatest, pass_reader, cstring, hmemory, takeWhile_append_nul, cut,
        take_of_length_le hle]
    exact {
      safe := {
        inside := by
          intro i hi
          rw [pass_reader, hwritten] at hi
          simp only [mem_append, mem_range, mem_singleton] at hi
          obtain (hi | hi) | hi := hi
          · exact h.safe.inside i hi
          · omega
          · omega
        terminated := by
          rw [pass_reader, hmemory, take_append, take_of_length_le (by omega),
            mem_append]
          refine .inr ?_
          have hsucc : PACKET_SIZE - datagram.length = (PACKET_SIZE - datagram.length - 1) + 1 := by
            omega
          rw [hsucc, take_succ_cons]
          exact mem_cons_self
        string := hstring
        command := fun string hsome => (hcommand string hsome).trans hstring }
      fresh := hfresh
      room := by
        rw [pass_reader, hmemory, length_append, length_cons, length_drop]
        omega }

theorem Inv.arrive (h : Inv s) (datagram : List UInt8) : Inv (s.act b (.arrive datagram)) where
  safe := ⟨h.safe.inside, h.safe.terminated, h.safe.string, h.safe.command⟩
  fresh := h.fresh.recv datagram
  room := h.room

theorem Inv.act (a : SketchAction) (s : Sketch Device) (h : Inv s) (hfit : Fits a s) :
    Inv (s.act b a) := by
  cases a with
  | arrive datagram => exact h.arrive datagram
  | loop => exact h.pass hfit

theorem act_written (a : SketchAction) (h : s.reader.udp.Fresh) {i : Nat}
    (hi : i ∈ s.reader.written) : i ∈ (s.act b a).reader.written := by
  cases a with
  | arrive datagram => exact hi
  | loop =>
    show i ∈ s.reader.receiveUdpPacket.2.written
    by_cases hnone : s.reader.udp.waiting.headD [] = []
    · rw [(receive_none h hnone).2.2.1]
      exact hi
    · rw [(receive_some h rfl hnone).2.2.1, append_assoc]
      exact mem_append_left _ hi

theorem act_fresh (a : SketchAction) (h : s.reader.udp.Fresh) :
    (s.act b a).reader.udp.Fresh := by
  cases a with
  | arrive datagram => exact h.recv datagram
  | loop =>
    show s.reader.receiveUdpPacket.2.udp.Fresh
    by_cases hnone : s.reader.udp.waiting.headD [] = []
    · exact (receive_none h hnone).2.2.2
    · exact (receive_some h rfl hnone).2.2.2

theorem after_written {actions : List SketchAction} (h : s.reader.udp.Fresh) {i : Nat}
    (hi : i ∈ s.reader.written) : i ∈ (Runs.after (act b) actions s).reader.written := by
  induction actions generalizing s with
  | nil => exact hi
  | cons a rest ih => exact ih (act_fresh a h) (act_written a h hi)

/-- **A datagram that leaves no room** puts the NUL behind the array. -/
theorem unfit_written {a : SketchAction} (h : s.reader.udp.Fresh) (hunfit : ¬ Fits a s) :
    PACKET_SIZE ∈ (s.act b a).reader.written := by
  cases a with
  | arrive datagram => exact absurd trivial hunfit
  | loop =>
    have hlong : PACKET_SIZE ≤ (s.reader.udp.waiting.headD []).length := Nat.le_of_not_lt hunfit
    have hsome : s.reader.udp.waiting.headD [] ≠ [] := by
      intro hnil
      rw [hnil] at hlong
      exact absurd hlong (by decide)
    have hlen : ((s.reader.udp.waiting.headD []).take 255).length = PACKET_SIZE := by
      rw [length_take]
      exact Nat.min_eq_left hlong
    show PACKET_SIZE ∈ s.reader.receiveUdpPacket.2.written
    rw [(receive_some h rfl hsome).2.2.1, hlen]
    exact mem_append_right _ mem_cons_self

theorem allFit_of_inside {actions : List SketchAction} (h : s.reader.udp.Fresh)
    (hinside : ∀ i ∈ (Runs.after (act b) actions s).reader.written, i < PACKET_SIZE) :
    Runs.AllFit (act b) Fits actions s := by
  induction actions generalizing s with
  | nil => trivial
  | cons a rest ih =>
    refine ⟨?_, ih (act_fresh a h) hinside⟩
    refine Decidable.byContradiction fun hunfit => ?_
    exact absurd (hinside PACKET_SIZE (after_written (act_fresh a h) (unfit_written h hunfit)))
      (Nat.lt_irrefl _)

theorem safe_iff (behind : List UInt8) (device : Device) (actions : List SketchAction) :
    Safe (Runs.after (act b) actions (start behind device)) ↔
      Runs.AllFit (act b) Fits actions (start behind device) := by
  refine ⟨fun hsafe => allFit_of_inside UdpContext.fresh_init hsafe.inside, fun hfit => ?_⟩
  exact (Runs.invariant Inv.act (Inv.start behind device) hfit).safe

end

/-- **The packet readers**: in every run of the three sketches the array is
written inside only, holds a NUL, and gives the command of the latest datagram,
exactly where every datagram taken has fewer bytes than the array. -/
theorem packets_safe_iff (behind : List UInt8) (actions : List SketchAction) :
    (Safe (Runs.after (act Scout4wd.loop) actions (start behind Car.init)) ↔
        Runs.AllFit (act Scout4wd.loop) Fits actions (start behind Car.init)) ∧
      (Safe (Runs.after (act Scout2wd.loop) actions (start behind Car.init)) ↔
        Runs.AllFit (act Scout2wd.loop) Fits actions (start behind Car.init)) ∧
      (Safe (Runs.after (act Home.handleUDP) actions (start behind Home.init)) ↔
        Runs.AllFit (act Home.handleUDP) Fits actions (start behind Home.init)) :=
  ⟨safe_iff behind Car.init actions, safe_iff behind Car.init actions,
    safe_iff behind Home.init actions⟩

def longest : List UInt8 := List.replicate PACKET_SIZE 70

/-- Its NUL goes behind the array, in each of the three sketches. -/
theorem longest_unsafe :
    ¬ Safe (Runs.after (act Scout4wd.loop) [.arrive longest, .loop] (start [] Car.init)) ∧
      ¬ Safe (Runs.after (act Scout2wd.loop) [.arrive longest, .loop] (start [] Car.init)) ∧
      ¬ Safe (Runs.after (act Home.handleUDP) [.arrive longest, .loop] (start [] Home.init)) := by
  refine ⟨fun h => ?_, fun h => ?_, fun h => ?_⟩
  · exact absurd ((safe_iff _ _ _).1 h).2.1 (by decide +kernel)
  · exact absurd ((safe_iff _ _ _).1 h).2.1 (by decide +kernel)
  · exact absurd ((safe_iff _ _ _).1 h).2.1 (by decide +kernel)

end Sketch

end Scout
