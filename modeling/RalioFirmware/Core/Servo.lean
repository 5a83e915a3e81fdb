import Mathlib.Tactic.Ring
import RalioFirmware.Basis.Runs

/-!
# Angles of a servo

A servo is written in degrees or in microseconds, and read in degrees.  The two maps between them
round to the nearest, so that an angle is read as it was written, where the range of the pulses has
a microsecond for every degree.  A range that `attach` leaves empty has the reader divide by zero.

The products in the maps stay far below 32 bits.
-/

namespace ServoControl

/-! ## `Servo` -/

def DEFAULT_MIN_PULSE_WIDTH : Nat := 1000
def DEFAULT_MAX_PULSE_WIDTH : Nat := 2000
def DEFAULT_NEUTRAL_PULSE_WIDTH : Nat := 1500
def REFRESH_INTERVAL : Nat := 20000

def improved_map (value minIn maxIn minOut maxOut : Int) : Option Int :=
  let rangeIn := maxIn - minIn
  let rangeOut := maxOut - minOut
  let deltaIn := value - minIn
  let fixedHalfDecimal := 1
  let fixedDecimal := fixedHalfDecimal * 2
  if rangeIn = 0 then none
  else some (((deltaIn * rangeOut * fixedDecimal).tdiv rangeIn + fixedHalfDecimal).tdiv
    fixedDecimal + minOut)

def constrain (amt low high : Int) : Int :=
  if amt < low then low else if amt > high then high else amt

structure Servo where
  attached : Bool
  pin : Int
  minUs : Nat
  maxUs : Nat
  valueUs : Nat
  /-- The waveform of the pin: how long it is high, and how long it is low. -/
  waveform : Option (Nat × Nat)
deriving DecidableEq, Repr

namespace Servo

def init : Servo :=
  ⟨false, 0, DEFAULT_MIN_PULSE_WIDTH, DEFAULT_MAX_PULSE_WIDTH, DEFAULT_NEUTRAL_PULSE_WIDTH, none⟩

def writeMicroseconds (value : Int) (s : Servo) : Servo :=
  let valueUs := (constrain value s.minUs s.maxUs).toNat
  { s with
    valueUs
    waveform := if s.attached then some (valueUs, REFRESH_INTERVAL - valueUs) else s.waveform }

def write (value : Int) (s : Servo) : Option Servo :=
  if value < 200 then
    (improved_map (constrain value 0 180) 0 180 s.minUs s.maxUs).map fun us =>
      s.writeMicroseconds us
  else some (s.writeMicroseconds value)

def attachValue (pin : Int) (minUs maxUs : UInt16) (value : Int) (s : Servo) : Option Servo :=
  let s := if s.attached then s else { s with pin, attached := true }
  let maxUs := max 250 (min 3000 maxUs.toNat)
  ({ s with maxUs, minUs := max 200 (min maxUs minUs.toNat) } : Servo).write value

def attachLimits (pin : Int) (minUs maxUs : UInt16) (s : Servo) : Option Servo :=
  s.attachValue pin minUs maxUs s.valueUs

def attach (pin : Int) (s : Servo) : Option Servo :=
  s.attachLimits pin (UInt16.ofNat s.minUs) (UInt16.ofNat s.maxUs)

def detach (s : Servo) : Servo :=
  if s.attached then { s with attached := false, waveform := none } else s

def readMicroseconds (s : Servo) : Nat := s.valueUs

def read (s : Servo) : Option Int :=
  improved_map s.readMicroseconds s.minUs s.maxUs 0 180

end Servo

/-! ## Calls -/

inductive ServoCall where
  | attach (pin : Int)
  | write (value : Int)
  | writeMicroseconds (value : Int)
  | detach

namespace Servo

def call : ServoCall → Servo → Option Servo
  | .attach pin, s => s.attach pin
  | .write value, s => s.write value
  | .writeMicroseconds value, s => some (s.writeMicroseconds value)
  | .detach, s => some s.detach

/-- The servo after some calls; nothing after a division by zero. -/
def callStep (c : ServoCall) (s : Option Servo) : Option Servo := s.bind (call c)

/-! ## Limits -/

/-- What `attach` sees to. -/
structure Limited (s : Servo) : Prop where
  min_ge : 200 ≤ s.minUs
  min_le : s.minUs ≤ s.maxUs
  max_ge : 250 ≤ s.maxUs
  max_le : s.maxUs ≤ 3000

/-- The pulse is within the limits, and is the one that the pin has. -/
structure Pulses (s : Servo) : Prop extends Limited s where
  value_ge : s.minUs ≤ s.valueUs
  value_le : s.valueUs ≤ s.maxUs
  waveform : ∀ w, s.waveform = some w → w = (s.valueUs, REFRESH_INTERVAL - s.valueUs)

def SameLimits (s s' : Servo) : Prop := s'.minUs = s.minUs ∧ s'.maxUs = s.maxUs

variable {s s' : Servo}

theorem constrain_mem {amt low high : Int} (h : low ≤ high) :
    low ≤ constrain amt low high ∧ constrain amt low high ≤ high := by
  unfold constrain
  split
  · exact ⟨Int.le_refl low, h⟩
  · split
    · exact ⟨h, Int.le_refl high⟩
    · omega

theorem constrain_eq {amt low high : Int} (hlow : low ≤ amt) (hhigh : amt ≤ high) :
    constrain amt low high = amt := by
  rw [constrain, if_neg (Int.not_lt.mpr hlow), if_neg (Int.not_lt.mpr hhigh)]

theorem Limited.writeMicroseconds (h : s.Limited) (value : Int)
    (hwaveform : s.attached = false → s.waveform = none) :
    (s.writeMicroseconds value).Pulses := by
  have hmem := @constrain_mem value s.minUs s.maxUs (by exact_mod_cast h.min_le)
  have hvalue : (s.writeMicroseconds value).valueUs =
      (constrain value s.minUs s.maxUs).toNat := rfl
  have hmin : (s.writeMicroseconds value).minUs = s.minUs := rfl
  have hmax : (s.writeMicroseconds value).maxUs = s.maxUs := rfl
  refine ⟨⟨h.min_ge, h.min_le, h.max_ge, h.max_le⟩, ?_, ?_, fun w hw => ?_⟩
  · rw [hvalue, hmin]
    omega
  · rw [hvalue, hmax]
    omega
  · dsimp only [Servo.writeMicroseconds] at hw
    split at hw
    · exact (Option.some.inj hw).symm
    · rename_i hattached
      rw [hwaveform (Bool.eq_false_iff.mpr hattached)] at hw
      cases hw

theorem write_some (value : Int) (s : Servo) :
    ∃ us, s.write value = some (s.writeMicroseconds us) := by
  rw [write]
  split
  · exact ⟨_, rfl⟩
  · exact ⟨value, rfl⟩

def Silent (s : Servo) : Prop := s.attached = false → s.waveform = none

theorem silent_writeMicroseconds (h : s.Silent) (us : Int) : (s.writeMicroseconds us).Silent := by
  intro hattached
  have hattached : s.attached = false := hattached
  rw [Servo.writeMicroseconds]
  dsimp only
  rw [hattached, if_neg Bool.false_ne_true]
  exact h hattached

theorem attachValue_some (pin : Int) (minUs maxUs : UInt16) (value : Int) (s : Servo) :
    ∃ s', s.attachValue pin minUs maxUs value = some s' ∧ s'.Pulses ∧ s'.Silent ∧
      s'.maxUs = max 250 (min 3000 maxUs.toNat) ∧
      s'.minUs = max 200 (min s'.maxUs minUs.toNat) := by
  unfold attachValue
  dsimp only
  generalize hlimits : ({ (if s.attached then s else { s with pin, attached := true }) with
    maxUs := max 250 (min 3000 maxUs.toNat)
    minUs := max 200 (min (max 250 (min 3000 maxUs.toNat)) minUs.toNat) } : Servo) = limited
  have hmax : limited.maxUs = max 250 (min 3000 maxUs.toNat) := by rw [← hlimits]
  have hmin : limited.minUs = max 200 (min limited.maxUs minUs.toNat) := by
    rw [hmax, ← hlimits]
  have hlimited : limited.Limited := by
    refine ⟨?_, ?_, ?_, ?_⟩
    all_goals omega
  have hattached : limited.attached = true := by
    rw [← hlimits]
    dsimp only
    split
    · assumption
    · rfl
  have hsilent : limited.Silent := fun hfalse => absurd (hattached.symm.trans hfalse) (by decide)
  obtain ⟨us, hwrite⟩ := write_some value limited
  exact ⟨_, hwrite, hlimited.writeMicroseconds us hsilent, silent_writeMicroseconds hsilent us,
    hmax, hmin⟩

theorem attach_some (pin : Int) (hpulses : s.Pulses) :
    ∃ s', s.attach pin = some s' ∧ s'.Pulses ∧ s'.Silent ∧ SameLimits s s' := by
  obtain ⟨s', hattach, hpulses', hsilent, hmax, hmin⟩ :=
    attachValue_some pin (UInt16.ofNat s.minUs) (UInt16.ofNat s.maxUs) s.valueUs s
  have hge := hpulses.min_ge
  have hle := hpulses.min_le
  have hmaxge := hpulses.max_ge
  have hmaxle := hpulses.max_le
  rw [UInt16.toNat_ofNat'] at hmax hmin
  refine ⟨s', hattach, hpulses', hsilent, ?_, ?_⟩
  · omega
  · omega

/-- **A call** keeps the pulse within the limits. -/
theorem call_some (c : ServoCall) (hpulses : s.Pulses) (h : s.Silent) :
    ∃ s', call c s = some s' ∧ s'.Pulses ∧ s'.Silent ∧ SameLimits s s' := by
  cases c with
  | attach pin => exact attach_some pin hpulses
  | write value =>
    obtain ⟨us, hwrite⟩ := write_some value s
    exact ⟨_, hwrite, hpulses.toLimited.writeMicroseconds us h, silent_writeMicroseconds h us,
      rfl, rfl⟩
  | writeMicroseconds value =>
    exact ⟨_, rfl, hpulses.toLimited.writeMicroseconds value h,
      silent_writeMicroseconds h value, rfl, rfl⟩
  | detach =>
    have hsome : call .detach s = some s.detach := rfl
    rw [hsome]
    unfold detach
    split
    · refine ⟨_, rfl, ⟨⟨hpulses.min_ge, hpulses.min_le, hpulses.max_ge, hpulses.max_le⟩,
        hpulses.value_ge, hpulses.value_le, ?_⟩, fun _ => rfl, rfl, rfl⟩
      rintro w ⟨⟩
    · exact ⟨s, rfl, hpulses, h, rfl, rfl⟩

/-- **Calls** keep the pulse within the limits that they find. -/
theorem calls_some (calls : List ServoCall) (hpulses : s.Pulses) (h : s.Silent) :
    ∃ s', Runs.after callStep calls (some s) = some s' ∧ s'.Pulses ∧ s'.Silent ∧
      SameLimits s s' := by
  let Inv : Option Servo → Prop := fun r =>
    ∃ s', r = some s' ∧ s'.Pulses ∧ s'.Silent ∧ SameLimits s s'
  have hinit : Inv (some s) := ⟨s, rfl, hpulses, h, rfl, rfl⟩
  refine Runs.invariant_of_step ?_ calls hinit
  rintro c _ ⟨s₁, rfl, hpulses₁, hsilent₁, hlimits₁⟩
  obtain ⟨s₂, hcall, hpulses₂, hsilent₂, hlimits₂⟩ := call_some c hpulses₁ hsilent₁
  exact ⟨s₂, hcall, hpulses₂, hsilent₂, hlimits₂.1.trans hlimits₁.1,
    hlimits₂.2.trans hlimits₁.2⟩

/-! ## Angles -/

theorem read_isSome_iff (h : s.Limited) : s.read.isSome = true ↔ s.minUs < s.maxUs := by
  have hle := h.min_le
  rw [read, improved_map]
  split
  · refine iff_of_false Bool.false_ne_true ?_
    omega
  · refine iff_of_true rfl ?_
    omega

theorem improved_map_angle {angle range : Nat} (hangle : angle ≤ 180) :
    ∃ us : Nat, us ≤ range ∧ 360 * us ≤ 2 * (angle * range) + 180 ∧
      2 * (angle * range) < 360 * us + 180 ∧
      ∀ low : Int, improved_map angle 0 180 low (low + range) = some (us + low) := by
  have hproduct : angle * range ≤ 180 * range := Nat.mul_le_mul_right range hangle
  refine ⟨(angle * range * 2 / 180 + 1) / 2, by omega, by omega, by omega, fun low => ?_⟩
  have hrange : low + (range : Int) - low = range := by omega
  have hdelta : ((angle : Int) - 0) * range * (1 * 2) = ((angle * range * 2 : Nat) : Int) := by
    push_cast
    ring
  rw [improved_map, if_neg (by decide), hrange, hdelta]
  have hfirst : ((angle * range * 2 : Nat) : Int).tdiv (180 - 0) =
      ((angle * range * 2 / 180 : Nat) : Int) := by grind
  have hsecond : (((angle * range * 2 / 180 : Nat) : Int) + 1).tdiv (1 * 2) =
      (((angle * range * 2 / 180 + 1) / 2 : Nat) : Int) := by grind
  rw [hfirst, hsecond]

/-- **The angle of the microseconds** is the one that they came from. -/
theorem improved_map_back {angle range us : Nat} (hrange : 180 ≤ range) (hus : us ≤ range)
    (hle : 360 * us ≤ 2 * (angle * range) + 180) (hlt : 2 * (angle * range) < 360 * us + 180)
    (low : Int) : improved_map (us + low) low (low + range) 0 180 =
      some (angle : Int) := by
  have hback : (us * 180 * 2 / range + 1) / 2 = angle := by
    have hupper : us * 180 * 2 < (2 * angle + 1) * range := by
      rw [Nat.add_mul, Nat.one_mul, Nat.mul_assoc 2]
      rcases Nat.lt_or_eq_of_le hrange with hwide | rfl
      · omega
      · omega
    have hlower : 2 * angle * range ≤ us * 180 * 2 + range := by
      rw [Nat.mul_assoc 2]
      omega
    have hquot : us * 180 * 2 / range < 2 * angle + 1 := Nat.div_lt_of_lt_mul (by
      rwa [Nat.mul_comm range])
    have hquot' : 2 * angle ≤ us * 180 * 2 / range + 1 := by
      have hadd : (us * 180 * 2 + range) / range = us * 180 * 2 / range + 1 :=
        Nat.add_div_right _ (by omega)
      rw [← hadd]
      exact (Nat.le_div_iff_mul_le (by omega)).mpr hlower
    omega
  have hne : low + (range : Int) - low ≠ 0 := by omega
  have hwidth : low + (range : Int) - low = range := by omega
  have hdelta : ((us : Int) + low - low) * (180 - 0) * (1 * 2) = ((us * 180 * 2 : Nat) : Int) := by
    push_cast
    ring
  rw [improved_map, if_neg hne, hwidth, hdelta]
  have hfirst : ((us * 180 * 2 : Nat) : Int).tdiv range = ((us * 180 * 2 / range : Nat) : Int) := by
    grind
  have hsecond : (((us * 180 * 2 / range : Nat) : Int) + 1).tdiv (1 * 2) =
      (((us * 180 * 2 / range + 1) / 2 : Nat) : Int) := by grind
  rw [hfirst, hsecond, hback, Int.add_zero]

/-- **An angle is read as it was written.** -/
theorem read_write (h : s.Limited) (hrange : 180 ≤ s.maxUs - s.minUs) {angle : Nat}
    (hangle : angle ≤ 180) : (s.write angle).bind read = some (angle : Int) := by
  obtain ⟨us, hus, hle, hlt, hmap⟩ := @improved_map_angle angle (s.maxUs - s.minUs) hangle
  have hmin := h.min_le
  have hmax : (s.minUs : Int) + ((s.maxUs - s.minUs : Nat) : Int) = s.maxUs := by omega
  have hconstrain : constrain (angle : Int) 0 180 = angle := constrain_eq (by omega) (by omega)
  have hwithin : constrain (us + (s.minUs : Int)) s.minUs s.maxUs = us + (s.minUs : Int) :=
    constrain_eq (by omega) (by omega)
  have hmap := hmap s.minUs
  rw [hmax] at hmap
  rw [write, if_pos (by omega), hconstrain, hmap, Option.map_some, Option.bind_some]
  have hvalue : ((s.writeMicroseconds (us + (s.minUs : Int))).valueUs : Int) =
      us + (s.minUs : Int) := by
    rw [writeMicroseconds]
    dsimp only
    rw [hwithin]
    omega
  have hback := improved_map_back hrange hus hle hlt s.minUs
  rw [hmax] at hback
  rw [read, readMicroseconds, hvalue]
  exact hback

end Servo

/-! ## What is promised -/

/-- The pulse is within the limits and below the refresh interval, the servo can be read, and where
its range has a microsecond for every degree, an angle is read as it was written. -/
structure ServoKept (s : Servo) : Prop where
  value_ge : s.minUs ≤ s.valueUs
  value_le : s.valueUs ≤ s.maxUs
  below : s.valueUs < REFRESH_INTERVAL
  waveform : ∀ w, s.waveform = some w → w = (s.valueUs, REFRESH_INTERVAL - s.valueUs)
  divides : s.read.isSome = true
  angle : 180 ≤ s.maxUs - s.minUs → ∀ angle : Nat, angle ≤ 180 →
    (s.write angle).bind Servo.read = some (angle : Int)

/-- **When all of it holds**: just when `attach` gets a minimum below the maximum that it makes of
the other limit. -/
theorem servo_kept_iff (pin : Int) (minUs maxUs : UInt16) (value : Int)
    (before calls : List ServoCall) :
    (∃ s, Runs.after Servo.callStep calls ((Runs.after Servo.callStep before
      (some Servo.init)).bind fun s => s.attachValue pin minUs maxUs value) = some s ∧
        ServoKept s) ↔ minUs.toNat < max 250 (min 3000 maxUs.toNat) := by
  have hinit : Servo.init.Pulses := by
    refine ⟨⟨by decide, by decide, by decide, by decide⟩, by decide, by decide, ?_⟩
    rintro w ⟨⟩
  obtain ⟨s₀, hbefore, -⟩ := Servo.calls_some before hinit fun _ => rfl
  obtain ⟨s₁, hattach, hpulses₁, hsilent₁, hmax, hmin⟩ :=
    Servo.attachValue_some pin minUs maxUs value s₀
  obtain ⟨s, hcalls, hpulses, -, hsameMin, hsameMax⟩ :=
    Servo.calls_some calls hpulses₁ hsilent₁
  have hrange : s.minUs < s.maxUs ↔ minUs.toNat < max 250 (min 3000 maxUs.toNat) := by
    rw [hsameMin, hsameMax]
    omega
  rw [hbefore, Option.bind_some, hattach, hcalls, ← hrange, ← Servo.read_isSome_iff
    hpulses.toLimited]
  constructor
  · rintro ⟨s', hs', hkept⟩
    rw [Option.some.inj hs']
    exact hkept.divides
  · intro hread
    have hle := hpulses.max_le
    have hvalue := hpulses.value_le
    refine ⟨s, rfl, hpulses.value_ge, hpulses.value_le, ?_, hpulses.waveform, hread,
      fun hwide angle hangle => Servo.read_write hpulses.toLimited hwide hangle⟩
    rw [REFRESH_INTERVAL]
    omega

/-- **A servo that was attached with its limits the other way round**: to read it is a division by
zero. -/
theorem not_servo_kept : ¬ ∀ (pin : Int) (minUs maxUs : UInt16) (value : Int)
    (calls : List ServoCall), ∃ s, Runs.after Servo.callStep calls
      (Servo.init.attachValue pin minUs maxUs value) = some s ∧ ServoKept s := by
  intro hclaim
  obtain ⟨s, hs, hkept⟩ := hclaim 4 2000 1000 90 []
  obtain rfl := Option.some.inj hs
  exact absurd hkept.divides (by decide)

end ServoControl
