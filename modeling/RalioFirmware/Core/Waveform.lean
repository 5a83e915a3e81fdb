import RalioFirmware.Core.Pwm

/-!
# The phase-locked waveform generator

`startWaveformClockCycles_weak` takes the cycles of the high and of the low
phase, adds them to a period, stretches a period that has one phase only, and
checks its arguments last.  The timer interrupt takes the stored period and duty
and, in a core that is built for 80 MHz and runs at 160, doubles them.

* `start_stored`: what an accepted call stores;
* `timer1Interrupt_wave`: the interrupt leaves period and duty as they are;
* `start_safe_iff`: a call is safe exactly where one phase is not empty and, in
  the core for 80 MHz, the period stays below 2 ^ 30 cycles.
-/

namespace Waveform

open Word
open Pwm (Cpu)

/-! ## Numbers -/

/-- `static_cast<int32_t>`. -/
def int32 (n : Nat) : Int := if n < 2147483648 then n else (n : Int) - 4294967296

/-- A number in the range of `int32_t`. -/
def InRange (i : Int) : Prop := -2147483648 ≤ i ∧ i < 2147483648

instance (i : Int) : Decidable (InRange i) := inferInstanceAs (Decidable (_ ∧ _))

/-- `uint32_t` plus `int32_t`. -/
def advance (ccy : Nat) (ccys : Int) : Nat := ((ccy + ccys) % 4294967296).toNat

/-- What `scaleCcys` is to give. -/
def scaled (cpu : Cpu) (isCPU2X : Bool) (ccys : Int) : Int :=
  match cpu with
  | .mhz160 => if isCPU2X then ccys else ccys / 2
  | .mhz80 => if isCPU2X then 2 * ccys else ccys

/-- `scaleCcys`, in 32 bits. -/
def scaleCcys (cpu : Cpu) (ccys : Int) (isCPU2X : Bool) : Int :=
  Int.bmod (scaled cpu isCPU2X ccys) 4294967296

def maxIrqTicksCcys (cpu : Cpu) : Nat := 10000 * cpu.perMicrosecond

/-! ## The generator -/

/-- `WaveformMode`. -/
inductive Mode
  | infinite
  | expires
  | updateExpiry
  | init
deriving DecidableEq, Repr

/-- `Waveform`. -/
structure Wave where
  nextPeriodCcy : Nat
  endDutyCcy : Nat
  dutyCcys : Int
  adjDutyCcys : Int
  periodCcys : Int
  expiryCcy : Nat
  mode : Mode
  alignPhase : Int
  autoPwm : Bool
deriving DecidableEq, Repr

/-- `waveform`: the masks as predicates on pins, the two messages as the pin they
name.  `gpio` is the level of the pins.  The core is built for one clock, and
for one kind of chip. -/
structure State where
  cpu : Cpu
  is8285 : Bool
  pins : Nat → Wave
  states : Nat → Bool
  enabled : Nat → Bool
  toSetBits : Option Nat
  toDisableBits : Option Nat
  timer1Running : Bool
  nextEventCcy : Nat
  gpio : Nat → Bool

namespace State

def setPin (pin : Nat) (wave : Wave) (s : State) : State :=
  { s with pins := fun p => if p = pin then wave else s.pins p }

/-- A level of a pin, as `states` has it too. -/
def drive (pin : Nat) (level : Bool) (s : State) : State :=
  { s with
    states := fun p => if p = pin then level else s.states p
    gpio := fun p => if p = pin then level else s.gpio p }

end State

/-! ### The interrupt -/

/-- What an interrupt finds: its clock drift, whether the CPU runs at twice 80
MHz, and the pins that it looks at with the cycle count at each. -/
structure Interrupt where
  clockDrift : Int
  isCPU2X : Bool
  visits : List (Nat × Nat)

/-- A waveform that starts, with the pin that it is aligned to. -/
def begin_ (s : State) (wave : Wave) : Wave :=
  if 0 ≤ wave.alignPhase ∧ s.enabled wave.alignPhase.toNat = true then
    let other := s.pins wave.alignPhase.toNat
    { wave with nextPeriodCcy := u32 (other.nextPeriodCcy + wave.nextPeriodCcy) }
  else { wave with nextPeriodCcy := s.nextEventCcy }

def Wave.expire (cpu : Cpu) (isCPU2X : Bool) (wave : Wave) : Wave :=
  let expiryCcys := scaleCcys cpu (int32 wave.expiryCcy) isCPU2X
  { wave with expiryCcy := advance wave.nextPeriodCcy expiryCcys, mode := .expires }

/-- A request of the application: the pin that is to be set. -/
def takeRequest (isCPU2X : Bool) (s : State) : State :=
  match s.toSetBits with
  | none => s
  | some pin =>
    let wave := s.pins pin
    let taken := { s with toSetBits := none }
    match wave.mode with
    | .init =>
      let started := begin_ s wave
      let taken := { taken with states := fun p => if p = pin then false else s.states p }
      if started.expiryCcy = 0 then taken.setPin pin { started with mode := .infinite }
      else taken.setPin pin (started.expire s.cpu isCPU2X)
    | .updateExpiry => taken.setPin pin (wave.expire s.cpu isCPU2X)
    | .infinite => taken
    | .expires => taken

/-- The pins that the application asks for and those that it has given up. -/
def takeEnabled (s : State) : State :=
  if (∃ pin ∈ s.toSetBits, s.enabled pin = false) ∨ s.toDisableBits.isSome then
    { s with
      enabled := fun p => (s.enabled p && s.toDisableBits ≠ some p) || s.toSetBits = some p
      toDisableBits := none }
  else s

/-- The correction of the duty for `autoPwm`: the duty of this period and what
is left to correct. -/
def correct (dutyCcys adjDutyCcys : Int) : Int × Int :=
  if dutyCcys ≤ adjDutyCcys then (dutyCcys / 2, adjDutyCcys - dutyCcys / 2)
  else if adjDutyCcys ≠ 0 then (dutyCcys - adjDutyCcys, 0)
  else (dutyCcys, adjDutyCcys)

def Wave.drift (clockDrift : Int) (wave : Wave) : Wave :=
  { wave with
    endDutyCcy := advance wave.endDutyCcy clockDrift
    nextPeriodCcy := advance wave.nextPeriodCcy clockDrift
    expiryCcy := advance wave.expiryCcy clockDrift }

def Wave.fall (overshootCcys : Int) (wave : Wave) : Wave :=
  { wave with
    adjDutyCcys := if wave.autoPwm then
      Int.bmod (wave.adjDutyCcys + overshootCcys) 4294967296 else wave.adjDutyCcys }

/-- A wave that goes into its next period, and stays as it is there. -/
def Wave.forward (nextPeriodCcy : Nat) (wave : Wave) : Wave :=
  { wave with nextPeriodCcy := nextPeriodCcy, endDutyCcy := nextPeriodCcy }

def Wave.rise (now nextPeriodCcy : Nat) (dutyCcys : Int) (wave : Wave) : Wave :=
  let (dutyCcys, adjDutyCcys) := correct dutyCcys wave.adjDutyCcys
  let endDutyCcy := advance now dutyCcys
  { wave with
    nextPeriodCcy := nextPeriodCcy
    adjDutyCcys := adjDutyCcys
    endDutyCcy :=
      if int32 (sub32 endDutyCcy nextPeriodCcy) > 0 then nextPeriodCcy else endDutyCcy }

def edge (isCPU2X : Bool) (pin now : Nat) (overshootCcys : Int) (wave : Wave) (s : State) :
    State :=
  let nextPeriodCcy := advance wave.nextPeriodCcy (scaleCcys s.cpu wave.periodCcys isCPU2X)
  if s.states pin then
    if wave.periodCcys = wave.dutyCcys then s.setPin pin (wave.forward nextPeriodCcy)
    else (s.setPin pin (wave.fall overshootCcys)).drive pin false
  else if wave.dutyCcys = 0 then s.setPin pin (wave.forward nextPeriodCcy)
  else
    (s.setPin pin
      (wave.rise now nextPeriodCcy (scaleCcys s.cpu wave.dutyCcys isCPU2X))).drive pin true

/-- The next event of a wave: it ends, or its edge is due, or neither. -/
def event (isCPU2X : Bool) (pin now waveNextEventCcy : Nat) (wave : Wave) (s : State) : State :=
  if wave.mode = .expires ∧ 0 ≤ int32 (sub32 waveNextEventCcy wave.expiryCcy) ∧
      0 ≤ int32 (sub32 now wave.expiryCcy) then
    { s.setPin pin wave with enabled := fun p => if p = pin then false else s.enabled p }
  else if int32 (sub32 now waveNextEventCcy) < 0 then s.setPin pin wave
  else edge isCPU2X pin now (int32 (sub32 now waveNextEventCcy)) wave s

def lookAt (i : Interrupt) (s : State) (visit : Nat × Nat) : State :=
  let (pin, now) := visit
  let wave := (s.pins pin).drift i.clockDrift
  event i.isCPU2X pin now (if s.states pin then wave.endDutyCcy else wave.nextPeriodCcy) wave s

/-- `timer1Interrupt`.  When the timer is to fire next is left open: the next
interrupt is any other. -/
def timer1Interrupt (s : State) (i : Interrupt) : State :=
  i.visits.foldl (lookAt i) (takeRequest i.isCPU2X (takeEnabled s))

/-! ### The call -/

/-- The arguments of `startWaveformClockCycles_weak`. -/
structure Request where
  pin : UInt8
  highCcys : UInt32
  lowCcys : UInt32
  runTimeCcys : UInt32
  alignPhase : Int8
  phaseOffsetCcys : UInt32
  autoPwm : Bool

def isFlashInterfacePin (is8285 : Bool) (p : Nat) : Bool :=
  if is8285 then p = 6 || p = 7 || p = 8 || p = 11 else 6 ≤ p && p ≤ 11

/-- The period and the high phase after the first lines; none where they divide
by zero. -/
def stretch (cpu : Cpu) (highCcys lowCcys : Nat) : Option (Nat × Nat) :=
  let periodCcys := u32 (highCcys + lowCcys)
  if periodCcys < maxIrqTicksCcys cpu then
    if highCcys = 0 then
      if periodCcys = 0 then none
      else some (maxIrqTicksCcys cpu / periodCcys * periodCcys, highCcys)
    else if lowCcys = 0 then
      if periodCcys = 0 then none
      else
        some (maxIrqTicksCcys cpu / periodCcys * periodCcys,
          maxIrqTicksCcys cpu / periodCcys * periodCcys)
    else some (periodCcys, highCcys)
  else some (periodCcys, highCcys)

/-- The waveform of a request on a pin, as the application leaves it. -/
def enter (r : Request) (periodCcys highCcys : Nat) (s : State) : State :=
  let pin := r.pin.toNat
  let wave := { s.pins pin with
    dutyCcys := int32 highCcys
    adjDutyCcys := 0
    periodCcys := int32 periodCcys
    autoPwm := r.autoPwm }
  if s.enabled pin = false then
    let wave := { wave with
      nextPeriodCcy := r.phaseOffsetCcys.toNat
      expiryCcy := r.runTimeCcys.toNat
      mode := .init
      alignPhase := if r.alignPhase.toInt < 0 then -1 else r.alignPhase.toInt }
    { s.setPin pin wave with
      gpio := fun p => if p = pin ∧ wave.dutyCcys = 0 then false else s.gpio p
      toSetBits := some pin
      timer1Running := true }
  else if r.runTimeCcys.toNat ≠ 0 then
    { s.setPin pin { wave with expiryCcy := r.runTimeCcys.toNat, mode := .updateExpiry } with
      toSetBits := some pin }
  else s.setPin pin { wave with expiryCcy := r.runTimeCcys.toNat, mode := .infinite }

/-- `startWaveformClockCycles_weak`, with the interrupts that come while it
waits; none for a division by zero. -/
def startWaveformClockCycles (r : Request) (waits : List Interrupt) (s : State) :
    Option (Bool × State) :=
  match stretch s.cpu r.highCcys.toNat r.lowCcys.toNat with
  | none => none
  | some (periodCcys, highCcys) =>
    if r.pin.toNat > 16 ∨ isFlashInterfacePin s.is8285 r.pin.toNat = true ∨
        r.alignPhase.toInt > 16 ∨ int32 periodCcys ≤ 0 ∨ int32 highCcys < 0 ∨
        int32 r.lowCcys.toNat < 0 then
      some (false, s)
    else some (true, waits.foldl timer1Interrupt (enter r periodCcys highCcys s))

/-! ## What a call is to give -/

structure Stored (cpu : Cpu) (highCcys lowCcys : Nat) (wave : Wave) : Prop where
  positive : 0 < wave.periodCcys
  least : 0 ≤ wave.dutyCcys
  most : wave.dutyCcys ≤ wave.periodCcys
  ratio : wave.dutyCcys * (highCcys + lowCcys) = wave.periodCcys * highCcys
  idle : highCcys = 0 → wave.dutyCcys = 0
  full : lowCcys = 0 → wave.dutyCcys = wave.periodCcys
  period_scaled : InRange (scaled cpu true wave.periodCcys)
  duty_scaled : InRange (scaled cpu true wave.dutyCcys)

/-- The call comes back, and where it says true the waveform is stored. -/
def Safe (r : Request) (waits : List Interrupt) (s : State) : Prop :=
  ∃ ok t, startWaveformClockCycles r waits s = some (ok, t) ∧
    (ok = true → Stored s.cpu r.highCcys.toNat r.lowCcys.toNat (t.pins r.pin.toNat))

def Accepted (is8285 : Bool) (r : Request) : Prop :=
  r.pin.toNat ≤ 16 ∧ isFlashInterfacePin is8285 r.pin.toNat = false ∧ r.alignPhase.toInt ≤ 16 ∧
    r.highCcys.toNat + r.lowCcys.toNat < 2147483648

/-- One phase is not empty, and a period that is doubled can be. -/
def Fits (r : Request) (s : State) : Prop :=
  (r.highCcys ≠ 0 ∨ r.lowCcys ≠ 0) ∧
    (s.cpu = .mhz80 → Accepted s.is8285 r → r.highCcys.toNat + r.lowCcys.toNat < 1073741824)

/-! ## The interrupt -/

variable {s : State} {r : Request}

theorem setPin_wave {pin : Nat} {wave : Wave} (hperiod : wave.periodCcys = (s.pins pin).periodCcys)
    (hduty : wave.dutyCcys = (s.pins pin).dutyCcys) (p : Nat) :
    ((s.setPin pin wave).pins p).periodCcys = (s.pins p).periodCcys ∧
      ((s.setPin pin wave).pins p).dutyCcys = (s.pins p).dutyCcys := by
  show (if p = pin then wave else s.pins p).periodCcys = _ ∧
    (if p = pin then wave else s.pins p).dutyCcys = _
  split
  · rename_i heq
    rw [heq]
    exact ⟨hperiod, hduty⟩
  · exact ⟨rfl, rfl⟩

theorem edge_wave (isCPU2X : Bool) {pin now : Nat} {overshootCcys : Int} {wave : Wave}
    (hperiod : wave.periodCcys = (s.pins pin).periodCcys)
    (hduty : wave.dutyCcys = (s.pins pin).dutyCcys) (p : Nat) :
    ((edge isCPU2X pin now overshootCcys wave s).pins p).periodCcys = (s.pins p).periodCcys ∧
      ((edge isCPU2X pin now overshootCcys wave s).pins p).dutyCcys = (s.pins p).dutyCcys := by
  rw [edge]
  split
  · split
    · exact @setPin_wave s pin (wave.forward _) hperiod hduty p
    · exact @setPin_wave s pin (wave.fall _) hperiod hduty p
  · split
    · exact @setPin_wave s pin (wave.forward _) hperiod hduty p
    · exact @setPin_wave s pin (wave.rise _ _ _) hperiod hduty p

theorem event_wave (isCPU2X : Bool) {pin now waveNextEventCcy : Nat} {wave : Wave}
    (hperiod : wave.periodCcys = (s.pins pin).periodCcys)
    (hduty : wave.dutyCcys = (s.pins pin).dutyCcys) (p : Nat) :
    ((event isCPU2X pin now waveNextEventCcy wave s).pins p).periodCcys = (s.pins p).periodCcys ∧
      ((event isCPU2X pin now waveNextEventCcy wave s).pins p).dutyCcys = (s.pins p).dutyCcys := by
  rw [event]
  split
  · exact setPin_wave hperiod hduty p
  · split
    · exact setPin_wave hperiod hduty p
    · exact edge_wave isCPU2X hperiod hduty p

/-- **A look at a pin** leaves every period and duty. -/
theorem lookAt_wave (i : Interrupt) (s : State) (visit : Nat × Nat) (p : Nat) :
    ((lookAt i s visit).pins p).periodCcys = (s.pins p).periodCcys ∧
      ((lookAt i s visit).pins p).dutyCcys = (s.pins p).dutyCcys := by
  obtain ⟨pin, now⟩ := visit
  rw [lookAt]
  exact @event_wave s i.isCPU2X pin now _ ((s.pins pin).drift i.clockDrift) rfl rfl p

theorem begin_wave (s : State) (wave : Wave) :
    (begin_ s wave).periodCcys = wave.periodCcys ∧ (begin_ s wave).dutyCcys = wave.dutyCcys := by
  rw [begin_]
  split <;> exact ⟨rfl, rfl⟩

theorem takeRequest_wave (isCPU2X : Bool) (s : State) (p : Nat) :
    ((takeRequest isCPU2X s).pins p).periodCcys = (s.pins p).periodCcys ∧
      ((takeRequest isCPU2X s).pins p).dutyCcys = (s.pins p).dutyCcys := by
  rw [takeRequest]
  split
  · exact ⟨rfl, rfl⟩
  · rename_i pin _
    obtain ⟨hperiod, hduty⟩ := begin_wave s (s.pins pin)
    dsimp only
    split
    · split
      · exact @setPin_wave s pin { begin_ s (s.pins pin) with mode := .infinite } hperiod hduty p
      · exact @setPin_wave s pin ((begin_ s (s.pins pin)).expire s.cpu isCPU2X) hperiod hduty p
    · exact @setPin_wave s pin ((s.pins pin).expire s.cpu isCPU2X) rfl rfl p
    · exact ⟨rfl, rfl⟩
    · exact ⟨rfl, rfl⟩

theorem takeEnabled_pins (s : State) : (takeEnabled s).pins = s.pins := by
  rw [takeEnabled]
  split <;> rfl

/-- **The interrupt** leaves every period and duty. -/
theorem timer1Interrupt_wave (s : State) (i : Interrupt) (p : Nat) :
    ((timer1Interrupt s i).pins p).periodCcys = (s.pins p).periodCcys ∧
      ((timer1Interrupt s i).pins p).dutyCcys = (s.pins p).dutyCcys := by
  have hlook : ∀ (visits : List (Nat × Nat)) (s : State),
      ((visits.foldl (lookAt i) s).pins p).periodCcys = (s.pins p).periodCcys ∧
        ((visits.foldl (lookAt i) s).pins p).dutyCcys = (s.pins p).dutyCcys := by
    intro visits
    induction visits with
    | nil => exact fun s => ⟨rfl, rfl⟩
    | cons visit rest ih =>
      intro s
      obtain ⟨hperiod, hduty⟩ := ih (lookAt i s visit)
      obtain ⟨hperiod', hduty'⟩ := lookAt_wave i s visit p
      exact ⟨hperiod.trans hperiod', hduty.trans hduty'⟩
  obtain ⟨hperiod, hduty⟩ := hlook i.visits (takeRequest i.isCPU2X (takeEnabled s))
  obtain ⟨hperiod', hduty'⟩ := takeRequest_wave i.isCPU2X (takeEnabled s) p
  rw [takeEnabled_pins] at hperiod' hduty'
  exact ⟨hperiod.trans hperiod', hduty.trans hduty'⟩

theorem waits_wave (waits : List Interrupt) (s : State) (p : Nat) :
    ((waits.foldl timer1Interrupt s).pins p).periodCcys = (s.pins p).periodCcys ∧
      ((waits.foldl timer1Interrupt s).pins p).dutyCcys = (s.pins p).dutyCcys := by
  induction waits generalizing s with
  | nil => exact ⟨rfl, rfl⟩
  | cons i rest ih =>
    obtain ⟨hperiod, hduty⟩ := ih (timer1Interrupt s i)
    obtain ⟨hperiod', hduty'⟩ := timer1Interrupt_wave s i p
    exact ⟨hperiod.trans hperiod', hduty.trans hduty'⟩

/-! ## The call -/

theorem stretched_bounds (cpu : Cpu) {period : Nat} (hpos : 0 < period)
    (hlt : period < maxIrqTicksCcys cpu) :
    0 < maxIrqTicksCcys cpu / period * period ∧
      maxIrqTicksCcys cpu / period * period ≤ 1600000 := by
  have hmax : maxIrqTicksCcys cpu ≤ 1600000 := by cases cpu <;> decide
  have hquot : 0 < maxIrqTicksCcys cpu / period := Nat.div_pos (Nat.le_of_lt hlt) hpos
  exact ⟨Nat.mul_pos hquot hpos, Nat.le_trans (Nat.div_mul_le_self _ _) hmax⟩

/-- **What `stretch` gives**: the period and the high phase in the ratio of the
request, up to a stretched period, as long as the sum does not wrap. -/
theorem stretch_spec (cpu : Cpu) {high low : Nat} (hsum : high + low < 4294967296)
    (hsome : 0 < high + low) :
    ∃ period duty, stretch cpu high low = some (period, duty) ∧ 0 < period ∧ duty ≤ period ∧
      duty * (high + low) = period * high ∧ (high = 0 → duty = 0) ∧ (low = 0 → duty = period) ∧
      ((period = high + low ∧ duty = high) ∨ (period ≤ 1600000 ∧ high + low ≤ 1600000)) := by
  have hmax : maxIrqTicksCcys cpu ≤ 1600000 := by cases cpu <;> decide
  rw [stretch, u32_of_lt hsum]
  by_cases hlong : high + low < maxIrqTicksCcys cpu
  · obtain ⟨hpos, hle⟩ := stretched_bounds cpu hsome hlong
    rw [if_pos hlong]
    by_cases hhigh : high = 0
    · grind
    · rw [if_neg hhigh]
      by_cases hlow : low = 0
      · grind
      · grind
  · rw [if_neg hlong]
    refine ⟨_, _, rfl, hsome, Nat.le_add_right _ _, Nat.mul_comm _ _, id, fun hzero => ?_,
      .inl ⟨rfl, rfl⟩⟩
    omega

theorem stretch_zero (cpu : Cpu) : stretch cpu 0 0 = none := by
  cases cpu <;> rfl

theorem int32_of_lt {n : Nat} (h : n < 2147483648) : int32 n = n := if_pos h

theorem int32_of_ge {n : Nat} (h : 2147483648 ≤ n) (hlt : n < 4294967296) : int32 n < 0 := by
  rw [int32, if_neg (by omega)]
  omega

theorem enter_wave (r : Request) (period duty : Nat) (s : State) :
    ((enter r period duty s).pins r.pin.toNat).periodCcys = int32 period ∧
      ((enter r period duty s).pins r.pin.toNat).dutyCcys = int32 duty := by
  have hset : ∀ (wave : Wave), (s.setPin r.pin.toNat wave).pins r.pin.toNat = wave :=
    fun wave => if_pos rfl
  rw [enter]
  dsimp only
  split
  · grind
  · split
    · grind
    · rw [hset]
      exact ⟨rfl, rfl⟩

theorem refused_of_wrap {high low : Nat} (hhigh : high < 4294967296) (hlow : low < 4294967296)
    (hsum : 2147483648 ≤ high + low) {period duty : Nat}
    (h : stretch s.cpu high low = some (period, duty)) :
    int32 period ≤ 0 ∨ int32 duty < 0 ∨ int32 low < 0 := by
  by_cases hlow31 : 2147483648 ≤ low
  · exact .inr (.inr (int32_of_ge hlow31 hlow))
  · have hhighpos : high ≠ 0 := by omega
    have hmax : maxIrqTicksCcys s.cpu ≤ 1600000 := by cases s.cpu <;> decide
    have hboth : period = u32 (high + low) ∧ duty = high := by
      rw [stretch] at h
      split at h
      · rename_i hshort
        split at h
        · rename_i hnone
          rw [hnone, Nat.add_zero, u32_of_lt hhigh] at hshort
          omega
        · cases h
          exact ⟨rfl, rfl⟩
      · cases h
        exact ⟨rfl, rfl⟩
    obtain ⟨rfl, rfl⟩ := hboth
    by_cases hhigh31 : 2147483648 ≤ duty
    · exact .inr (.inl (int32_of_ge hhigh31 hhigh))
    · rw [u32_of_lt (by omega)]
      exact .inl (Int.le_of_lt (int32_of_ge hsum (by omega)))

/-- **An accepted call** stores the waveform of the request, but for the
doubling. -/
theorem start_stored (r : Request) (waits : List Interrupt) (s : State)
    (hsome : 0 < r.highCcys.toNat + r.lowCcys.toNat) (haccepted : Accepted s.is8285 r) :
    ∃ t period duty, startWaveformClockCycles r waits s = some (true, t) ∧
      stretch s.cpu r.highCcys.toNat r.lowCcys.toNat = some (period, duty) ∧
      (t.pins r.pin.toNat).periodCcys = period ∧ (t.pins r.pin.toNat).dutyCcys = duty := by
  obtain ⟨hpin, hflash, halign, hsum⟩ := haccepted
  obtain ⟨period, duty, hstretch, hpos, hle, -, -, -, hcases⟩ :=
    stretch_spec s.cpu (by omega) hsome
  have hperiod : period < 2147483648 := by omega
  have hduty : duty < 2147483648 := by omega
  refine ⟨waits.foldl timer1Interrupt (enter r period duty s), period, duty, ?_, hstretch, ?_, ?_⟩
  · rw [startWaveformClockCycles, hstretch]
    dsimp only
    rw [if_neg]
    rw [int32_of_lt hperiod, int32_of_lt hduty, int32_of_lt (show r.lowCcys.toNat < _ by omega)]
    rintro (h | h | h)
    · omega
    · exact absurd (hflash.symm.trans h) (by decide)
    · omega
  · rw [(waits_wave waits _ _).1, (enter_wave r period duty s).1, int32_of_lt hperiod]
  · rw [(waits_wave waits _ _).2, (enter_wave r period duty s).2, int32_of_lt hduty]

theorem stretch_some (cpu : Cpu) {high low : Nat} (hhigh : high < 4294967296)
    (hlow : low < 4294967296) (hsome : 0 < high + low) :
    ∃ period duty, stretch cpu high low = some (period, duty) := by
  rw [stretch]
  split
  · split
    · rename_i hzero
      rw [hzero, Nat.zero_add, u32_of_lt hlow, if_neg (by omega)]
      exact ⟨_, _, rfl⟩
    · split
      · rename_i hzero
        rw [hzero, Nat.add_zero, u32_of_lt hhigh, if_neg (by omega)]
        exact ⟨_, _, rfl⟩
      · exact ⟨_, _, rfl⟩
  · exact ⟨_, _, rfl⟩

theorem start_refused (r : Request) (waits : List Interrupt) (s : State)
    (hsome : 0 < r.highCcys.toNat + r.lowCcys.toNat) (hrefused : ¬ Accepted s.is8285 r) :
    startWaveformClockCycles r waits s = some (false, s) := by
  have hhigh := r.highCcys.toNat_lt
  have hlow := r.lowCcys.toNat_lt
  obtain ⟨period, duty, hstretch⟩ := stretch_some s.cpu hhigh hlow hsome
  rw [startWaveformClockCycles, hstretch]
  dsimp only
  rw [if_pos]
  by_cases hpin : r.pin.toNat ≤ 16
  · by_cases hflash : isFlashInterfacePin s.is8285 r.pin.toNat = true
    · exact .inr (.inl hflash)
    · by_cases halign : r.alignPhase.toInt ≤ 16
      · have hsum : 2147483648 ≤ r.highCcys.toNat + r.lowCcys.toNat := by
          refine Nat.le_of_not_lt fun hlt => hrefused ⟨hpin, ?_, halign, hlt⟩
          exact Bool.eq_false_iff.2 hflash
        exact .inr (.inr (.inr (refused_of_wrap hhigh hlow hsum hstretch)))
      · exact .inr (.inr (.inl (by omega)))
  · exact .inl (by omega)

/-- **The call**: it does not divide by zero, and what it stores is the request
and can be doubled, exactly where a phase is not empty and the period of an
accepted request stays below 2 ^ 30 in the core that doubles it. -/
theorem start_safe_iff (r : Request) (waits : List Interrupt) (s : State) :
    Safe r waits s ↔ Fits r s := by
  have hnone : r.highCcys ≠ 0 ∨ r.lowCcys ≠ 0 ↔ 0 < r.highCcys.toNat + r.lowCcys.toNat := by
    have hzero : (0 : UInt32).toNat = 0 := rfl
    rw [Ne, Ne, ← UInt32.toNat_inj, ← UInt32.toNat_inj, hzero]
    omega
  rw [Fits, hnone]
  constructor
  · rintro ⟨ok, t, hstart, hstored⟩
    have hsome : 0 < r.highCcys.toNat + r.lowCcys.toNat := by
      refine Nat.pos_of_ne_zero fun hzero => ?_
      have hhigh : r.highCcys.toNat = 0 := by omega
      have hlow : r.lowCcys.toNat = 0 := by omega
      rw [startWaveformClockCycles, hhigh, hlow, stretch_zero] at hstart
      cases hstart
    refine ⟨hsome, fun hcpu haccepted => ?_⟩
    obtain ⟨t', period, duty, hstart', hstretch, hperiod, -⟩ :=
        start_stored r waits s hsome haccepted
    obtain ⟨rfl, rfl⟩ : ok = true ∧ t = t' := by
      rw [hstart'] at hstart
      cases hstart
      exact ⟨rfl, rfl⟩
    have hscaled := (hstored rfl).period_scaled
    rw [hperiod, hcpu] at hscaled
    have hdouble : 2 * (period : Int) < 2147483648 := hscaled.2
    have hsum := haccepted.2.2.2
    obtain ⟨_, _, hspec, -, -, -, -, -, hcases⟩ := stretch_spec s.cpu (by omega) hsome
    rw [hstretch] at hspec
    cases hspec
    omega
  · rintro ⟨hsome, hdouble⟩
    by_cases haccepted : Accepted s.is8285 r
    · obtain ⟨t, period, duty, hstart, hstretch, hperiod, hduty⟩ :=
        start_stored r waits s hsome haccepted
      have hsum := haccepted.2.2.2
      obtain ⟨_, _, hspec, hpos, hle, hratio, hidle, hfull, hcases⟩ :=
        stretch_spec s.cpu (by omega) hsome
      rw [hstretch] at hspec
      cases hspec
      have hscaled : ∀ n : Nat, n ≤ period → InRange (scaled s.cpu true n) := by
        intro n hn
        cases hcpu : s.cpu with
        | mhz80 =>
          have hlt := hdouble hcpu haccepted
          show _ ≤ 2 * (n : Int) ∧ 2 * (n : Int) < _
          omega
        | mhz160 =>
          show _ ≤ (n : Int) ∧ (n : Int) < _
          omega
      refine ⟨true, t, hstart, fun _ => ?_⟩
      exact {
        positive := by rw [hperiod]; omega
        least := by rw [hduty]; omega
        most := by rw [hduty, hperiod]; omega
        ratio := by rw [hduty, hperiod]; exact_mod_cast hratio
        idle := fun hhigh => by rw [hduty, hidle hhigh]; rfl
        full := fun hlow => by rw [hduty, hperiod, hfull hlow]
        period_scaled := by rw [hperiod]; exact hscaled period (Nat.le_refl _)
        duty_scaled := by rw [hduty]; exact hscaled duty hle }
    · exact ⟨false, s, start_refused r waits s hsome haccepted, fun hfalse => by cases hfalse⟩

def quiet : State where
  cpu := .mhz80
  is8285 := false
  pins := fun _ => ⟨0, 0, 0, 0, 0, 0, .infinite, 0, false⟩
  states := fun _ => false
  enabled := fun _ => false
  toSetBits := none
  toDisableBits := none
  timer1Running := false
  nextEventCcy := 0
  gpio := fun _ => false

def request (highCcys lowCcys : UInt32) : Request := ⟨4, highCcys, lowCcys, 0, -1, 0, false⟩

/-- Two empty phases divide by zero, and two phases of 2 ^ 29 cycles are
accepted although their period cannot be doubled. -/
theorem not_start_safe :
    startWaveformClockCycles (request 0 0) [] quiet = none ∧
      ¬ Safe (request 0 0) [] quiet ∧
      ¬ Safe (request 536870912 536870912) [] quiet := by
  refine ⟨rfl, fun hsafe => ?_, fun hsafe => ?_⟩
  · obtain ⟨ok, t, hstart, -⟩ := hsafe
    cases hstart
  · obtain ⟨t, period, duty, hstart, hstretch, hperiod, -⟩ :=
      start_stored (request 536870912 536870912) [] quiet (by decide)
        ⟨by decide, rfl, by decide, by decide⟩
    obtain ⟨ok, t', hstart', hstored⟩ := hsafe
    rw [hstart] at hstart'
    cases hstart'
    cases hstretch
    have hscaled := (hstored rfl).period_scaled
    rw [hperiod] at hscaled
    exact absurd hscaled (by decide)

end Waveform
