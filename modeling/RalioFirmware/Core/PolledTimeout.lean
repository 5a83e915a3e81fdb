import Mathlib.Data.List.Basic
import RalioFirmware.Basis.Word

/-!
# `polledTimeout`

A timeout keeps the tick at which it started and a number of ticks, both in 32 bits, and is asked
again and again whether it has expired.  A periodic one goes on from the last boundary of its
period that has passed, not from the tick of the question, so that it does not drift.

The ticks of the model are those since the start of the counter, without a bound; what the code
reads of them are 32 bits.
-/

open Word

/-! ## Time units -/

/-- `TimeUnit`, and the constants of its source of time. -/
structure TimeUnit where
  ticksPerSecond : Nat
  ticksPerSecondMax : Nat
  second_th : Nat

namespace TimeUnit

/-- `computeRangeCompensation`, with fractions in place of floating point. -/
def rangeCompensate (u : TimeUnit) : Nat :=
  let fractional := u.second_th % u.ticksPerSecond
  if fractional = 0 then 1 else (2 * u.second_th + fractional) / (2 * fractional)

def user2UnitMultiplierMax (u : TimeUnit) : Nat :=
  u32 (u.ticksPerSecondMax * u.rangeCompensate) / u.second_th

def user2UnitMultiplier (u : TimeUnit) : Nat :=
  u32 (u.ticksPerSecond * u.rangeCompensate) / u.second_th

def user2UnitDivider (u : TimeUnit) : Nat := u.rangeCompensate

def timeMax (u : TimeUnit) : Nat := (4294967295 - 1) / u.user2UnitMultiplierMax

def toTimeTypeUnit (u : TimeUnit) (userUnit : Nat) : Nat :=
  u32 (userUnit * u.user2UnitMultiplier) / u.user2UnitDivider

/-- `TimeMillis`. -/
def millis : TimeUnit := ⟨1000, 1000, 1000⟩

def fastMillis (frequency : Nat) : TimeUnit := ⟨frequency, 160000000, 1000⟩

def fastMicros (frequency : Nat) : TimeUnit := ⟨frequency, 160000000, 1000000⟩

def fastNanos (frequency : Nat) : TimeUnit := ⟨frequency, 160000000, 1000000000⟩

/-- The divider takes the fraction out: 12.5 nanoseconds are a tick at 80 MHz. -/
example : (fastNanos 80000000).toTimeTypeUnit 1000 = 80 ∧ (fastNanos 80000000).timeMax =
    1073741823 :=
  by decide

end TimeUnit

/-! ## The class -/

/-- `timeoutTemplate`, for a periodic timeout. -/
structure PolledTimeout where
  timeout : Nat
  start : Nat
  neverExpires : Bool
deriving DecidableEq

namespace PolledTimeout

def alwaysExpired : Nat := 0

def canWait (t : PolledTimeout) : Bool := t.timeout ≠ alwaysExpired

def reset (now : Nat) (t : PolledTimeout) : PolledTimeout := { t with start := u32 now }

/-- `reset` to a new timeout. -/
def resetTo (u : TimeUnit) (newUserTimeout now : Nat) (t : PolledTimeout) : PolledTimeout :=
  { t.reset now with
    timeout := u.toTimeTypeUnit newUserTimeout
    neverExpires := newUserTimeout > u.timeMax }

def resetAndSetExpired (now : Nat) (t : PolledTimeout) : PolledTimeout :=
  let t := t.reset now
  { t with start := sub32 t.start t.timeout }

/-- `resetAndSetExpired` to a new timeout. -/
def resetAndSetExpiredTo (u : TimeUnit) (newUserTimeout now : Nat) (t : PolledTimeout) :
    PolledTimeout :=
  let t := t.resetTo u newUserTimeout now
  { t with start := sub32 t.start t.timeout }

def resetToNeverExpires (t : PolledTimeout) : PolledTimeout :=
  { t with timeout := alwaysExpired + 1, neverExpires := true }

def create (u : TimeUnit) (userTimeout now : Nat) : PolledTimeout :=
  resetTo u userTimeout now ⟨0, 0, false⟩

def checkExpired (internalUnit : Nat) (t : PolledTimeout) : Bool :=
  !t.neverExpires && sub32 internalUnit t.start ≥ t.timeout

def divide (a b : Nat) : Option Nat := if b = 0 then none else some (a / b)

/-- `expired` of a periodic timeout; none if it divides by zero. -/
def expiredRetrigger (now : Nat) (t : PolledTimeout) : Option (Bool × PolledTimeout) :=
  if !t.canWait then some (true, t)
  else
    let current := u32 now
    if t.checkExpired current then
      (divide (sub32 current t.start) t.timeout).map fun n =>
        (true, { t with start := u32 (t.start + u32 (n * t.timeout)) })
    else some (false, t)

/-- `expired` of a one-shot timeout. -/
def expiredOneShot (now : Nat) (t : PolledTimeout) : Bool :=
  !t.canWait || t.checkExpired (u32 now)

/-! ## Polls -/

/-- What the polls at some ticks report, and the timeout after each of them. -/
def poll : List Nat → PolledTimeout → Option (List (Bool × PolledTimeout))
  | [], _ => some []
  | now :: rest, t => do
    let r ← t.expiredRetrigger now
    let results ← poll rest r.2
    return r :: results

/-- The latest boundary of the period that is not after a tick. -/
def boundary (reset period now : Nat) : Nat := reset + (now - reset) / period * period

/-- Polls do not go back in time, and come within a turn of the counter from the latest
boundary at the poll before. -/
def InTime (reset period : Nat) : Nat → List Nat → Prop
  | _, [] => True
  | last, now :: rest =>
    last ≤ now ∧ now - boundary reset period last < 4294967296 ∧ InTime reset period now rest

/-- Each poll reports whether a boundary has passed since the poll before, and leaves the latest
boundary as the start. -/
def AsDue (reset period : Nat) : Nat → List Nat → List (Bool × PolledTimeout) → Prop
  | _, [], [] => True
  | last, now :: rest, r :: results =>
    (r.1 = true ↔ ∃ k, boundary reset period last < reset + k * period ∧
      reset + k * period ≤ now) ∧
    r.2.start = u32 (boundary reset period now) ∧ AsDue reset period now rest results
  | _, _, _ => False

section

variable {first period last now : Nat}

theorem boundary_le (h : first ≤ now) : boundary first period now ≤ now := by
  have := Nat.div_mul_le_self (now - first) period
  unfold boundary
  omega

theorem passed_iff (hperiod : 0 < period) :
    (∃ k, boundary first period last < first + k * period ∧ first + k * period ≤ now) ↔
      boundary first period last + period ≤ now := by
  unfold boundary
  constructor
  · rintro ⟨k, hlt, hk⟩
    have hmore : (last - first) / period < k := by
      by_contra hge
      have := Nat.mul_le_mul_right period (Nat.le_of_not_lt hge)
      omega
    have hstep := Nat.mul_le_mul_right period (Nat.succ_le_of_lt hmore)
    rw [Nat.succ_mul] at hstep
    omega
  · intro h
    refine ⟨(last - first) / period + 1, ?_, ?_⟩
    · rw [Nat.succ_mul]
      omega
    · rw [Nat.succ_mul]
      omega

theorem boundary_step (hlast : first ≤ last) (hle : last ≤ now) :
    boundary first period last + (now - boundary first period last) / period * period =
      boundary first period now := by
  have hbefore : boundary first period last ≤ last := boundary_le hlast
  unfold boundary at hbefore ⊢
  have hsplit : now - first =
      (now - (first + (last - first) / period * period)) + period * ((last - first) / period) := by
    rw [Nat.mul_comm period]
    omega
  by_cases hperiod : period = 0
  · simp [hperiod]
  · have hquotient : (now - first) / period =
        (now - (first + (last - first) / period * period)) / period + (last - first) / period := by
      conv_lhs => rw [hsplit]
      exact Nat.add_mul_div_left _ _ (Nat.pos_of_ne_zero hperiod)
    rw [hquotient, Nat.add_mul]
    omega

theorem sub32_u32 {a b : Nat} (hle : b ≤ a) (hlt : a - b < 4294967296) :
    sub32 (u32 a) (u32 b) = a - b := by
  unfold sub32 u32
  omega

variable {t : PolledTimeout}

/-- **A one-shot timeout is never early**: where it has expired, the ticks have passed. -/
theorem le_of_expiredOneShot {start : Nat} (hstart : t.start = u32 start)
    (hle : start ≤ now) (h : t.expiredOneShot now = true) : start + t.timeout ≤ now := by
  rw [expiredOneShot, Bool.or_eq_true] at h
  rcases h with hwait | hcheck
  · have hzero : t.timeout = 0 := by
      rw [canWait, Bool.not_eq_true', decide_eq_false_iff_not, not_not] at hwait
      exact hwait
    rw [hzero]
    exact hle
  · rw [checkExpired, Bool.and_eq_true, decide_eq_true_eq, hstart] at hcheck
    have helapsed := hcheck.2
    unfold sub32 u32 at helapsed
    omega

theorem u32_u32_add (a b : Nat) : u32 (u32 a + u32 b) = u32 (a + b) := by
  unfold u32
  exact (Nat.add_mod a b 4294967296).symm

/-- Where a timeout stands that was last polled at a tick. -/
structure Running (first period last : Nat) (t : PolledTimeout) : Prop where
  timeout : t.timeout = period
  start : t.start = u32 (boundary first period last)
  expires : t.neverExpires = false

/-- **One poll** reports what is due, and goes on from the latest boundary. -/
theorem Running.poll (h : Running first period last t) (hperiod : 0 < period)
    (hlast : first ≤ last) (hle : last ≤ now)
    (hlt : now - boundary first period last < 4294967296) :
    ∃ b t', t.expiredRetrigger now = some (b, t') ∧ Running first period now t' ∧
      (b = true ↔ ∃ k, boundary first period last < first + k * period ∧
        first + k * period ≤ now) := by
  have hwait : (!t.canWait) = false := by
    have hne : t.timeout ≠ alwaysExpired := by
      rw [h.timeout]
      exact Nat.ne_of_gt hperiod
    simp [canWait, hne]
  have hbefore : boundary first period last ≤ last := boundary_le hlast
  have helapsed : sub32 (u32 now) t.start = now - boundary first period last := by
    rw [h.start]
    exact sub32_u32 (by omega) hlt
  have hstep := @boundary_step first period last now hlast hle
  have hcheck : t.checkExpired (u32 now) =
      decide (boundary first period last + period ≤ now) := by
    rw [checkExpired, h.expires, helapsed, h.timeout, Bool.not_false, Bool.true_and,
      decide_eq_decide]
    omega
  rw [passed_iff hperiod]
  by_cases hdue : boundary first period last + period ≤ now
  · -- The periods that have passed are counted, and the start moves on by them.
    have hdiv : divide (now - boundary first period last) period =
        some ((now - boundary first period last) / period) := if_neg (Nat.ne_of_gt hperiod)
    refine ⟨true, { t with start := u32 (boundary first period now) }, ?_,
      ⟨h.timeout, rfl, h.expires⟩, iff_of_true rfl hdue⟩
    rw [expiredRetrigger, hwait, if_neg Bool.false_ne_true]
    simp only [hcheck, decide_eq_true hdue, if_true]
    rw [helapsed, h.timeout, hdiv, Option.map_some, h.start, u32_u32_add, hstep]
  · -- The latest boundary is still the one before.
    have hsame : boundary first period now = boundary first period last := by
      have hzero : (now - boundary first period last) / period = 0 :=
        Nat.div_eq_of_lt (by omega)
      rw [← hstep, hzero, Nat.zero_mul, Nat.add_zero]
    refine ⟨false, t, ?_, ⟨h.timeout, hsame ▸ h.start, h.expires⟩,
      iff_of_false Bool.false_ne_true hdue⟩
    rw [expiredRetrigger, hwait, if_neg Bool.false_ne_true]
    simp only [hcheck, decide_eq_false hdue, Bool.false_eq_true, if_false]

/-- **Every poll of a run** reports what is due. -/
theorem Running.polls {polls : List Nat} (h : Running first period last t)
    (hperiod : 0 < period) (hlast : first ≤ last) (htime : InTime first period last polls) :
    ∃ results, PolledTimeout.poll polls t = some results ∧
      AsDue first period last polls results := by
  induction polls generalizing last t with
  | nil => exact ⟨[], rfl, trivial⟩
  | cons now rest ih =>
    obtain ⟨hle, hlt, hrest⟩ := htime
    obtain ⟨b, t', hpoll, hrunning, hreport⟩ := h.poll hperiod hlast hle hlt
    obtain ⟨results, hresults, hdue⟩ := ih hrunning (Nat.le_trans hlast hle) hrest
    refine ⟨(b, t') :: results, ?_, hreport, hrunning.start, hdue⟩
    rw [PolledTimeout.poll, hpoll]
    simp only [Option.bind_eq_bind, Option.bind_some, hresults]
    rfl

end

/-! ## Any use of a timeout -/

inductive Use
  | reset
  | resetTo (newUserTimeout : Nat)
  | resetAndSetExpired
  | resetAndSetExpiredTo (newUserTimeout : Nat)
  | resetToNeverExpires
  | expired

def act (u : TimeUnit) (now : Nat) : Use → PolledTimeout → Option PolledTimeout
  | .reset, t => some (t.reset now)
  | .resetTo newUserTimeout, t => some (t.resetTo u newUserTimeout now)
  | .resetAndSetExpired, t => some (t.resetAndSetExpired now)
  | .resetAndSetExpiredTo newUserTimeout, t => some (t.resetAndSetExpiredTo u newUserTimeout now)
  | .resetToNeverExpires, t => some t.resetToNeverExpires
  | .expired, t => (t.expiredRetrigger now).map Prod.snd

def run (u : TimeUnit) : List (Nat × Use) → PolledTimeout → Option PolledTimeout
  | [], t => some t
  | e :: rest, t => (t.act u e.1 e.2).bind fun t => t.run u rest

theorem expiredRetrigger_isSome (now : Nat) (t : PolledTimeout) :
    (t.expiredRetrigger now).isSome = true := by
  rw [expiredRetrigger]
  cases hwait : t.canWait with
  | false => rfl
  | true =>
    have hne : t.timeout ≠ 0 := of_decide_eq_true hwait
    simp only [Bool.not_true, Bool.false_eq_true, if_false]
    split
    · rw [divide, if_neg hne]
      rfl
    · rfl

theorem act_isSome (u : TimeUnit) (now : Nat) (use : Use) (t : PolledTimeout) :
    (t.act u now use).isSome = true := by
  cases use with
  | expired =>
    rw [act, Option.isSome_map]
    exact expiredRetrigger_isSome now t
  | reset => rfl
  | resetTo _ => rfl
  | resetAndSetExpired => rfl
  | resetAndSetExpiredTo _ => rfl
  | resetToNeverExpires => rfl

theorem run_isSome (u : TimeUnit) (uses : List (Nat × Use)) (t : PolledTimeout) :
    (t.run u uses).isSome = true := by
  induction uses generalizing t with
  | nil => rfl
  | cons e rest ih =>
    obtain ⟨t', ht'⟩ := Option.isSome_iff_exists.mp (act_isSome u e.1 e.2 t)
    rw [run, ht', Option.bind_some]
    exact ih t'

/-- **A periodic timeout does not drift**: from its reset on, a poll reports just those periods
that have ended since the poll before, and the start stays on the boundaries of the period.  And
whatever is done with a timeout, in whatever unit, no poll divides by zero. -/
theorem periodic_asDue (u : TimeUnit) {userTimeout : Nat} (hmax : userTimeout ≤ u.timeMax)
    (hticks : u.toTimeTypeUnit userTimeout ≠ 0) (first : Nat) {polls : List Nat}
    (htime : InTime first (u.toTimeTypeUnit userTimeout) first polls) :
    (∃ results, poll polls (create u userTimeout first) = some results ∧
      AsDue first (u.toTimeTypeUnit userTimeout) first polls results) ∧
    ∀ (u : TimeUnit) (userTimeout first : Nat) (uses : List (Nat × Use)),
      ((create u userTimeout first).run u uses).isSome = true := by
  refine ⟨?_, fun u userTimeout first uses => run_isSome u uses _⟩
  have hfirst : boundary first (u.toTimeTypeUnit userTimeout) first = first := by
    rw [boundary, Nat.sub_self, Nat.zero_div, Nat.zero_mul, Nat.add_zero]
  have hrunning : Running first (u.toTimeTypeUnit userTimeout) first
      (create u userTimeout first) := by
    refine ⟨rfl, ?_, ?_⟩
    · rw [hfirst]
      rfl
    · exact decide_eq_false (Nat.not_lt.mpr hmax)
  exact hrunning.polls (Nat.pos_of_ne_zero hticks) (Nat.le_refl _) htime

/-- Polls on either side of the turn of the counter. -/
theorem periodic_asDue_sample :
    (∃ results, poll [4294967290, 4294967300, 4294967420] (create TimeUnit.millis 100 4294967200) =
        some results ∧
      AsDue 4294967200 100 4294967200 [4294967290, 4294967300, 4294967420] results) :=
  (@periodic_asDue TimeUnit.millis 100 (by decide) (by decide) 4294967200
    [4294967290, 4294967300, 4294967420] ⟨by decide, by decide, by decide, by decide, by decide,
      by decide, trivial⟩).1

end PolledTimeout
