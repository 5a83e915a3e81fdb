import RalioFirmware.Mesh.Connections

/-!
# How long a tracker lasts

A tracker keeps the tick at which it started and the whole of its duration, so a remaining duration
is stored as what has elapsed and what is to come, in 32 bits.  It starts with its object, and
renewals do not start it again: the sum turns over when a tracker that is renewed again and again
comes close to 2 ^ 32 milliseconds, and what has elapsed does so at any rate.
-/

namespace Mesh

/-! ## The class -/

/-- `ExpiringTimeTracker`: with a fixed duration, or with a calculator that says at every question
how long the duration is. -/
structure DurationTracker where
  fixed : ExpiringTimeTracker
  durationCalculator : Option (Nat → Nat)

namespace DurationTracker

def duration (now : Nat) (t : DurationTracker) : Nat :=
  match t.durationCalculator with
  | some calculator => calculator now
  | none => t.fixed.timeout

def setDuration (duration : Nat) (t : DurationTracker) : DurationTracker :=
  ⟨{ t.fixed with timeout := duration }, none⟩

/-- `setDuration` to a calculator. -/
def setCalculator (durationCalculator : Nat → Nat) (t : DurationTracker) : DurationTracker :=
  { t with durationCalculator := some durationCalculator }

def elapsedTime (now : Nat) (t : DurationTracker) : Nat := t.fixed.elapsedTime now

def setRemainingDuration (remainingDuration now : Nat) (t : DurationTracker) : DurationTracker :=
  t.setDuration ((t.elapsedTime now + remainingDuration) % 4294967296)

/-- `setRemainingDuration` to a calculator. -/
def setRemainingCalculator (remainingDurationCalculator : Nat → Nat) (now : Nat)
    (t : DurationTracker) : DurationTracker :=
  t.setCalculator fun later => (t.elapsedTime now + remainingDurationCalculator later) % 4294967296

def expired (now : Nat) (t : DurationTracker) : Bool :=
  match t.durationCalculator with
  | some calculator => t.elapsedTime now ≥ calculator now
  | none => t.fixed.expired now

/-- The clock is read for `expired`, and once more for the difference. -/
def remainingDuration (now later : Nat) (t : DurationTracker) : Nat :=
  if t.expired now then 0
  else (t.duration later + (4294967296 - t.elapsedTime later)) % 4294967296

def reset (now : Nat) (t : DurationTracker) : DurationTracker :=
  { t with fixed := { t.fixed with start := now % 4294967296 } }

/-! ## Runs -/

/-- What a program does with a tracker; a question reads the clock for the second time at
`later`. -/
inductive Use where
  | setDuration (duration : Nat)
  | setCalculator (durationCalculator : Nat → Nat)
  | setRemainingDuration (remainingDuration : Nat)
  | setRemainingCalculator (remainingDurationCalculator : Nat → Nat)
  | reset
  | resetTo (newDuration : Nat)
  | resetToCalculator (newDurationCalculator : Nat → Nat)
  | ask (later : Nat)

def act (now : Nat) (t : DurationTracker) : Use → DurationTracker
  | .setDuration duration => t.setDuration duration
  | .setCalculator calculator => t.setCalculator calculator
  | .setRemainingDuration remaining => t.setRemainingDuration remaining now
  | .setRemainingCalculator calculator => t.setRemainingCalculator calculator now
  | .reset => t.reset now
  | .resetTo newDuration => (t.setDuration newDuration).reset now
  | .resetToCalculator calculator => (t.setCalculator calculator).reset now
  | .ask _ => t

/-- A remaining duration, when it was set, and what `elapsedTime` said then. -/
structure Renewal where
  time : Nat
  remaining : Nat
  elapsed : Nat

def renewal (now : Nat) (t : DurationTracker) (inForce : Option Renewal) : Use → Option Renewal
  | .setRemainingDuration remaining => some ⟨now, remaining, t.elapsedTime now⟩
  | .ask _ => inForce
  | _ => none

/-- A question to a tracker while a remaining duration is in force. -/
structure Query where
  tracker : DurationTracker
  renewal : Renewal
  now : Nat
  later : Nat

def asked (now : Nat) (t : DurationTracker) (inForce : Option Renewal) : Use → List Query
  | .ask later => (inForce.map fun renewal => ⟨t, renewal, now, later⟩).toList
  | _ => []

def queries : List (Nat × Use) → DurationTracker → Option Renewal → List Query
  | [], _, _ => []
  | (now, use) :: rest, t, inForce =>
    t.asked now inForce use ++ queries rest (t.act now use) (t.renewal now inForce use)

def Use.finish (now : Nat) : Use → Nat
  | .ask later => later
  | _ => now

/-- A question does not go back in time, and a remaining duration is below 2 ^ 31. -/
def Use.Fits (now : Nat) : Use → Prop
  | .ask later => now ≤ later
  | .setRemainingDuration remaining => remaining < 2147483648
  | _ => True

def InOrder : Nat → List (Nat × Use) → Prop
  | _, [] => True
  | last, (now, use) :: rest => last ≤ now ∧ use.Fits now ∧ InOrder (use.finish now) rest

namespace Query

/-- The tracker has expired just from the end of the duration on, and says what is left of it. -/
def Right (q : Query) : Prop :=
  q.tracker.expired q.now = decide (q.renewal.time + q.renewal.remaining ≤ q.now) ∧
    q.tracker.remainingDuration q.now q.later =
      q.renewal.remaining - (q.later - q.renewal.time)

end Query

/-- `elapsed` milliseconds after a tracker had elapsed by `before` and was to last for `remaining`
more: while it lasts, the elapsed time has turned over as often as the duration, and no question
sees the end between its two looks at the clock; from the end on, the elapsed time of 32 bits is
not below the duration, which is not the one that never ends. -/
def Kept (before remaining elapsed later : Nat) : Prop :=
  (elapsed < remaining →
    (before + elapsed) / 4294967296 = (before + remaining) / 4294967296 ∧
      (later - remaining) % 4294967296 = 0) ∧
  (remaining ≤ elapsed →
    (before + remaining) % 4294967296 ≤ (before + elapsed) % 4294967296 ∧
      (before + remaining) % 4294967296 ≠ 4294967295)

def Query.Kept (q : Query) : Prop :=
  DurationTracker.Kept q.renewal.elapsed q.renewal.remaining (q.now - q.renewal.time)
    (q.later - q.renewal.time)

theorem kept_of_lt {before remaining elapsed later : Nat}
    (hduration : before + remaining < 4294967295) (helapsed : before + elapsed < 4294967296)
    (hlook : elapsed < remaining → later ≤ remaining) :
    Kept before remaining elapsed later := by
  refine ⟨fun hmore => ⟨?_, ?_⟩, fun hover => ⟨?_, ?_⟩⟩
  · omega
  · rw [Nat.sub_eq_zero_of_le (hlook hmore)]
  · omega
  · omega

/-! ## One question -/

/-- What a tracker is while a remaining duration is in force. -/
structure Lasts (x : Renewal) (t : DurationTracker) : Prop where
  fixed : t.durationCalculator = none
  timeout : t.fixed.timeout = (x.elapsed + x.remaining) % 4294967296
  remaining_lt : x.remaining < 2147483648
  elapsed_lt : x.elapsed < 4294967296
  elapsedTime : ∀ now, x.time ≤ now →
    t.elapsedTime now = (x.elapsed + (now - x.time)) % 4294967296

theorem elapsedTime_lt (now : Nat) (t : DurationTracker) : t.elapsedTime now < 4294967296 :=
  Nat.mod_lt _ (by decide)

/-- **A renewal** keeps the start, and what has elapsed goes on. -/
theorem lasts_setRemainingDuration {remaining now : Nat} (h : remaining < 2147483648)
    (t : DurationTracker) :
    Lasts ⟨now, remaining, t.elapsedTime now⟩ (t.setRemainingDuration remaining now) where
  fixed := rfl
  timeout := rfl
  remaining_lt := h
  elapsed_lt := elapsedTime_lt now t
  elapsedTime := by
    intro later hle
    show (later % 4294967296 + (4294967296 - t.fixed.start)) % 4294967296 =
      ((now % 4294967296 + (4294967296 - t.fixed.start)) % 4294967296 + (later - now)) % 4294967296
    dsimp only at hle
    omega

section

variable {x : Renewal} {t : DurationTracker} {now later : Nat}

theorem Lasts.expired_iff (h : Lasts x t) (htime : x.time ≤ now) :
    t.expired now = true ↔
      (x.elapsed + x.remaining) % 4294967296 ≤ (x.elapsed + (now - x.time)) % 4294967296 ∧
        (x.elapsed + x.remaining) % 4294967296 ≠ 4294967295 := by
  have helapsed : t.fixed.elapsedTime now = _ := h.elapsedTime now htime
  have htimeout := h.timeout
  have hnever : t.fixed.neverExpires = true ↔
      (x.elapsed + x.remaining) % 4294967296 = 4294967295 := by
    rw [ExpiringTimeTracker.neverExpires, decide_eq_true_eq, htimeout,
      ExpiringTimeTracker.timeMax]
    omega
  rw [expired, h.fixed]
  dsimp only
  rw [ExpiringTimeTracker.expired, helapsed, htimeout, Bool.or_eq_true, Bool.and_eq_true,
    decide_eq_true_eq, decide_eq_true_eq, Bool.not_eq_true', ← Bool.not_eq_true, hnever]
  omega

theorem Lasts.running_iff (h : Lasts x t) (htime : x.time ≤ now)
    (hmore : now - x.time < x.remaining) :
    t.expired now = false ↔ (x.elapsed + (now - x.time)) / 4294967296 =
      (x.elapsed + x.remaining) / 4294967296 := by
  have hremaining := h.remaining_lt
  have helapsed := h.elapsed_lt
  rw [← Bool.not_eq_true, h.expired_iff htime]
  omega

theorem Lasts.remaining_iff (h : Lasts x t) (htime : x.time ≤ later)
    (hrunning : t.expired now = false) :
    t.remainingDuration now later = x.remaining - (later - x.time) ↔
      (later - x.time - x.remaining) % 4294967296 = 0 := by
  have hremaining := h.remaining_lt
  have helapsed := h.elapsed_lt
  have hduration : t.duration later = (x.elapsed + x.remaining) % 4294967296 := by
    rw [duration, h.fixed]
    exact h.timeout
  rw [remainingDuration, hrunning, if_neg Bool.false_ne_true, hduration, h.elapsedTime later htime]
  omega

/-- **A question is answered right just where its duration is kept.** -/
theorem Lasts.right_iff (h : Lasts x t) (htime : x.time ≤ now) (hle : now ≤ later) :
    (Query.mk t x now later).Right ↔ (Query.mk t x now later).Kept := by
  unfold Query.Right Query.Kept Kept
  dsimp only
  by_cases hmore : now - x.time < x.remaining
  · have hend : decide (x.time + x.remaining ≤ now) = false := decide_eq_false (by omega)
    rw [hend, h.running_iff htime hmore]
    constructor
    · rintro ⟨hturn, hleft⟩
      have hrunning := (h.running_iff htime hmore).mpr hturn
      refine ⟨fun _ => ⟨hturn, ?_⟩, fun hover => absurd hmore (Nat.not_lt.mpr hover)⟩
      exact (h.remaining_iff (Nat.le_trans htime hle) hrunning).mp hleft
    · rintro ⟨hkept, -⟩
      obtain ⟨hturn, hlook⟩ := hkept hmore
      have hrunning := (h.running_iff htime hmore).mpr hturn
      exact ⟨hturn, (h.remaining_iff (Nat.le_trans htime hle) hrunning).mpr hlook⟩
  · have hover : x.remaining ≤ now - x.time := Nat.le_of_not_lt hmore
    have hend : decide (x.time + x.remaining ≤ now) = true := decide_eq_true (by omega)
    rw [hend, h.expired_iff htime]
    constructor
    · grind
    · rintro ⟨-, hkept⟩
      refine ⟨hkept hover, ?_⟩
      have hexpired := (h.expired_iff htime).mpr (hkept hover)
      rw [remainingDuration, if_pos hexpired]
      omega

end

/-! ## Every question -/

theorem lasts_act {last now : Nat} {t : DurationTracker} {inForce : Option Renewal} {use : Use}
    (h : ∀ x, inForce = some x → Lasts x t ∧ x.time ≤ last) (hle : last ≤ now)
    (hfits : use.Fits now) (x : Renewal) (hx : t.renewal now inForce use = some x) :
    Lasts x (t.act now use) ∧ x.time ≤ use.finish now := by
  cases use with
  | setRemainingDuration remaining =>
    cases hx
    exact ⟨lasts_setRemainingDuration hfits t, Nat.le_refl now⟩
  | ask later =>
    obtain ⟨hlasts, htime⟩ := h x hx
    exact ⟨hlasts, Nat.le_trans htime (Nat.le_trans hle hfits)⟩
  | setDuration _ => cases hx
  | setCalculator _ => cases hx
  | setRemainingCalculator _ => cases hx
  | reset => cases hx
  | resetTo _ => cases hx
  | resetToCalculator _ => cases hx

theorem queries_right_iff {uses : List (Nat × Use)} {last : Nat} {t : DurationTracker}
    {inForce : Option Renewal} (h : ∀ x, inForce = some x → Lasts x t ∧ x.time ≤ last)
    (horder : InOrder last uses) : ∀ q ∈ queries uses t inForce, q.Right ↔ q.Kept := by
  induction uses generalizing last t inForce with
  | nil => exact fun q hq => by cases hq
  | cons e rest ih =>
    obtain ⟨now, use⟩ := e
    obtain ⟨hle, hfits, hrest⟩ := horder
    intro q hq
    rcases List.mem_append.mp hq with hasked | hlater
    · cases use with
      | ask later =>
        cases inForce with
        | none => cases hasked
        | some x =>
          obtain rfl := List.mem_singleton.mp hasked
          obtain ⟨hlasts, htime⟩ := h x rfl
          exact hlasts.right_iff (Nat.le_trans htime hle) hfits
      | setDuration _ => cases hasked
      | setCalculator _ => cases hasked
      | setRemainingDuration _ => cases hasked
      | setRemainingCalculator _ => cases hasked
      | reset => cases hasked
      | resetTo _ => cases hasked
      | resetToCalculator _ => cases hasked
    · exact ih (lasts_act h hle hfits) hrest q hlater

/-! ## Temporary connections -/

/-- What `elapsedTime` says of the tracker of a connection; a new one has not begun. -/
def connectionElapsed (now : Nat) (e : EncryptedConnectionLog) : Nat :=
  (e.timeTracker.map (ExpiringTimeTracker.elapsedTime now)).getD 0

theorem lasts_withDuration {remaining now : Nat} (h : remaining < 2147483648)
    (e : EncryptedConnectionLog) :
    ∃ tracker, (ConnectionManager.withDuration remaining now e).timeTracker = some tracker ∧
      Lasts ⟨now, remaining, connectionElapsed now e⟩ ⟨tracker, none⟩ := by
  unfold ConnectionManager.withDuration connectionElapsed
  cases e.timeTracker with
  | some tracker => exact ⟨_, rfl, lasts_setRemainingDuration h ⟨tracker, none⟩⟩
  | none =>
    refine ⟨_, rfl, rfl, ?_, h, ?_, fun later hle => ?_⟩
    · show remaining = (0 + remaining) % 4294967296
      omega
    · show 0 < 4294967296
      decide
    · show (later % 4294967296 + (4294967296 - now % 4294967296)) % 4294967296 =
        (0 + (later - now)) % 4294967296
      dsimp only at hle
      omega

/-- **A remaining duration** is over when it is to be over, and what is left is said right, at
every question of every program and for every connection, just where the turn of the counter does
not come between. -/
theorem remaining_kept_iff (t : DurationTracker) {start : Nat} {uses : List (Nat × Use)}
    (horder : InOrder start uses) :
    (∀ q ∈ queries uses t none, q.Right ↔ q.Kept) ∧
    ∀ (e : EncryptedConnectionLog) (remaining renewed now : Nat), remaining < 2147483648 →
      renewed ≤ now →
      ∃ tracker, (ConnectionManager.withDuration remaining renewed e).timeTracker = some tracker ∧
        (tracker.expired now = decide (renewed + remaining ≤ now) ∧
            tracker.remainingDuration now = remaining - (now - renewed) ↔
          Kept (connectionElapsed renewed e) remaining (now - renewed) (now - renewed)) := by
  constructor
  · exact queries_right_iff (fun x hx => by cases hx) horder
  · intro e remaining renewed now hremaining hle
    obtain ⟨tracker, htracker, hlasts⟩ := lasts_withDuration hremaining e
    exact ⟨tracker, htracker, hlasts.right_iff hle (Nat.le_refl now)⟩

def renewedTwice : List (Nat × Use) :=
  [(4294967200, .setRemainingDuration 500), (4294967300, .ask 4294967300),
    (4294967400, .setRemainingDuration 1000), (4294968399, .ask 4294968400),
    (4294968400, .ask 4294968401)]

/-- The clock may turn over as long as what has elapsed does not. -/
theorem remaining_kept_iff_sample :
    (Query.mk ⟨⟨4294967000, 1400⟩, none⟩ ⟨4294967400, 1000, 400⟩ 4294968399 4294968400).Right ∧
      (Query.mk ⟨⟨4294967000, 1400⟩, none⟩ ⟨4294967400, 1000, 400⟩ 4294968400
        4294968401).Right := by
  have horder : InOrder 4294967000 renewedTwice :=
    ⟨by decide, show 500 < 2147483648 by decide, by decide,
      show 4294967300 ≤ 4294967300 by decide, by decide, show 1000 < 2147483648 by decide,
      by decide, show 4294968399 ≤ 4294968400 by decide, by decide,
      show 4294968400 ≤ 4294968401 by decide, trivial⟩
  have hkept := (remaining_kept_iff ⟨⟨4294967000, 0⟩, none⟩ horder).1
  refine ⟨(hkept _ (.tail _ (.head _))).mpr ?_, (hkept _ (.tail _ (.tail _ (.head _)))).mpr ?_⟩
  · exact kept_of_lt (by decide) (by decide) (fun _ => by decide)
  · exact kept_of_lt (by decide) (by decide) (fun hmore => absurd hmore (by decide))

/-- A second renewed close to the turn of what has elapsed is over at once. -/
theorem not_remaining_kept :
    ¬ ∀ (t : DurationTracker) (start : Nat) (uses : List (Nat × Use)), InOrder start uses →
      ∀ q ∈ queries uses t none, q.Right := by
  intro h
  have hright := h ⟨⟨0, 1000⟩, none⟩ 0
    [(4294967000, .setRemainingDuration 1000), (4294967000, .ask 4294967000)]
    ⟨by decide, show 1000 < 2147483648 by decide, by decide,
      show 4294967000 ≤ 4294967000 by decide, trivial⟩ _ (List.mem_singleton.mpr rfl)
  exact absurd hright.1 (by decide)

end DurationTracker

end Mesh
