import RalioFirmware.Scout.TextCommands

/-!
# The window of `udp_smart_home`

`moveServo` writes the position it comes from and every fifth degree after it,
up to the angle asked for but not that angle, and records the angle all the
same.

* `moveServo_reached`: a call that leaves the servo at the angle has written
  nothing, so the servo was there before;
* `reached_all_iff`: all calls leave it there only where all ask for the angle
  of `setupServo`.
-/

namespace Scout

open List

namespace Home

/-- The recorded position and the angle last written are the one asked for. -/
structure Reached (angle : Int) (h : Home) : Prop where
  recorded : h.windowPos = angle
  written : h.servo.getLast? = some angle

/-- The state after some calls of `moveServo`. -/
def moves (angles : List Int) (h : Home) : Home := angles.foldl (fun h angle => h.moveServo angle) h

def AllReached (angles : List Int) (h : Home) : Prop :=
  ∀ front angle back, angles = front ++ angle :: back →
    Reached angle (moves (front ++ [angle]) h)

variable {h : Home} {angle : Int}

theorem moveServo_servo (angle : Int) (h : Home) :
    ∃ written, (h.moveServo angle).servo = h.servo ++ written ∧ angle ∉ written := by
  refine ⟨_, rfl, fun hmem => ?_⟩
  split at hmem
  · obtain ⟨i, hi, heq⟩ := mem_map.1 hmem
    rw [mem_range] at hi
    omega
  · obtain ⟨i, hi, heq⟩ := mem_map.1 hmem
    rw [mem_range] at hi
    omega

/-- **One call**: the servo is at the angle behind it only if it was before. -/
theorem moveServo_reached (hreached : Reached angle (h.moveServo angle)) :
    h.servo.getLast? = some angle := by
  obtain ⟨written, hservo, hnot⟩ := moveServo_servo angle h
  have hlast := hreached.written
  rw [hservo, getLast?_append] at hlast
  cases hwritten : written.getLast? with
  | none =>
    grind
  | some last =>
    rw [hwritten] at hlast
    obtain rfl : last = angle := Option.some.inj hlast
    exact absurd (mem_of_getLast? hwritten) hnot

theorem moveServo_self (h : Home) : h.moveServo h.windowPos = h := by
  have hnone : ((h.windowPos - h.windowPos + 4) / 5).toNat = 0 := by omega
  rw [moveServo, hnone]
  simp

theorem allReached_iff (hservo : h.servo.getLast? = some h.windowPos) (angles : List Int) :
    AllReached angles h ↔ ∀ angle ∈ angles, angle = h.windowPos := by
  induction angles with
  | nil =>
    refine ⟨fun _ angle hnone => absurd hnone not_mem_nil, fun _ front angle back heq => ?_⟩
    exact absurd (congrArg length heq) (by simp)
  | cons first rest ih =>
    constructor
    · intro hall
      have hreached : Reached first (h.moveServo first) := hall [] first rest rfl
      obtain rfl : first = h.windowPos :=
        Option.some.inj ((moveServo_reached hreached).symm.trans hservo)
      refine forall_mem_cons.2 ⟨rfl, ih.1 fun front angle back heq => ?_⟩
      have hnext := hall (h.windowPos :: front) angle back (by rw [heq]; rfl)
      rwa [cons_append, moves, foldl_cons, moveServo_self] at hnext
    · intro hsame front angle back heq
      obtain ⟨rfl, hrest⟩ := forall_mem_cons.1 hsame
      cases front with
      | nil =>
        obtain ⟨rfl, -⟩ := cons.inj heq
        rw [nil_append, moves, foldl_cons, moveServo_self]
        exact ⟨rfl, hservo⟩
      | cons again front =>
        obtain ⟨rfl, hback⟩ := cons.inj heq
        rw [cons_append, moves, foldl_cons, moveServo_self]
        exact ih.2 hrest front angle back hback

/-- **The window**: in a run of calls from set-up, each leaves the servo at the
angle recorded and asked for, exactly where all of them ask for the angle of
set-up. -/
theorem reached_all_iff (angles : List Int) :
    AllReached angles init ↔ ∀ angle ∈ angles, angle = init.windowPos :=
  allReached_iff rfl angles

/-- From 10 to 180 in steps of five: the last angle written is 175. -/
theorem not_reached_open :
    (moves [180] init).windowPos = 180 ∧ (moves [180] init).servo.getLast? = some 175 ∧
      ¬ AllReached [180] init := by
  refine ⟨by decide, by decide, fun hall => ?_⟩
  exact absurd (hall [] 180 [] rfl).written (by decide)

end Home

end Scout
