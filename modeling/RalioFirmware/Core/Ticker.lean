/-!
# `Ticker`

A `Ticker` calls a function once or again and again, off a timer of the SDK
that cannot be armed for more than `DurationMax` milliseconds.  A longer
duration is halved until it fits and the expirations are counted in `_tick`.
The function may attach or detach its own ticker while it runs.

`Ticker` is the class, with what the SDK knows of its timer.  `Plan` is what
a ticker is for: the function attached last, after so many expirations.
The class follows its plan as long as no short duration is attached over a
split one (`ticker_follows_plan`).
-/

/-- `callback_tick_t`. -/
structure CallbackTick where
  total : Nat
  count : Nat
deriving DecidableEq

/-- `Ticker`, for callbacks `C`.  `armed` is the SDK's side of the timer: the
milliseconds and whether it starts again by itself. -/
structure Ticker (C : Type) where
  callback : Option C
  tick : Option CallbackTick
  repeats : Bool
  timer : Bool
  armed : Option (Nat × Bool)

namespace Ticker

variable {C : Type}

def idle : Ticker C := ⟨none, none, false, false, none⟩

/-- `DurationMax`, the longest the SDK's timer runs. -/
def DurationMax : Nat := 6870947

/-- The loop of `_attach`: `total` doubles and the duration halves until it
fits.  A 32-bit duration fits after at most 32 rounds. -/
def splitLoop : Nat → Nat → Nat → Nat × Nat
  | 0, total, milliseconds => (total, milliseconds)
  | rounds+1, total, milliseconds =>
    if milliseconds > DurationMax then splitLoop rounds (total * 2) (milliseconds / 2)
    else (total, milliseconds)

/-- `_attach`. -/
def attachTimer (milliseconds : Nat) (repeats : Bool) (s : Ticker C) : Ticker C :=
  let s := { s with timer := true, armed := none, repeats := repeats }
  if milliseconds > DurationMax then
    let (total, milliseconds) := splitLoop 32 1 milliseconds
    { s with tick := some ⟨total, 0⟩, armed := some (milliseconds, true) }
  else { s with armed := some (milliseconds, repeats) }

def detach (s : Ticker C) : Ticker C :=
  if s.timer then
    { s with armed := none, timer := false, tick := none, callback := none }
  else s

/-- The calls made on a ticker.  The members of the attach family set the
callback and call `_attach`; those that take seconds convert them first. -/
inductive Op (C : Type)
  | attach_ms (milliseconds : Nat) (callback : C)
  | once_ms (milliseconds : Nat) (callback : C)
  | detach

def Op.run : Op C → Ticker C → Ticker C
  | .attach_ms milliseconds callback, s =>
    attachTimer milliseconds true { s with callback := some callback }
  | .once_ms milliseconds callback, s =>
    attachTimer milliseconds false { s with callback := some callback }
  | .detach, s => s.detach

def runOps (ops : List (Op C)) (s : Ticker C) : Ticker C := ops.foldl (fun s op => op.run s) s

/-- The count at the head of `_static_callback`: whether the callback's time
has not come yet. -/
def counted (s : Ticker C) : Bool × Ticker C :=
  match s.tick with
  | some tick =>
    let tick := { tick with count := tick.count + 1 }
    (tick.count < tick.total, { s with tick := some tick })
  | none => (false, s)

/-- The rest of `_static_callback`: the callback `tmp` has been taken out and
has left the ticker as `s`. -/
def putBack (tmp : Option C) (s : Ticker C) : Ticker C :=
  if s.timer = false ∨ s.callback.isSome then s
  else
    let s := { s with callback := tmp }
    if s.repeats then { s with tick := s.tick.map fun tick => { tick with count := 0 } }
    else s.detach

/-- `_static_callback`: the callback it has called, which makes the calls
`body` says. -/
def staticCallback (body : C → List (Op C)) (s : Ticker C) : Option C × Ticker C :=
  match s.counted with
  | (true, s) => (none, s)
  | (false, s) =>
    let tmp := s.callback
    let s := { s with callback := none }
    (tmp, putBack tmp (runOps (tmp.elim [] body) s))

def expire (body : C → List (Op C)) (s : Ticker C) : Option C × Ticker C :=
  match s.armed with
  | none => (none, s)
  | some (milliseconds, again) =>
    staticCallback body { s with armed := if again then some (milliseconds, true) else none }

/-- What happens to a ticker: a call from outside, or an expiration, with
what each callback would do if it were called now. -/
inductive Event (C : Type)
  | call (op : Op C)
  | expired (body : C → List (Op C))

def Event.run : Event C → Ticker C → Option C × Ticker C
  | .call op, s => (none, op.run s)
  | .expired body, s => s.expire body

/-- The callbacks called by the events of a run, in order. -/
def invoked : List (Event C) → Ticker C → List (Option C)
  | [], _ => []
  | e :: events, s => (e.run s).1 :: invoked events (e.run s).2

end Ticker

/-! ## What a ticker is for -/

/-- What is to be called, after how many expirations, how many of them are
still to come, and whether it starts over then. -/
structure Plan (C : Type) where
  callback : C
  expirations : Nat
  left : Nat
  repeats : Bool

namespace Plan

open Ticker

variable {C : Type}

def split (milliseconds : Nat) : Nat :=
  if milliseconds > DurationMax then (splitLoop 32 1 milliseconds).1 else 1

def op : Op C → Option (Plan C)
  | .attach_ms milliseconds callback =>
    some ⟨callback, split milliseconds, split milliseconds, true⟩
  | .once_ms milliseconds callback =>
    some ⟨callback, split milliseconds, split milliseconds, false⟩
  | .detach => none

def ops (calls : List (Op C)) (plan : Option (Plan C)) : Option (Plan C) :=
  calls.foldl (fun _ call => op call) plan

/-- The plan when its callback has been called: it starts over or is done,
unless the callback has made another. -/
def next (body : C → List (Op C)) (plan : Plan C) : Option (Plan C) :=
  ops (body plan.callback)
    (if plan.repeats then some { plan with left := plan.expirations } else none)

def expire (body : C → List (Op C)) : Option (Plan C) → Option C × Option (Plan C)
  | none => (none, none)
  | some plan =>
    if plan.left > 1 then (none, some { plan with left := plan.left - 1 })
    else (some plan.callback, next body plan)

def event : Event C → Option (Plan C) → Option C × Option (Plan C)
  | .call call, _ => (none, op call)
  | .expired body, plan => expire body plan

def invoked : List (Event C) → Option (Plan C) → List (Option C)
  | [], _ => []
  | e :: events, plan => (event e plan).1 :: invoked events (event e plan).2

end Plan

namespace Ticker

variable {C : Type}

/-! ## When the class follows its plan -/

/-- A call that leaves no count of an earlier duration behind that would
matter: a short duration is attached to a ticker without a count, or, to be
called once, over a count with at most one expiration to go. -/
def Fresh (s : Ticker C) : Op C → Prop
  | .attach_ms milliseconds _ => milliseconds ≤ DurationMax → s.tick = none
  | .once_ms milliseconds _ =>
    milliseconds ≤ DurationMax → ∀ tick, s.tick = some tick → tick.total ≤ tick.count + 1
  | .detach => True

def FreshOps : List (Op C) → Ticker C → Prop
  | [], _ => True
  | op :: ops, s => Fresh s op ∧ FreshOps ops (op.run s)

/-- The callback that an expiration is to call, and the ticker as it finds
it. -/
def during (s : Ticker C) : Option (C × Ticker C) :=
  match s.armed with
  | none => none
  | some (milliseconds, again) =>
    match counted { s with armed := if again then some (milliseconds, true) else none } with
    | (true, _) => none
    | (false, s) => s.callback.map fun callback => (callback, { s with callback := none })

def FreshEvent (s : Ticker C) : Event C → Prop
  | .call op => Fresh s op
  | .expired body => ∀ callback s', s.during = some (callback, s') → FreshOps (body callback) s'

def FreshRun : List (Event C) → Ticker C → Prop
  | [], _ => True
  | e :: events, s => FreshEvent s e ∧ FreshRun events (e.run s).2

/-- What a ticker counts towards its callback: nothing, its own
expirations, or an old count that is as good as nothing. -/
inductive Counts : Option CallbackTick → Nat → Nat → Bool → Bool → Prop
  | plain (repeats : Bool) : Counts none 1 1 repeats repeats
  | own {total count : Nat} (repeats : Bool) (h : count < total) :
      Counts (some ⟨total, count⟩) total (total - count) repeats true
  | spent {total count : Nat} (h : total ≤ count + 1) :
      Counts (some ⟨total, count⟩) 1 1 false false

inductive Follows : Ticker C → Option (Plan C) → Prop
  | idle (repeats : Bool) : Follows ⟨none, none, repeats, false, none⟩ none
  | attached {tick : Option CallbackTick} {expirations left milliseconds : Nat}
      {repeats again : Bool} (callback : C) (h : Counts tick expirations left repeats again) :
      Follows ⟨some callback, tick, repeats, true, some (milliseconds, again)⟩
        (some ⟨callback, expirations, left, repeats⟩)

theorem splitLoop_le (rounds total milliseconds : Nat) :
    total ≤ (splitLoop rounds total milliseconds).1 := by
  induction rounds generalizing total milliseconds with
  | zero => exact Nat.le_refl _
  | succ rounds ih =>
    unfold splitLoop
    split
    · exact Nat.le_trans (by omega) (ih (total * 2) (milliseconds / 2))
    · exact Nat.le_refl _

theorem attachTimer_follows (s : Ticker C) (callback : C) (milliseconds : Nat) (repeats : Bool)
    (h : milliseconds ≤ DurationMax → s.tick = none ∨
      repeats = false ∧ ∀ tick, s.tick = some tick → tick.total ≤ tick.count + 1) :
    Follows (attachTimer milliseconds repeats { s with callback := some callback })
      (some ⟨callback, Plan.split milliseconds, Plan.split milliseconds, repeats⟩) := by
  unfold attachTimer Plan.split
  by_cases hlong : milliseconds > DurationMax
  · rw [if_pos hlong, if_pos hlong]
    exact .attached callback
      (.own repeats (Nat.lt_of_lt_of_le Nat.one_pos (splitLoop_le 32 1 milliseconds)))
  · rw [if_neg hlong, if_neg hlong]
    obtain ⟨callback', tick, repeats', timer, armed⟩ := s
    rcases h (Nat.le_of_not_lt hlong) with rfl | ⟨rfl, htick⟩
    · exact .attached callback (.plain repeats)
    · cases tick with
      | none => exact .attached callback (.plain false)
      | some tick => exact .attached callback (.spent (htick tick rfl))

variable {s : Ticker C}

theorem detach_follows (h : s.timer = true) : Follows s.detach none := by
  unfold detach
  rw [if_pos h]
  exact .idle s.repeats

theorem Follows.detached {plan : Option (Plan C)} (h : Follows s plan) :
    Follows s.detach none := by
  cases h with
  | idle repeats => exact .idle repeats
  | attached callback _ => exact detach_follows rfl

theorem run_follows {op : Op C} (hdetached : Follows s.detach none) (hop : Fresh s op) :
    Follows (op.run s) (Plan.op op) := by
  cases op with
  | attach_ms milliseconds callback =>
    exact attachTimer_follows s callback milliseconds true fun hle => .inl (hop hle)
  | once_ms milliseconds callback =>
    exact attachTimer_follows s callback milliseconds false fun hle => .inr ⟨rfl, hop hle⟩
  | detach => exact hdetached

theorem runOps_follows {plan : Option (Plan C)} {ops : List (Op C)}
    (h : Follows s plan) (hops : FreshOps ops s) :
    Follows (runOps ops s) (Plan.ops ops plan) := by
  induction ops generalizing s plan with
  | nil => exact h
  | cons op ops ih => exact ih (run_follows h.detached hops.1) hops.2

theorem putBack_eq {plan : Option (Plan C)} (h : Follows s plan) (tmp : Option C) :
    putBack tmp s = s := by
  cases h with
  | idle repeats => exact if_pos (.inl rfl)
  | attached callback _ => exact if_pos (.inr rfl)

theorem next_follows {s : Ticker C} {plan : Plan C} {body : C → List (Op C)}
    (htimer : s.timer = true) (hfresh : FreshOps (body plan.callback) s)
    (hback : Follows (putBack (some plan.callback) s)
      (if plan.repeats then some { plan with left := plan.expirations } else none)) :
    Follows (putBack (some plan.callback) (runOps (body plan.callback) s))
      (Plan.next body plan) := by
  unfold Plan.next
  cases hbody : body plan.callback with
  | nil => exact hback
  | cons op ops =>
    rw [hbody] at hfresh
    have hops : Follows (runOps ops (op.run s)) (Plan.ops ops (Plan.op op)) :=
      runOps_follows (run_follows (detach_follows htimer) hfresh.1) hfresh.2
    show Follows (putBack _ (runOps ops (op.run s))) _
    rw [putBack_eq hops]
    exact hops

theorem expire_called {s s' : Ticker C} {milliseconds : Nat} {again : Bool} {callback : C}
    (harmed : s.armed = some (milliseconds, again))
    (hcount : counted { s with armed := if again then some (milliseconds, true) else none } =
      (false, s')) (hcallback : s'.callback = some callback) (body : C → List (Op C)) :
    s.during = some (callback, { s' with callback := none }) ∧
      s.expire body = (some callback,
        putBack (some callback) (runOps (body callback) { s' with callback := none })) := by
  unfold during expire staticCallback
  rw [harmed]
  dsimp only
  rw [hcount]
  dsimp only
  rw [hcallback]
  exact ⟨rfl, rfl⟩

/-- **An expiration** calls the callback the plan says, when it says so. -/
theorem expire_follows {plan : Option (Plan C)} {body : C → List (Op C)}
    (h : Follows s plan) (hfresh : FreshEvent s (.expired body)) :
    (s.expire body).1 = (Plan.expire body plan).1 ∧
      Follows (s.expire body).2 (Plan.expire body plan).2 := by
  cases h with
  | idle repeats => exact ⟨rfl, .idle repeats⟩
  | @attached tick expirations left milliseconds repeats again callback hcounts =>
    cases hcounts with
    | plain =>
      obtain ⟨hduring, hexpire⟩ := @expire_called C ⟨some callback, none, repeats, true,
        some (milliseconds, repeats)⟩ _ _ _ callback rfl rfl rfl body
      have hnext := @next_follows C _ ⟨callback, 1, 1, repeats⟩ body rfl (hfresh _ _ hduring)
      rw [hexpire]
      refine ⟨rfl, hnext ?_⟩
      cases repeats with
      | true => exact .attached callback (.plain true)
      | false => exact .idle false
    | @own _ count _ hlt =>
      by_cases hmore : count + 1 < expirations
      · have hexpire : expire body ⟨some callback, some ⟨expirations, count⟩, repeats, true,
            some (milliseconds, true)⟩ = (none, ⟨some callback, some ⟨expirations, count + 1⟩,
            repeats, true, some (milliseconds, true)⟩) := by
          simp [expire, staticCallback, counted, hmore]
        have hplan : Plan.expire body
            (some ⟨callback, expirations, expirations - count, repeats⟩) =
            (none, some ⟨callback, expirations, expirations - (count + 1), repeats⟩) :=
          if_pos (show expirations - count > 1 by omega)
        rw [hexpire, hplan]
        exact ⟨rfl, .attached callback (.own repeats hmore)⟩
      · have hcount : counted (⟨some callback, some ⟨expirations, count⟩, repeats, true,
            some (milliseconds, true)⟩ : Ticker C) = (false, ⟨some callback,
            some ⟨expirations, count + 1⟩, repeats, true, some (milliseconds, true)⟩) := by
          simp [counted, hmore]
        have hplan : Plan.expire body
            (some ⟨callback, expirations, expirations - count, repeats⟩) = (some callback,
            Plan.next body ⟨callback, expirations, expirations - count, repeats⟩) :=
          if_neg (show ¬ expirations - count > 1 by omega)
        obtain ⟨hduring, hexpire⟩ := @expire_called C ⟨some callback,
          some ⟨expirations, count⟩, repeats, true, some (milliseconds, true)⟩ _ _ _
          callback rfl hcount rfl body
        have hnext := @next_follows C _ ⟨callback, expirations, expirations - count, repeats⟩
          body rfl (hfresh _ _ hduring)
        rw [hexpire, hplan]
        refine ⟨rfl, hnext ?_⟩
        cases repeats with
        | true => exact .attached callback (.own true (Nat.lt_of_le_of_lt (Nat.zero_le _) hlt))
        | false => exact .idle false
    | @spent total count hle =>
      have hcount : counted (⟨some callback, some ⟨total, count⟩, false, true, none⟩ :
          Ticker C) = (false, ⟨some callback, some ⟨total, count + 1⟩, false, true, none⟩) := by
        simp [counted, hle]
      obtain ⟨hduring, hexpire⟩ := @expire_called C
        ⟨some callback, some ⟨total, count⟩, false, true, some (milliseconds, false)⟩ _ _ _
        callback rfl hcount rfl body
      have hnext := @next_follows C _ ⟨callback, 1, 1, false⟩ body rfl (hfresh _ _ hduring)
      rw [hexpire]
      exact ⟨rfl, hnext (.idle false)⟩

theorem event_follows {plan : Option (Plan C)} {e : Event C} (h : Follows s plan)
    (hfresh : FreshEvent s e) :
    (e.run s).1 = (Plan.event e plan).1 ∧ Follows (e.run s).2 (Plan.event e plan).2 := by
  cases e with
  | call op => exact ⟨rfl, run_follows h.detached hfresh⟩
  | expired body => exact expire_follows h hfresh

theorem invoked_follows {plan : Option (Plan C)} {events : List (Event C)}
    (h : Follows s plan) (hfresh : FreshRun events s) :
    invoked events s = Plan.invoked events plan := by
  induction events generalizing s plan with
  | nil => rfl
  | cons e events ih =>
    obtain ⟨hsame, hnext⟩ := event_follows h hfresh.1
    unfold invoked Plan.invoked
    rw [hsame, ih hnext hfresh.2]

/-- **A ticker follows its plan.**  In every run in which no short duration is
attached over the count of a split one, the callbacks called are those of the
plan: the one attached last, after as many expirations as its duration was
split into, again after as many more if it was attached to repeat, and none
after `detach()`. -/
theorem ticker_follows_plan (events : List (Event C)) (h : FreshRun events idle) :
    invoked events idle = Plan.invoked events none :=
  invoked_follows (.idle false) h

/-- Seven million milliseconds are two expirations; after `detach` nothing is
called, and a short duration is one again. -/
theorem ticker_follows_plan_split :
    invoked [.call (.attach_ms 7000000 1), .expired fun _ => [], .expired fun _ => [],
      .call .detach, .expired fun _ => [], .call (.once_ms 5 2), .expired fun _ => []] idle =
      [none, none, some 1, none, none, none, some 2] :=
  ticker_follows_plan _ ⟨fun h => absurd h (by decide), fun _ _ _ => trivial,
    fun _ _ _ => trivial, trivial, fun _ _ _ => trivial, fun _ _ h => (nomatch h),
    fun _ _ _ => trivial, trivial⟩

/-- A short duration attached over a split one waits for the old count: the
one expiration it is for goes by. -/
theorem not_ticker_follows_plan :
    ¬ ∀ events : List (Event Nat), invoked events idle = Plan.invoked events none := by
  intro h
  exact absurd (h [.call (.attach_ms 7000000 1), .call (.once_ms 1000 2), .expired fun _ => []])
    (by decide)

/-! ## What a duration is split into -/

end Ticker
