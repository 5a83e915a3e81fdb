import RalioFirmware.Core.PolledTimeout

/-!
# The time to live of a cached record

A record that has been received is asked for again at 80, 85, 90 and 95 percent of its time to
live, and removed at 100.  The percentage that comes next is the timeout level, and one timeout
in milliseconds is set again for each of them.

The products of the seconds of a record and of these percentages are computed in 32 bits.
-/

namespace Mdns.Cache

open Word

/-- What happens to a record, as far as its life is concerned. -/
inductive Act
  | answer (ttl : Nat)
  | goodbye
  | refreshed (level : Nat)
deriving DecidableEq

abbrev History := List (Nat × Act)

/-- `stcTTL`.  The code does not keep `history`, and nothing that it computes depends on it. -/
structure TTL where
  ttl : Nat
  ttlTimeout : PolledTimeout
  timeoutLevel : Nat
  history : History

namespace TTL

def levelUnset : Nat := 0
def levelBase : Nat := 80
def levelInterval : Nat := 5
def levelFinal : Nat := 100

def neverExpires : Nat := 4294967295

def new (now : Nat) : TTL := ⟨0, .create .millis neverExpires now, levelUnset, []⟩

def timeout (c : TTL) : Nat :=
  if c.timeoutLevel = levelBase then u32 (c.ttl * 800)
  else if levelBase < c.timeoutLevel ∧ c.timeoutLevel ≤ levelFinal then u32 (c.ttl * 50)
  else neverExpires

/-- `m_TTLTimeout.reset`. -/
def resetTimeout (milliseconds now : Nat) (c : TTL) : TTL :=
  { c with ttlTimeout := c.ttlTimeout.resetTo .millis milliseconds now }

def note (now : Nat) (a : Act) (c : TTL) : TTL := { c with history := (now, a) :: c.history }

def set (ttl : UInt32) (now : Nat) (c : TTL) : TTL :=
  let c := (c.note now (.answer ttl.toNat))
  if ttl.toNat ≠ 0 then
    let c := { c with ttl := ttl.toNat, timeoutLevel := levelBase }
    c.resetTimeout c.timeout now
  else
    { c with
      ttl := ttl.toNat
      timeoutLevel := levelUnset
      ttlTimeout := c.ttlTimeout.resetToNeverExpires }

def flagged (now : Nat) (c : TTL) : Bool :=
  c.ttl ≠ 0 && levelUnset ≠ c.timeoutLevel && c.ttlTimeout.expiredOneShot now

/-- `restart`, which a query has gone before. -/
def restart (now : Nat) (c : TTL) : Bool × TTL :=
  let c' := c.note now (.refreshed c.timeoutLevel)
  if levelBase ≤ c.timeoutLevel ∧ levelFinal > c.timeoutLevel then
    let c' := { c' with timeoutLevel := (c.timeoutLevel + levelInterval) % 256 }
    (true, c'.resetTimeout c'.timeout now)
  else
    (false, { c' with
      ttlTimeout := c.ttlTimeout.resetToNeverExpires
      timeoutLevel := levelUnset })

def prepareDeletion (now : Nat) (c : TTL) : TTL :=
  ({ c with timeoutLevel := levelFinal }.note now .goodbye).resetTimeout (1 * 1000) now

def finalTimeoutLevel (c : TTL) : Bool := levelFinal = c.timeoutLevel

/-- What a poll does about a record: it is left alone, asked for or removed. -/
inductive Due
  | nothing
  | update
  | deletion

def due (now : Nat) (c : TTL) : Due :=
  if c.flagged now then if c.finalTimeoutLevel then .deletion else .update else .nothing

/-- A query for the record, and its restart where the query is sent. -/
def update (sent : Bool) (now : Nat) (c : TTL) : Bool × TTL :=
  if sent then c.restart now else (false, c)

def receive (ttl : UInt32) (now : Nat) (c : TTL) : TTL :=
  if ttl.toNat ≠ 0 then c.set ttl now else c.prepareDeletion now

end TTL

/-! ## The life of a record -/

namespace History

/-- The latest answer or goodbye: when, and the time to live of an answer. -/
def news : History → Option (Nat × Option Nat)
  | [] => none
  | (t, .answer ttl) :: _ => some (t, some ttl)
  | (t, .goodbye) :: _ => some (t, none)
  | (_, .refreshed _) :: h => news h

/-- The levels at which the record has been asked for since then. -/
def levels : History → List Nat
  | (_, .refreshed level) :: h => level :: levels h
  | _ => []

/-- Every query for the record comes at 80 percent of its time to live or later, where a level
is a percentage that has passed, and once for a level. -/
def Timely : History → Prop
  | [] => True
  | (t, .refreshed level) :: h =>
    (∃ since ttl, news h = some (since, some ttl) ∧ 80 ≤ level ∧
      since + 10 * level * ttl ≤ t) ∧ level ∉ levels h ∧ Timely h
  | _ :: h => Timely h

/-- The time to live has passed since the latest answer, or a second since the latest goodbye. -/
def Outlived (now : Nat) (h : History) : Prop :=
  ∃ since ttl, h.news = some (since, ttl) ∧ since + 1000 * ttl.getD 1 ≤ now

end History

namespace TTL

/-- No product wraps: the timeout is the one that is meant. -/
def Exact (c : TTL) : Prop :=
  (c.timeoutLevel = levelBase → c.timeout = 800 * c.ttl) ∧
    (levelBase < c.timeoutLevel → c.timeoutLevel ≤ levelFinal → c.timeout = 50 * c.ttl)

/-- How a record waits for the next level, or for its deletion. -/
inductive Waits (last : Nat) (c : TTL) : Prop
  | idle : c.ttl = 0 ∨ c.timeoutLevel = levelUnset → Waits last c
  | counting (since start : Nat) : start ≤ last →
      c.history.news = some (since, some c.ttl) → c.ttlTimeout.start = u32 start →
      c.timeoutLevel % 5 = 0 → 80 ≤ c.timeoutLevel → c.timeoutLevel ≤ 100 →
      since + 10 * c.timeoutLevel * c.ttl ≤ start + c.ttlTimeout.timeout →
      (∀ level ∈ c.history.levels, level < c.timeoutLevel) → Waits last c
  | dying (since : Nat) : since ≤ last → c.history.news = some (since, none) →
      c.ttlTimeout.start = u32 since → c.timeoutLevel = levelFinal →
      c.ttlTimeout.timeout = 1000 → Waits last c

structure Kept (last : Nat) (c : TTL) : Prop where
  timely : c.history.Timely
  small : c.ttl * 800 < 4294967296
  waits : c.Waits last

variable {last now : Nat} {c : TTL} {ttl : UInt32}

theorem Kept.later (h : c.Kept last) (hle : last ≤ now) : c.Kept now := by
  refine ⟨h.timely, h.small, ?_⟩
  cases h.waits with
  | idle hidle => exact .idle hidle
  | counting since start hstart hnews hclock hfive hbase hfinal hdue hlevels =>
    exact .counting since start (Nat.le_trans hstart hle) hnews hclock hfive hbase hfinal hdue
      hlevels
  | dying since hsince hnews hclock hfinal htimeout =>
    exact .dying since (Nat.le_trans hsince hle) hnews hclock hfinal htimeout

theorem timeout_interval (hsmall : c.ttl * 800 < 4294967296) (hbase : 80 < c.timeoutLevel)
    (hfinal : c.timeoutLevel ≤ 100) : c.timeout = c.ttl * 50 := by
  have hlevel : levelBase < c.timeoutLevel ∧ c.timeoutLevel ≤ levelFinal := ⟨hbase, hfinal⟩
  rw [timeout, if_neg (Nat.ne_of_gt hlevel.1), if_pos hlevel, u32_of_lt (by omega)]

theorem Kept.exact (h : c.Kept last) : c.Exact := by
  have hsmall := h.small
  refine ⟨fun hbase => ?_, fun hbase hfinal => ?_⟩
  · rw [timeout, if_pos hbase, u32_of_lt hsmall, Nat.mul_comm]
  · rw [timeout_interval hsmall hbase hfinal, Nat.mul_comm]

theorem new_kept (now : Nat) : (new now).Kept now :=
  ⟨trivial, show 0 * 800 < 4294967296 by decide, .idle (.inl rfl)⟩

theorem millis_ticks {n : Nat} (hn : n < 4294967296) : TimeUnit.millis.toTimeTypeUnit n = n := by
  have hone : TimeUnit.millis.user2UnitMultiplier = 1 ∧ TimeUnit.millis.user2UnitDivider = 1 := by
    decide
  rw [TimeUnit.toTimeTypeUnit, hone.1, hone.2, Nat.mul_one, Nat.div_one, u32_of_lt hn]

theorem set_eq (h : ttl.toNat ≠ 0) : c.set ttl now =
    ⟨ttl.toNat, c.ttlTimeout.resetTo .millis (u32 (ttl.toNat * 800)) now, 80,
      (now, .answer ttl.toNat) :: c.history⟩ := by
  unfold TTL.set
  rw [if_pos h]
  rfl

/-- **An answer** starts the count towards 80 percent. -/
theorem Kept.set (h : c.Kept last) (hsmall : ttl.toNat * 800 < 4294967296) :
    (c.set ttl now).Kept now := by
  by_cases hzero : ttl.toNat ≠ 0
  · rw [set_eq hzero, u32_of_lt hsmall]
    refine ⟨h.timely, hsmall, .counting now now (Nat.le_refl _) rfl rfl (show 80 % 5 = 0 from rfl)
      (Nat.le_refl 80) (show 80 ≤ 100 by decide) ?_
      (fun level hlevel => absurd hlevel List.not_mem_nil)⟩
    show now + 10 * 80 * ttl.toNat ≤ now + TimeUnit.millis.toTimeTypeUnit (ttl.toNat * 800)
    rw [millis_ticks hsmall]
    omega
  · unfold TTL.set
    rw [if_neg hzero]
    exact ⟨h.timely, hsmall, .idle (.inr rfl)⟩

/-- **A goodbye** leaves the record a second. -/
theorem Kept.prepareDeletion (h : c.Kept last) : (c.prepareDeletion now).Kept now :=
  ⟨h.timely, h.small, .dying now (Nat.le_refl _) rfl rfl rfl (millis_ticks (by decide))⟩

theorem Kept.receive (h : c.Kept last) (hsmall : ttl.toNat * 800 < 4294967296) :
    (c.receive ttl now).Kept now := by
  unfold TTL.receive
  split
  · exact h.set hsmall
  · exact h.prepareDeletion

theorem flagged_of_due (h : c.due now ≠ .nothing) : c.flagged now = true := by
  unfold due at h
  split at h
  · assumption
  · exact absurd rfl h

theorem flagged_iff : c.flagged now = true ↔
    c.ttl ≠ 0 ∧ c.timeoutLevel ≠ levelUnset ∧ c.ttlTimeout.expiredOneShot now = true := by
  rw [flagged, Bool.and_eq_true, Bool.and_eq_true, decide_eq_true_eq, decide_eq_true_eq,
    and_assoc, ne_comm (a := levelUnset)]

/-- **A deletion is due** where the record is outlived. -/
theorem Kept.outlived (h : c.Kept last) (hle : last ≤ now) (hdue : c.due now = .deletion) :
    c.history.Outlived now := by
  have hflagged := @flagged_of_due now c (by rw [hdue]; exact Due.noConfusion)
  obtain ⟨hne, hunset, hexpired⟩ := flagged_iff.mp hflagged
  have hfinal : c.timeoutLevel = 100 := by
    rw [due, if_pos hflagged] at hdue
    by_cases hlevel : levelFinal = c.timeoutLevel
    · exact hlevel.symm
    · rw [finalTimeoutLevel, decide_eq_false hlevel] at hdue
      cases hdue
  cases h.waits with
  | idle hidle => exact (hidle.elim hne hunset).elim
  | counting since start hstart hnews hclock _ _ _ hdeadline _ =>
    have hpassed := PolledTimeout.le_of_expiredOneShot hclock (Nat.le_trans hstart hle) hexpired
    refine ⟨since, some c.ttl, hnews, ?_⟩
    rw [hfinal] at hdeadline
    rw [Option.getD_some]
    omega
  | dying since hsince hnews hclock _ htimeout =>
    have hpassed := PolledTimeout.le_of_expiredOneShot hclock (Nat.le_trans hsince hle) hexpired
    refine ⟨since, none, hnews, ?_⟩
    rw [Option.getD_none]
    omega

/-- **A query is due** at the percentage of the level, and the record waits for the next. -/
theorem Kept.restart (h : c.Kept last) (hle : last ≤ now) (hdue : c.due now = .update) :
    (c.restart now).1 = true ∧ (c.restart now).2.Kept now ∧
      (c.restart now).2.history = (now, .refreshed c.timeoutLevel) :: c.history := by
  have hflagged := @flagged_of_due now c (by rw [hdue]; exact Due.noConfusion)
  obtain ⟨hne, hunset, hexpired⟩ := flagged_iff.mp hflagged
  have hfinal : c.timeoutLevel ≠ 100 := by
    rw [due, if_pos hflagged] at hdue
    intro heq
    rw [if_pos (by rw [finalTimeoutLevel, heq]; rfl)] at hdue
    cases hdue
  have hsmall := h.small
  cases h.waits with
  | idle hidle => exact (hidle.elim hne hunset).elim
  | dying _ _ _ _ hlevel _ => exact absurd hlevel hfinal
  | counting since start hstart hnews hclock hfive hbase hle100 hdeadline hlevels =>
    have hpassed := PolledTimeout.le_of_expiredOneShot hclock (Nat.le_trans hstart hle) hexpired
    have hlevel : levelBase ≤ c.timeoutLevel ∧ levelFinal > c.timeoutLevel :=
      ⟨hbase, by unfold levelFinal; omega⟩
    have hnext : (c.timeoutLevel + levelInterval) % 256 = c.timeoutLevel + 5 := by
      unfold levelInterval
      omega
    have hproduct : 10 * (c.timeoutLevel + 5) * c.ttl =
        10 * c.timeoutLevel * c.ttl + 50 * c.ttl := by
      rw [Nat.mul_add, Nat.add_mul]
    have hrestart : c.restart now = (true, ⟨c.ttl,
        c.ttlTimeout.resetTo .millis (c.ttl * 50) now, c.timeoutLevel + 5,
        (now, .refreshed c.timeoutLevel) :: c.history⟩) := by
      have htimeout : timeout ⟨c.ttl, c.ttlTimeout, c.timeoutLevel + 5,
          (now, .refreshed c.timeoutLevel) :: c.history⟩ = c.ttl * 50 :=
        timeout_interval hsmall (show 80 < c.timeoutLevel + 5 by omega)
          (show c.timeoutLevel + 5 ≤ 100 by omega)
      rw [TTL.restart, if_pos hlevel, hnext]
      show (true, resetTimeout (timeout ⟨c.ttl, c.ttlTimeout, c.timeoutLevel + 5,
        (now, .refreshed c.timeoutLevel) :: c.history⟩) now ⟨c.ttl, c.ttlTimeout,
          c.timeoutLevel + 5, (now, .refreshed c.timeoutLevel) :: c.history⟩) = _
      rw [htimeout]
      rfl
    rw [hrestart]
    refine ⟨rfl, ⟨⟨⟨since, c.ttl, hnews, hbase, ?_⟩, fun hmem => ?_, h.timely⟩, hsmall,
      .counting since now (Nat.le_refl _) hnews rfl ?_ ?_ ?_ ?_ ?_⟩, rfl⟩
    · exact Nat.le_trans hdeadline hpassed
    · exact Nat.lt_irrefl _ (hlevels _ hmem)
    · show (c.timeoutLevel + 5) % 5 = 0
      omega
    · exact Nat.le_add_right_of_le hbase
    · show c.timeoutLevel + 5 ≤ 100
      omega
    · show since + 10 * (c.timeoutLevel + 5) * c.ttl ≤
        now + TimeUnit.millis.toTimeTypeUnit (c.ttl * 50)
      rw [millis_ticks (by omega), hproduct]
      omega
    · intro level hlevel
      show level < c.timeoutLevel + 5
      rcases List.mem_cons.mp hlevel with rfl | hlevel
      · omega
      · have := hlevels level hlevel
        omega

end TTL

end Mdns.Cache
