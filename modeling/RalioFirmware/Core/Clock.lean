import RalioFirmware.Basis.Reciprocal
import RalioFirmware.Basis.Runs
import RalioFirmware.Basis.Word

/-!
# `millis` and `micros64`

The system counts microseconds in 32 bits.  A tick of a timer counts its wraps, from what the tick
before has seen of it, and the reads put the two together; `millis` then divides by a thousand,
with two 32-bit halves of a reciprocal.

The times of the model are those since the start, without a bound, of which the code sees the low
32 bits.  A tick is three steps, as the reads may be called from an interrupt. -/

open Word

namespace Clock

/-! ## Milliseconds -/

def MAGIC_1E3_wLO : Nat := 0x4bc6a7f0
def MAGIC_1E3_wHI : Nat := 0x00418937

def u64 (n : Nat) : Nat := n % 18446744073709551616

/-- The division of `millis`: `m` microseconds, and `c` wraps of them. -/
def millisOf (m c : Nat) : Nat :=
  let acc := u64 (m * MAGIC_1E3_wLO) / 4294967296
  let acc := u64 (acc + u64 (m * MAGIC_1E3_wHI))
  let acc := u64 (acc + u64 (c * MAGIC_1E3_wLO))
  u32 (acc / 4294967296 + u32 (u64 (c * MAGIC_1E3_wHI)))

/-- The three low terms, as they would be in a wider word. -/
def lowTerms (m c : Nat) : Nat :=
  m * MAGIC_1E3_wLO / 4294967296 + m * MAGIC_1E3_wHI + c * MAGIC_1E3_wLO

theorem lowTerms_lt {m c : Nat} (hm : m < 4294967296) (hc : c < 4194304) :
    lowTerms m c < 18446744073709551616 := by
  unfold lowTerms MAGIC_1E3_wLO MAGIC_1E3_wHI
  omega

theorem u64_of_lt {n : Nat} (h : n < 18446744073709551616) : u64 n = n := Nat.mod_eq_of_lt h

theorem millisOf_words {m c : Nat} (hm : m < 4294967296) (hc : c < 4194304) :
    millisOf m c = u32 (lowTerms m c / 4294967296 + c * MAGIC_1E3_wHI) := by
  have hlow := lowTerms_lt hm hc
  have ha : m * MAGIC_1E3_wLO < 18446744073709551616 := by
    unfold MAGIC_1E3_wLO
    omega
  have hb : m * MAGIC_1E3_wHI < 18446744073709551616 := by
    unfold MAGIC_1E3_wHI
    omega
  have hcl : c * MAGIC_1E3_wLO < 18446744073709551616 := by
    unfold MAGIC_1E3_wLO
    omega
  have hch : c * MAGIC_1E3_wHI < 18446744073709551616 := by
    unfold MAGIC_1E3_wHI
    omega
  unfold lowTerms at hlow ⊢
  rw [millisOf]
  simp only [u64_of_lt ha, u64_of_lt hb, u64_of_lt hcl, u64_of_lt hch]
  rw [u64_of_lt (show _ + m * MAGIC_1E3_wHI < _ by omega), u64_of_lt hlow]
  unfold u32
  omega

/-- **The division is exact** for 2 ^ 54 microseconds. -/
theorem millisOf_eq {m c : Nat} (hm : m < 4294967296) (hc : c < 4194304) :
    millisOf m c = u32 ((c * 4294967296 + m) / 1000) := by
  have hreciprocal :
      (MAGIC_1E3_wHI * 4294967296 + MAGIC_1E3_wLO) * 1000 = 4294967296 * 4294967296 + 384 := by
    decide
  rw [millisOf_words hm hc, lowTerms, Reciprocal.mul_div_words (by decide),
    Reciprocal.mul_div_eq hreciprocal (by omega)]

/-! ## Ticks and reads -/

/-- Where `micros_overflow_tick` stands, with the time at which it has read the counter. -/
inductive Tick
  | idle
  | loaded (t : Nat)
  | counted (t : Nat)
deriving DecidableEq

/-- `micros_overflow_count`, and the time of which `micros_at_last_overflow_tick` is the low
half. -/
structure State where
  count : Nat
  stored : Nat
  tick : Tick
deriving DecidableEq

namespace State

/-- `micros_at_last_overflow_tick`. -/
def last (s : State) : Nat := u32 s.stored

end State

/-- The next step of `micros_overflow_tick`: it reads the counter, counts a wrap, and stores what
it has read. -/
def stepTick (now : Nat) (s : State) : State :=
  match s.tick with
  | .idle => { s with tick := .loaded now }
  | .loaded t =>
    { s with count := if u32 t < s.last then u32 (s.count + 1) else s.count, tick := .counted t }
  | .counted t => { s with stored := t, tick := .idle }

/-- The counter and the count of its wraps that `millis` and `micros64` use. -/
def pair (now : Nat) (s : State) : Nat × Nat :=
  (u32 now, u32 (s.count + if u32 now < s.last then 1 else 0))

def millis (now : Nat) (s : State) : Nat := millisOf (pair now s).1 (pair now s).2

def micros64 (now : Nat) (s : State) : Nat := (pair now s).2 * 4294967296 + (pair now s).1

inductive Event
  | tick
  | read
deriving DecidableEq

def step (e : Nat × Event) (s : State) : State :=
  match e.2 with
  | .tick => stepTick e.1 s
  | .read => s

def start : State := ⟨0, 0, .idle⟩

/-- Time does not go back, and the last tick that is through is never a turn of the counter ago. -/
def Timely : Nat → List (Nat × Event) → State → Prop
  | _, [], _ => True
  | before, e :: rest, s =>
    before ≤ e.1 ∧ e.1 < s.stored + 4294967296 ∧ Timely e.1 rest (step e s)

def Right (e : Nat × Event) (s : State) : Prop :=
  e.2 = .read → pair e.1 s = (u32 e.1, u32 (e.1 / 4294967296))

/-- The tick has counted a wrap and not yet stored what it has seen. -/
def Counting (s : State) : Prop :=
  match s.tick with
  | .counted t => u32 t < s.last
  | _ => False

def Apart (e : Nat × Event) (s : State) : Prop := e.2 = .read → ¬ Counting s

/-! ## The invariant -/

/-- How the count, the time stored and the tick under way belong together. -/
structure Inv (now : Nat) (s : State) : Prop where
  stored_le : s.stored ≤ now
  count : match s.tick with
    | .idle => s.count = u32 (s.stored / 4294967296)
    | .loaded t => s.count = u32 (s.stored / 4294967296) ∧ s.stored ≤ t ∧ t ≤ now ∧
        t < s.stored + 4294967296
    | .counted t => s.count = u32 (t / 4294967296) ∧ s.stored ≤ t ∧ t ≤ now ∧
        t < s.stored + 4294967296

theorem start_inv : Inv 0 start := ⟨Nat.le_refl 0, rfl⟩

variable {now : Nat}

theorem wraps_eq {t : Nat} (hle : t ≤ now) (hlt : now < t + 4294967296) :
    u32 (now / 4294967296) =
      u32 (u32 (t / 4294967296) + if u32 now < u32 t then 1 else 0) := by
  unfold u32
  split <;> omega

variable {s : State}

theorem Inv.mono {later : Nat} (h : Inv now s) (hle : now ≤ later) :
    Inv later s := by
  obtain ⟨count, stored, tick⟩ := s
  have hstored := h.stored_le
  have hcount := h.count
  refine ⟨Nat.le_trans hstored hle, ?_⟩
  cases tick with
  | idle => exact hcount
  | loaded t => exact ⟨hcount.1, hcount.2.1, Nat.le_trans hcount.2.2.1 hle, hcount.2.2.2⟩
  | counted t => exact ⟨hcount.1, hcount.2.1, Nat.le_trans hcount.2.2.1 hle, hcount.2.2.2⟩

theorem Inv.step (h : Inv now s) (hlt : now < s.stored + 4294967296)
    (e : Event) : Inv now (step (now, e) s) := by
  cases e with
  | read => exact h
  | tick =>
    obtain ⟨count, stored, tick⟩ := s
    have hstored := h.stored_le
    have hcount := h.count
    cases tick with
    | idle => exact ⟨hstored, hcount, hstored, Nat.le_refl now, hlt⟩
    | loaded t =>
      obtain ⟨hcount, hle, hnow, hwindow⟩ := hcount
      refine ⟨hstored, ?_, hle, hnow, hwindow⟩
      have hwraps := wraps_eq hle hwindow
      simp only at hcount
      show (if u32 t < u32 stored then u32 (count + 1) else count) = _
      rw [hwraps, ← hcount]
      have hsmall : u32 count = count := by
        rw [hcount]
        exact u32_of_lt (u32_lt _)
      split
      · rfl
      · rw [Nat.add_zero, hsmall]
    | counted t =>
      obtain ⟨hcount, hle, hnow, hwindow⟩ := hcount
      exact ⟨hnow, hcount⟩

/-- **A read is right** just where the tick has not counted a wrap that it has yet to store. -/
theorem Inv.right_iff (h : Inv now s)
    (hlt : now < s.stored + 4294967296) :
    pair now s = (u32 now, u32 (now / 4294967296)) ↔ ¬ Counting s := by
  obtain ⟨count, stored, tick⟩ := s
  have hstored := h.stored_le
  have hcount := h.count
  have hwraps := wraps_eq hstored hlt
  have hpair : pair now ⟨count, stored, tick⟩ =
    (u32 now, u32 (count + if u32 now < u32 stored then 1 else 0)) := rfl
  rw [hpair, Prod.mk.injEq, and_iff_right rfl]
  cases tick with
  | idle =>
    simp only at hcount
    rw [hcount, hwraps]
    exact iff_of_true rfl not_false
  | loaded t =>
    obtain ⟨hcount, -⟩ := hcount
    simp only at hcount
    rw [hcount, hwraps]
    exact iff_of_true rfl not_false
  | counted t =>
    obtain ⟨hcount, hle, hnow, hwindow⟩ := hcount
    simp only at hcount hle hnow hwindow hlt hstored
    show _ ↔ ¬ u32 t < u32 stored
    rw [hcount]
    clear hpair hwraps h
    unfold u32
    constructor
    · intro hsame hwrapped
      rw [if_pos (by omega)] at hsame
      omega
    · intro hsame
      split <;> omega

/-! ## Runs -/

/-- **The reads of a run** are right just where none of them interrupts a tick that counts. -/
theorem reads_iff {before : Nat} {events : List (Nat × Event)} (h : Inv before s)
    (ht : Timely before events s) :
    Runs.AllFit step Right events s ↔ Runs.AllFit step Apart events s := by
  induction events generalizing before s with
  | nil => exact Iff.rfl
  | cons e rest ih =>
    obtain ⟨hbefore, hlt, hrest⟩ := ht
    have hnow := h.mono hbefore
    have hread : Right e s ↔ Apart e s := imp_congr_right fun _ => hnow.right_iff hlt
    exact and_congr hread (ih (hnow.step hlt e.2) hrest)

theorem right_values
    (h : pair now s = (u32 now, u32 (now / 4294967296))) :
    (now < 18446744073709551616 → micros64 now s = now) ∧
      (now < 18014398509481984 → millis now s = u32 (now / 1000)) := by
  rw [micros64, millis, h]
  dsimp only
  constructor
  · intro hlt
    unfold u32
    omega
  · intro hlt
    rw [u32_of_lt (show now / 4294967296 < _ by omega),
      millisOf_eq (u32_lt now) (by omega)]
    congr 2
    unfold u32
    omega

/-- **The clock**: `millis` divides without an error and without a wrap, and the reads of a run have
the true time just where none of them interrupts a tick between its count of a wrap and its store;
both functions then return it. -/
theorem clock_iff {events : List (Nat × Event)} (ht : Timely 0 events start) :
    (∀ m c, m < 4294967296 → c < 4194304 → lowTerms m c < 18446744073709551616 ∧
      millisOf m c = u32 ((c * 4294967296 + m) / 1000)) ∧
    (Runs.AllFit step Right events start ↔ Runs.AllFit step Apart events start) ∧
    ∀ now s, pair now s = (u32 now, u32 (now / 4294967296)) →
      (now < 18446744073709551616 → micros64 now s = now) ∧
        (now < 18014398509481984 → millis now s = u32 (now / 1000)) :=
  ⟨fun _ _ hm hc => ⟨lowTerms_lt hm hc, millisOf_eq hm hc⟩, reads_iff start_inv ht,
    fun _ _ => right_values⟩

def quietRun : List (Nat × Event) :=
  [(4294967286, .tick), (4294967287, .tick), (4294967288, .tick), (4294967290, .read),
    (4294967300, .read), (4294967301, .tick), (4294967302, .read), (4294967303, .tick),
    (4294967304, .tick), (4294967305, .read)]

theorem clock_iff_sample : Runs.AllFit step Right quietRun start := by
  refine (@clock_iff quietRun ?_).2.1.mpr ?_
  · simp [quietRun, Timely, step, stepTick, start]
  · simp [quietRun, Runs.AllFit, Apart, Counting, step, stepTick, start]

def tornRun : List (Nat × Event) :=
  [(4294967286, .tick), (4294967287, .tick), (4294967288, .tick), (4294967301, .tick),
    (4294967302, .tick), (4294967303, .read), (4294967304, .tick)]

/-- The read there is a turn of the counter ahead. -/
theorem not_reads_right :
    ¬ ∀ events : List (Nat × Event), Timely 0 events start →
      Runs.AllFit step Right events start := by
  intro h
  have hright := h tornRun (by simp [tornRun, Timely, step, stepTick, start])
  have hread := hright.2.2.2.2.2.1 rfl
  revert hread
  decide

end Clock
