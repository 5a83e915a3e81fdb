import RalioFirmware.Basis.DeltaList
import RalioFirmware.Basis.Runs
import RalioFirmware.Basis.Word

/-!
# The PWM generator

`analogWrite` on several pins is one list of falling edges.  All running pins go high at the
start of a period; the timer interrupt goes through the list and lowers one pin after the
other.  The application edits a copy of the list and waits until the interrupt took it over
at the end of a period.

`Sound` is what the list is for.  `run_sound` says which calls keep it: a pin that was stopped
stays listed until the next start of a pin, a change of the frequency before that starts it
again, and products of period and value are taken in 32 bits.
-/

namespace Pwm

open Runs Word List Function
open Prod (fst)

abbrev Pin := Fin 17

/-- `F_CPU`, one of the two clocks the core is built for. -/
inductive Cpu where
  | mhz80
  | mhz160
  deriving DecidableEq

/-- `clockCyclesPerMicrosecond`. -/
def Cpu.perMicrosecond : Cpu → Nat
  | .mhz80 => 80
  | .mhz160 => 160

/-- `microsecondsToClockCycles(1000000UL)`. -/
def Cpu.perSecond (cpu : Cpu) : Nat := 1000000 * cpu.perMicrosecond

/-- What `_setPWMFreq` takes off a period for `cnt` listed pins. -/
def Cpu.overhead (cpu : Cpu) (cnt : Nat) : Nat :=
  match cpu with
  | .mhz80 => ((cnt * cpu.perMicrosecond * 13) >>> 4) + 110
  | .mhz160 => ((cnt * cpu.perMicrosecond * 10) >>> 4) + 75

/-- `PWMState`: a bit for each pin, the `cnt` listed pins with their deltas, and the delta
behind them.  `idx` and the mailbox are left to `period`, which goes through the list. -/
structure PWMState where
  mask : Pin → Bool
  entries : List (Pin × Nat)
  final : Nat

/-- `pwmState` and the variables beside it; of `wvfState`, the two words of each waveform that
keep value and range of a pin with PWM.  After a division by zero nothing runs on. -/
structure Core where
  cpu : Cpu
  pwmState : PWMState
  pwmFreq : Nat
  pwmPeriod : Nat
  waveform : Pin → Nat × Nat
  trapped : Bool

def maxPWMs : Nat := 8

def PWMState.empty : PWMState := ⟨fun _ => false, [], 0⟩

def Core.init (cpu : Cpu) : Core :=
  ⟨cpu, .empty, 1000, cpu.perSecond / 1000, fun _ => (0, 0), false⟩

/-! ## Editing the list -/

/-- The loop of `_cleanAndRemovePWM`. -/
def cleanLoop (pin : Pin) : Nat → (Pin → Bool) → List (Pin × Nat) → Nat → PWMState
  | leftover, mask, [], final => ⟨mask, [], u32 (final + leftover)⟩
  | leftover, mask, (q, d) :: rest, final =>
    if q ≠ pin ∧ mask q = true then
      let p := cleanLoop pin 0 mask rest final
      { p with entries := (q, u32 (d + leftover)) :: p.entries }
    else cleanLoop pin (u32 (leftover + d)) (update mask q false) rest final

def cleanAndRemovePWM (p : PWMState) (pin : Pin) : PWMState :=
  cleanLoop pin 0 p.mask p.entries p.final

/-- The loops of `_addPWMtoList`: skip along to the first edge that is not earlier, insert
there and shorten the follower.  While the deltas sum to the period there is such an edge. -/
def insertLoop (pin : Pin) (cc : Nat) : Nat → List (Pin × Nat) → Nat → List (Pin × Nat) × Nat
  | ttl, [], final => ([(pin, sub32 cc ttl)], sub32 final (sub32 cc ttl))
  | ttl, (q, d) :: rest, final =>
    if u32 (ttl + d) < cc then
      let r := insertLoop pin cc (u32 (ttl + d)) rest final
      ((q, d) :: r.1, r.2)
    else ((pin, sub32 cc ttl) :: (q, sub32 d (sub32 cc ttl)) :: rest, final)

/-- The clipping of `_addPWMtoList`. -/
def clip (period cc : Nat) : Nat :=
  if cc = 0 then 1 else if cc ≥ period then sub32 period 1 else cc

def addPWMtoList (s : Core) (p : PWMState) (pin : Pin) (val range : Nat) : Core × PWMState :=
  let s := { s with waveform := update s.waveform pin (val, range) }
  let cc := clip s.pwmPeriod (u32 (s.pwmPeriod * val) / range)
  let r := if p.entries = [] then ([(pin, cc)], sub32 s.pwmPeriod cc)
    else insertLoop pin cc 0 p.entries p.final
  (s, ⟨update p.mask pin true, r.1, r.2⟩)

/-! ## The calls -/

/-- One round of the loop of `_setPWMFreq`. -/
def relist (r : Core × PWMState) (e : Pin × Nat) : Core × PWMState :=
  addPWMtoList r.1 r.2 e.1 (r.1.waveform e.1).1 (r.1.waveform e.1).2

/-- `_setPWMFreq`.  The list is built anew from the pins that are in it. -/
def setPWMFreq (s : Core) (freq : Nat) : Core :=
  let s := { s with pwmFreq := freq }
  if freq = 0 then { s with trapped := true }
  else
    let cc := sub32 (s.cpu.perSecond / freq) (s.cpu.overhead s.pwmState.entries.length)
    if cc = s.pwmPeriod then s
    else
      let s := { s with pwmPeriod := cc }
      let r := s.pwmState.entries.foldl relist (s, PWMState.empty)
      if s.pwmState.entries = [] then s else { r.1 with pwmState := r.2 }

/-- `_stopPWM`.  The entry stays in the list. -/
def stopPWM (s : Core) (pin : Pin) : Core × Bool :=
  if s.pwmState.mask pin = false then (s, false)
  else
    let mask := update s.pwmState.mask pin false
    let entries := if ∀ q, mask q = false then [] else s.pwmState.entries
    ({ s with pwmState := ⟨mask, entries, s.pwmState.final⟩ }, true)

/-- `_setPWM`.  `digitalWrite` stops the PWM of its pin. -/
def setPWM (s : Core) (pin : Pin) (val range : Nat) : Core × Bool :=
  let p := cleanAndRemovePWM s.pwmState pin
  if p.entries.length ≥ maxPWMs then (s, false)
  else if range = 0 then ({ s with trapped := true }, false)
  else
    let cc := u32 (s.pwmPeriod * val) / range
    if cc = 0 ∨ cc ≥ s.pwmPeriod then ((stopPWM s pin).1, true)
    else
      let r := addPWMtoList s p pin val range
      (setPWMFreq { r.1 with pwmState := r.2 } s.pwmFreq, true)

/-! ## The interrupt -/

/-- The inner loop of `timer1Interrupt`, at the entries from the index on: the pins that go
low, and the entries behind them.  It goes on while the next delta is zero; past the last delta
nothing ends it. -/
def dropLoop (p : PWMState) : List (Pin × Nat) → Option (List Pin × List (Pin × Nat))
  | [] => none
  | (q, _) :: rest =>
    let low := if p.mask q then [q] else []
    match rest with
    | [] => if p.final = 0 then none else some (low, [])
    | (q', d) :: rest' =>
      if d = 0 then (dropLoop p ((q', d) :: rest')).map fun r => (low ++ r.1, r.2)
      else some (low, (q', d) :: rest')

/-- The interrupts of a period from the entries at the index on, the time being `t`: which pin
goes low when, and the length of the period.  At the start all pins of the mask went high. -/
def period (p : PWMState) : Nat → Nat → List (Pin × Nat) → Option (List (Pin × Nat) × Nat)
  | _, t, [] => some ([], t + p.final)
  | 0, _, _ :: _ => none
  | n + 1, t, (q, d) :: rest =>
    match dropLoop p ((q, d) :: rest) with
    | none => none
    | some (low, next) =>
      (period p n (t + d) next).map fun r => (low.map (·, t + d) ++ r.1, r.2)

/-! ## Runs -/

inductive Action where
  | setPWM (pin : Pin) (val range : Nat)
  | stopPWM (pin : Pin)
  | setPWMFreq (freq : Nat)

/-- The generator, and behind it each running pin with its value and range. -/
structure State where
  core : Core
  running : Pin → Option (Nat × Nat)

def Partial (period val range : Nat) : Prop :=
  0 < period * val / range ∧ period * val / range < period

instance (period val range : Nat) : Decidable (Partial period val range) :=
  inferInstanceAs (Decidable (_ ∧ _))

/-- Which pins run after a start that answered `ok`: a pin that was asked for a part of the
period runs, one that was asked for none or all of it is a plain output. -/
def started (s : State) (pin : Pin) (val range : Nat) (ok : Bool) : Pin → Option (Nat × Nat) :=
  if ok then
    update s.running pin
      (if Partial s.core.pwmPeriod val range then some (val, range) else none)
  else s.running

def step : Action → State → State
  | .setPWM pin val range, s =>
    if s.core.trapped then s
    else
      let r := setPWM s.core pin val range
      ⟨r.1, started s pin val range r.2⟩
  | .stopPWM pin, s =>
    if s.core.trapped then s
    else ⟨(stopPWM s.core pin).1, update s.running pin none⟩
  | .setPWMFreq freq, s =>
    if s.core.trapped then s else { s with core := setPWMFreq s.core freq }

def State.init (cpu : Cpu) : State := ⟨Core.init cpu, fun _ => none⟩

/-- **What the list is for.**  It names distinct pins; those it drives are the running ones,
and only they go high.  Its deltas sum to a period, the last one is positive, and in the
period that the interrupt makes of it each running pin goes low after its share of the
period. -/
structure Sound (s : State) : Prop where
  up : s.core.trapped = false
  distinct : (s.core.pwmState.entries.map Prod.fst).Nodup
  driven : ∀ pin, (s.core.pwmState.mask pin = true ∧ pin ∈ s.core.pwmState.entries.map Prod.fst) ↔
    (s.running pin).isSome
  high : ∀ pin, s.core.pwmState.mask pin = true → (s.running pin).isSome
  room : s.core.pwmState.entries.length ≤ maxPWMs
  total : s.core.pwmState.entries ≠ [] →
    DeltaList.total s.core.pwmState.entries + s.core.pwmState.final = s.core.pwmPeriod
  final_pos : s.core.pwmState.entries ≠ [] → 0 < s.core.pwmState.final
  lows : s.core.pwmState.entries ≠ [] → ∃ lows,
    period s.core.pwmState s.core.pwmState.entries.length 0 s.core.pwmState.entries =
      some (lows, s.core.pwmPeriod) ∧
    ∀ pin t, (pin, t) ∈ lows ↔ ∃ val range, s.running pin = some (val, range) ∧
      t = max 1 (min (s.core.pwmPeriod * val / range) (s.core.pwmPeriod - 1))

/-! ## The list under its edits -/

variable {pin : Pin} {leftover final : Nat} {mask : Pin → Bool} {entries : List (Pin × Nat)}

theorem cleanLoop_mask (hnodup : (entries.map fst).Nodup) (q : Pin) :
    (cleanLoop pin leftover mask entries final).mask q = true ↔
      mask q = true ∧ ¬(q = pin ∧ q ∈ entries.map fst) := by
  induction entries generalizing leftover mask with
  | nil => simp [cleanLoop]
  | cons e rest ih =>
    obtain ⟨y, d⟩ := e
    obtain ⟨hy, hnodup⟩ := nodup_cons.mp hnodup
    rw [map_cons, mem_cons, cleanLoop]
    split
    · next hk =>
        have hkept : q = pin → q ≠ y := fun heq hqy => hk.1 (hqy ▸ heq)
        exact (ih hnodup).trans (by grind)
    · next hk =>
        refine (ih hnodup).trans ?_
        by_cases hq : q = y
        · subst hq
          simp only [update_self, Bool.false_eq_true, false_and, false_iff]
          grind
        · rw [update_of_ne hq]
          grind

theorem cleanLoop_eq (hnodup : (entries.map fst).Nodup)
    (hsum : leftover + DeltaList.total entries + final < 4294967296) :
    ((cleanLoop pin leftover mask entries final).entries,
      (cleanLoop pin leftover mask entries final).final) =
      DeltaList.sift (fun q => decide (q ≠ pin) && mask q) leftover entries final := by
  induction entries generalizing leftover mask with
  | nil =>
    simp only [DeltaList.total] at hsum
    simp [cleanLoop, DeltaList.sift, u32_of_lt (show final + leftover < 4294967296 by omega)]
  | cons e rest ih =>
    obtain ⟨y, d⟩ := e
    obtain ⟨hy, hnodup⟩ := nodup_cons.mp hnodup
    simp only [DeltaList.total] at hsum
    by_cases hk : y ≠ pin ∧ mask y = true
    · have hkeep : (decide (y ≠ pin) && mask y) = true := by simpa using hk
      have hd : u32 (d + leftover) = d + leftover := u32_of_lt (by omega)
      have hrest := @ih 0 mask hnodup (by omega)
      simp only [cleanLoop, if_pos hk, DeltaList.sift, hkeep, hd, ← hrest, ↓reduceIte]
    · have hkeep : (decide (y ≠ pin) && mask y) = false := by
        simpa [Classical.not_and_iff_not_or_not] using hk
      have hcongr : ∀ q ∈ rest.map fst,
          (decide (q ≠ pin) && update mask y false q) =
            (decide (q ≠ pin) && mask q) := by
        intro q hq
        have hne : q ≠ y := fun h => hy (h ▸ hq)
        rw [update_of_ne hne]
      have hd : u32 (leftover + d) = leftover + d := u32_of_lt (by omega)
      have hrest := @ih (leftover + d) (update mask y false) hnodup (by omega)
      simp only [cleanLoop, if_neg hk, hd, hrest, DeltaList.sift, hkeep, Bool.false_eq_true,
        ↓reduceIte, DeltaList.sift_congr hcongr]

theorem insertLoop_eq {pin : Pin} {cc t final : Nat} {entries : List (Pin × Nat)} (ht : t ≤ cc)
    (hcc : cc ≤ t + DeltaList.total entries + final)
    (hsum : t + DeltaList.total entries + final < 4294967296) :
    insertLoop pin cc t entries final = DeltaList.insert pin cc t entries final := by
  have hoff : sub32 cc t = cc - t := sub32_of_le ht (by omega)
  induction entries generalizing t with
  | nil =>
    simp only [DeltaList.total] at hcc hsum
    rw [insertLoop, hoff, sub32_of_le (by omega) (by omega)]
    rfl
  | cons e rest ih =>
    obtain ⟨y, d⟩ := e
    simp only [DeltaList.total] at hcc hsum
    have hd : u32 (t + d) = t + d := u32_of_lt (by omega)
    by_cases hlt : t + d < cc
    · simp only [insertLoop, hd, if_pos hlt, DeltaList.insert,
        ih (Nat.le_of_lt hlt) (by omega) (by omega)
          (sub32_of_le (Nat.le_of_lt hlt) (by omega))]
    · simp only [insertLoop, hd, if_neg hlt, DeltaList.insert, hoff,
        sub32_of_le (show cc - t ≤ d by omega) (by omega)]

theorem clip_eq {period cc : Nat} (h2 : 2 ≤ period) (hlt : period < 4294967296) :
    clip period cc = max 1 (min cc (period - 1)) := by
  unfold clip
  rw [sub32_of_le (by omega) hlt]
  split <;> [omega; split <;> omega]

/-- The list for a period: distinct pins whose deltas sum to it, every pin of the mask at its
share of the period. -/
structure Sched (cycles : Nat) (waveform : Pin → Nat × Nat) (p : PWMState) : Prop where
  distinct : (p.entries.map Prod.fst).Nodup
  live : ∀ pin, p.mask pin = true → pin ∈ p.entries.map Prod.fst
  total : p.entries ≠ [] → DeltaList.total p.entries + p.final = cycles
  final_pos : p.entries ≠ [] → 0 < p.final
  edge : ∀ e ∈ DeltaList.edges 0 p.entries, p.mask e.1 = true →
    e.2 = max 1 (min (cycles * (waveform e.1).1 / (waveform e.1).2) (cycles - 1))

theorem Sched.empty (cycles : Nat) (waveform : Pin → Nat × Nat) :
    Sched cycles waveform .empty where
  distinct := nodup_nil
  live := by simp [PWMState.empty]
  total h := absurd rfl h
  final_pos h := absurd rfl h
  edge := by simp [PWMState.empty, DeltaList.edges]

namespace Sched

variable {cycles : Nat} {waveform : Pin → Nat × Nat} {p : PWMState}

theorem mask_of_nil (h : Sched cycles waveform p) (hnil : p.entries = []) (q : Pin) :
    p.mask q = false := by
  have hlive := h.live q
  rw [hnil] at hlive
  simpa using hlive

/-- The pins other than `pin` that run. -/
def others (p : PWMState) (pin : Pin) : List Pin :=
  (p.entries.map Prod.fst).filter fun q => decide (q ≠ pin) && p.mask q

/-- **Cleaning** leaves the other pins that run, where they were. -/
theorem clean (h : Sched cycles waveform p) (hlt : cycles < 4294967296) (pin : Pin) :
    Sched cycles waveform (cleanAndRemovePWM p pin) ∧
      (cleanAndRemovePWM p pin).entries.map fst = others p pin ∧
      ∀ q, (cleanAndRemovePWM p pin).mask q = true ↔ p.mask q = true ∧ q ≠ pin := by
  by_cases hnil : p.entries = []
  · have hmask := h.mask_of_nil hnil
    have hclean : (cleanAndRemovePWM p pin).entries = [] ∧
        (cleanAndRemovePWM p pin).mask = p.mask := by
      simp [cleanAndRemovePWM, hnil, cleanLoop]
    refine ⟨⟨?_, ?_, ?_, ?_, ?_⟩, ?_, ?_⟩
    all_goals simp [hclean, hmask, others, hnil, DeltaList.edges]
  · have htotal := h.total hnil
    have hlist : ((cleanAndRemovePWM p pin).entries, (cleanAndRemovePWM p pin).final) = _ :=
      cleanLoop_eq h.distinct (by omega)
    obtain ⟨hentries, hfinal⟩ := Prod.mk.inj hlist
    have hmask : ∀ q, (cleanAndRemovePWM p pin).mask q = true ↔ p.mask q = true ∧ q ≠ pin := by
      intro q
      refine (cleanLoop_mask h.distinct q).trans (and_congr_right fun hon => ?_)
      simp [h.live q hon]
    have hpins : (cleanAndRemovePWM p pin).entries.map fst = others p pin := by
      rw [hentries]
      exact DeltaList.map_fst_sift
    refine ⟨⟨?_, ?_, ?_, ?_, ?_⟩, hpins, hmask⟩
    · rw [hpins]
      exact h.distinct.filter _
    · intro q hq
      obtain ⟨hon, hne⟩ := (hmask q).mp hq
      rw [hpins]
      exact mem_filter.mpr ⟨h.live q hon, by simp [hne, hon]⟩
    · intro _
      rw [hentries, hfinal]
      show DeltaList.total (DeltaList.sift _ 0 p.entries p.final).1 + _ = _
      rw [DeltaList.total_sift]
      omega
    · intro _
      rw [hfinal]
      exact Nat.lt_of_lt_of_le (h.final_pos hnil) DeltaList.final_le_sift
    · intro e he hon
      rw [hentries] at he
      change e ∈ DeltaList.edges 0 (DeltaList.sift _ 0 p.entries p.final).1 at he
      rw [DeltaList.edges_sift] at he
      exact h.edge e (mem_filter.mp he).1 ((hmask e.1).mp hon).1

/-- **Adding a pin** that is not listed puts its edge at its share of the period. -/
theorem add {s : Core} {pin : Pin} {val range : Nat} (h : Sched s.pwmPeriod s.waveform p)
    (h2 : 2 ≤ s.pwmPeriod) (hlt : s.pwmPeriod < 4294967296)
    (hfits : s.pwmPeriod * val < 4294967296) (hpin : pin ∉ p.entries.map fst) :
    Sched s.pwmPeriod (update s.waveform pin (val, range))
        (addPWMtoList s p pin val range).2 ∧
      ((addPWMtoList s p pin val range).2.entries.map fst).Perm
        (pin :: p.entries.map fst) := by
  have hcc := @clip_eq _ (s.pwmPeriod * val / range) h2 hlt
  set cc := clip s.pwmPeriod (s.pwmPeriod * val / range)
  have hpos : 1 ≤ cc := hcc ▸ Nat.le_max_left _ _
  have hcclt : cc < s.pwmPeriod := by omega
  by_cases hnil : p.entries = []
  · have hmask := h.mask_of_nil hnil
    have hadd : (addPWMtoList s p pin val range).2 =
        ⟨update p.mask pin true, [(pin, cc)], s.pwmPeriod - cc⟩ := by
      simp [addPWMtoList, hnil, u32_of_lt hfits, sub32_of_le (Nat.le_of_lt hcclt) hlt, cc]
    rw [hadd]
    refine ⟨⟨by simp, ?_, ?_, ?_, ?_⟩, by simp [hnil]⟩
    · grind
    · intro _
      simp only [DeltaList.total]
      omega
    · intro _
      show 0 < s.pwmPeriod - cc
      omega
    · intro e he _
      obtain rfl : e = (pin, 0 + cc) := by simpa [DeltaList.edges] using he
      simp [hcc]
  · have htotal := h.total hnil
    have hloop := @insertLoop_eq pin cc 0 p.final p.entries (Nat.zero_le cc) (by omega) (by omega)
    have hadd : (addPWMtoList s p pin val range).2 =
        ⟨update p.mask pin true, (DeltaList.insert pin cc 0 p.entries p.final).1,
          (DeltaList.insert pin cc 0 p.entries p.final).2⟩ := by
      simp [addPWMtoList, hnil, u32_of_lt hfits, ← hloop, cc]
    have hperm := @DeltaList.map_fst_insert _ pin cc 0 p.final p.entries (Nat.zero_le cc)
    rw [hadd]
    refine ⟨⟨?_, ?_, ?_, ?_, ?_⟩, hperm⟩
    · exact hperm.nodup_iff.mpr (nodup_cons.mpr ⟨hpin, h.distinct⟩)
    · intro q hq
      rw [hperm.mem_iff]
      by_cases hqp : q = pin
      · exact hqp ▸ mem_cons_self
      · exact mem_cons_of_mem _ (h.live q (by simpa [update_of_ne hqp] using hq))
    · intro _
      rw [← htotal]
      exact DeltaList.total_insert (Nat.zero_le cc) (by omega)
    · intro _
      exact DeltaList.final_insert_pos (Nat.zero_le cc) (by omega) (h.final_pos hnil)
    · intro e he hon
      rcases mem_cons.mp ((DeltaList.edges_insert (Nat.zero_le cc)).mem_iff.mp he) with
        rfl | he
      · simp [hcc]
      · have hne : e.1 ≠ pin := fun heq => hpin (heq ▸ DeltaList.mem_edges_fst he)
        change update p.mask pin true e.1 = true at hon
        rw [update_of_ne hne] at hon ⊢
        exact h.edge e he hon

end Sched

/-! ## The calls keep the list -/

theorem addPWMtoList_fst (s : Core) (p : PWMState) (pin : Pin) (val range : Nat) :
    (addPWMtoList s p pin val range).1 =
      { s with waveform := update s.waveform pin (val, range) } := rfl

theorem addPWMtoList_mask (s : Core) (p : PWMState) (pin : Pin) (val range : Nat) :
    (addPWMtoList s p pin val range).2.mask = update p.mask pin true := rfl

/-- **The rebuilt list** has the pins it was made from, each at its share of the new period. -/
theorem relist_sched {s : Core} {p : PWMState} {entries : List (Pin × Nat)}
    (h : Sched s.pwmPeriod s.waveform p) (h2 : 2 ≤ s.pwmPeriod) (hlt : s.pwmPeriod < 4294967296)
    (hfits : ∀ e ∈ entries, s.pwmPeriod * (s.waveform e.1).1 < 4294967296)
    (hnodup : (p.entries.map fst ++ entries.map fst).Nodup)
    (hmask : ∀ q, p.mask q = true ↔ q ∈ p.entries.map fst) :
    (entries.foldl relist (s, p)).1 = s ∧
      Sched s.pwmPeriod s.waveform (entries.foldl relist (s, p)).2 ∧
      (∀ q, (entries.foldl relist (s, p)).2.mask q = true ↔
        q ∈ p.entries.map fst ∨ q ∈ entries.map fst) ∧
      (entries.foldl relist (s, p)).2.entries.length = p.entries.length + entries.length := by
  induction entries generalizing p with
  | nil => exact ⟨rfl, h, by simpa using hmask, rfl⟩
  | cons e rest ih =>
    obtain ⟨he, hrest⟩ := forall_mem_cons.mp hfits
    have hpin : e.1 ∉ p.entries.map fst := fun hmem =>
      (nodup_append.mp hnodup).2.2 _ hmem _ mem_cons_self rfl
    have hsame : update s.waveform e.1 ((s.waveform e.1).1, (s.waveform e.1).2) =
        s.waveform := update_eq_self e.1 s.waveform
    have hfst : (relist (s, p) e).1 = s := by
      rw [relist, addPWMtoList_fst, hsame]
    have hadd := @Sched.add _ s e.1 _ (s.waveform e.1).2 h h2 hlt he hpin
    rw [hsame] at hadd
    obtain ⟨hsched, hperm⟩ : Sched s.pwmPeriod s.waveform (relist (s, p) e).2 ∧
        ((relist (s, p) e).2.entries.map fst).Perm (e.1 :: p.entries.map fst) := hadd
    have hround : relist (s, p) e = (s, (relist (s, p) e).2) := Prod.ext hfst rfl
    have hmask' : ∀ q, (relist (s, p) e).2.mask q = true ↔
        q ∈ (relist (s, p) e).2.entries.map fst := by
      intro q
      rw [hperm.mem_iff, mem_cons, ← hmask, relist, addPWMtoList_mask]
      by_cases hq : q = e.1
      · simp [hq]
      · simp [hq]
    have hnodup' : ((relist (s, p) e).2.entries.map fst ++ rest.map fst).Nodup := by
      refine (List.Perm.nodup_iff ?_).mpr hnodup
      exact (hperm.append_right _).trans perm_middle.symm
    rw [foldl_cons, hround]
    obtain ⟨h1, h2', h3, h4⟩ := ih hsched hrest hnodup' hmask'
    refine ⟨h1, h2', fun q => ?_, ?_⟩
    · grind
    · have hlen := hperm.length_eq
      simp only [length_map, length_cons] at hlen ⊢
      omega

/-- The running pins are those of the mask, with the values that the waveforms keep. -/
structure Inv (s : State) : Prop where
  up : s.core.trapped = false
  freq_pos : 0 < s.core.pwmFreq
  period_two : 2 ≤ s.core.pwmPeriod
  period_lt : s.core.pwmPeriod < 4294967296
  sched : Sched s.core.pwmPeriod s.core.waveform s.core.pwmState
  running : ∀ pin, s.core.pwmState.mask pin = true ↔ (s.running pin).isSome
  wave : ∀ pin v, s.running pin = some v → s.core.waveform pin = v
  room : s.core.pwmState.entries.length ≤ maxPWMs

/-- The period that a frequency gives with `cnt` listed pins. -/
def freqPeriod (cpu : Cpu) (freq cnt : Nat) : Nat :=
  sub32 (cpu.perSecond / freq) (cpu.overhead cnt)

/-- A frequency leaves two cycles after the overhead, and where it changes the period, the new
one times every value stays in 32 bits. -/
def FreqFits (s : Core) (freq cnt : Nat) (values : List Nat) : Prop :=
  s.cpu.overhead cnt + 2 ≤ s.cpu.perSecond / freq ∧
    (freqPeriod s.cpu freq cnt ≠ s.pwmPeriod →
      ∀ v ∈ values, freqPeriod s.cpu freq cnt * v < 4294967296)

instance (s : Core) (freq cnt : Nat) (values : List Nat) : Decidable (FreqFits s freq cnt values) :=
  inferInstanceAs (Decidable (_ ∧ (_ → _)))

/-- The calls that keep the list.  A pin is started with a range that is not zero and a value
whose product with the period stays in 32 bits, so that also the period it is changed to has
room; a frequency is not zero, and when it changes the period no stopped pin is listed. -/
def Fits : Action → State → Prop
  | .setPWM pin val range, s =>
    (Sched.others s.core.pwmState pin).length < maxPWMs →
      0 < range ∧ s.core.pwmPeriod * val < 4294967296 ∧
        (Partial s.core.pwmPeriod val range →
          FreqFits s.core s.core.pwmFreq ((Sched.others s.core.pwmState pin).length + 1)
            (val :: (Sched.others s.core.pwmState pin).map fun q => (s.core.waveform q).1))
  | .stopPWM _, _ => True
  | .setPWMFreq freq, s =>
    0 < freq ∧
      FreqFits s.core freq s.core.pwmState.entries.length
        (s.core.pwmState.entries.map fun e => (s.core.waveform e.1).1) ∧
      (freqPeriod s.core.cpu freq s.core.pwmState.entries.length ≠ s.core.pwmPeriod →
        ∀ e ∈ s.core.pwmState.entries, s.core.pwmState.mask e.1 = true)

instance : ∀ (a : Action) (s : State), Decidable (Fits a s)
  | .setPWM _ _ _, _ => inferInstanceAs (Decidable (_ → _ ∧ _ ∧ (_ → _)))
  | .stopPWM _, _ => isTrue trivial
  | .setPWMFreq _, _ => inferInstanceAs (Decidable (_ ∧ _ ∧ (_ → _)))

theorem Cpu.perSecond_div_lt (cpu : Cpu) (freq : Nat) :
    cpu.perSecond / freq < 4294967296 :=
  Nat.lt_of_le_of_lt (Nat.div_le_self _ _) (by cases cpu <;> decide)

variable {s : Core}

theorem setPWMFreq_inv {running : Pin → Option (Nat × Nat)} {freq : Nat}
    (h : Inv ⟨s, running⟩) (hfreq : 0 < freq)
    (hfits : FreqFits s freq s.pwmState.entries.length
      (s.pwmState.entries.map fun e => (s.waveform e.1).1))
    (hlisted : freqPeriod s.cpu freq s.pwmState.entries.length ≠ s.pwmPeriod →
      ∀ e ∈ s.pwmState.entries, s.pwmState.mask e.1 = true) :
    Inv ⟨setPWMFreq s freq, running⟩ := by
  obtain ⟨hroom, hvalues⟩ := hfits
  have hcc : freqPeriod s.cpu freq s.pwmState.entries.length =
      s.cpu.perSecond / freq - s.cpu.overhead s.pwmState.entries.length :=
    sub32_of_le (by omega) (s.cpu.perSecond_div_lt freq)
  have hlt := s.cpu.perSecond_div_lt freq
  unfold setPWMFreq
  rw [if_neg (Nat.ne_of_gt hfreq)]
  change Inv ⟨(if freqPeriod s.cpu freq s.pwmState.entries.length = s.pwmPeriod then _ else _), _⟩
  by_cases hsame : freqPeriod s.cpu freq s.pwmState.entries.length = s.pwmPeriod
  · rw [if_pos hsame]
    exact { h with freq_pos := hfreq }
  · rw [if_neg hsame]
    by_cases hnil : s.pwmState.entries = []
    · rw [if_pos hnil]
      have hempty : Sched (freqPeriod s.cpu freq s.pwmState.entries.length) s.waveform
          s.pwmState :=
        ⟨h.sched.distinct, h.sched.live, fun hne => absurd hnil hne, fun hne => absurd hnil hne,
          by simp [hnil, DeltaList.edges]⟩
      refine { h with freq_pos := hfreq, period_two := ?_, period_lt := ?_, sched := hempty }
      · show 2 ≤ freqPeriod s.cpu freq s.pwmState.entries.length
        omega
      · show freqPeriod s.cpu freq s.pwmState.entries.length < 4294967296
        omega
    · rw [if_neg hnil]
      let s' : Core :=
        { s with pwmFreq := freq, pwmPeriod := freqPeriod s.cpu freq s.pwmState.entries.length }
      have htwo : 2 ≤ s'.pwmPeriod := by
        show 2 ≤ freqPeriod s.cpu freq s.pwmState.entries.length
        omega
      have hlt' : s'.pwmPeriod < 4294967296 := by grind
      obtain ⟨hfst, hsched, hmask, hlen⟩ := @relist_sched s' .empty s.pwmState.entries
        (Sched.empty _ _) htwo hlt' (fun e he => hvalues hsame _ (mem_map_of_mem he))
        (by simpa [PWMState.empty] using h.sched.distinct) (by simp [PWMState.empty])
      change Inv ⟨{ (s.pwmState.entries.foldl relist (s', .empty)).1 with
        pwmState := (s.pwmState.entries.foldl relist (s', .empty)).2 }, running⟩
      rw [hfst]
      refine ⟨h.up, hfreq, htwo, hlt', hsched, fun pin => ?_, h.wave, ?_⟩
      · rw [← h.running, hmask]
        constructor
        · rintro (hmem | hmem)
          · exact absurd hmem not_mem_nil
          · obtain ⟨e, he, rfl⟩ := mem_map.mp hmem
            exact hlisted hsame e he
        · exact fun hon => Or.inr (h.sched.live pin hon)
      · show (s.pwmState.entries.foldl relist (s', .empty)).2.entries.length ≤ maxPWMs
        rw [hlen]
        simpa [PWMState.empty] using h.room

theorem stopPWM_inv {running : Pin → Option (Nat × Nat)} (h : Inv ⟨s, running⟩)
    (pin : Pin) : Inv ⟨(stopPWM s pin).1, update running pin none⟩ := by
  by_cases hoff : s.pwmState.mask pin = false
  · have hnone : running pin = none := by
      have hrun := h.running pin
      rw [hoff] at hrun
      simpa using hrun
    rw [← hnone, update_eq_self, stopPWM, if_pos hoff]
    exact h
  · rw [stopPWM, if_neg hoff]
    have hwave : ∀ q v, update running pin none q = some v → s.waveform q = v := by
      intro q v hq
      by_cases hqp : q = pin
      · simp [hqp] at hq
      · exact h.wave q v (by simpa [hqp] using hq)
    have hrunning : ∀ q, update s.pwmState.mask pin false q = true ↔
        (update running pin none q).isSome := by
      intro q
      by_cases hqp : q = pin
      · simp [hqp]
      · simpa [hqp] using h.running q
    have hon : ∀ q, update s.pwmState.mask pin false q = true →
        s.pwmState.mask q = true := by grind
    by_cases hall : ∀ q, update s.pwmState.mask pin false q = false
    · have hempty : Sched s.pwmPeriod s.waveform
          ⟨update s.pwmState.mask pin false, [], s.pwmState.final⟩ :=
        ⟨nodup_nil, by simp [hall], fun hne => absurd rfl hne, fun hne => absurd rfl hne,
          by simp [DeltaList.edges]⟩
      simp only [if_pos hall]
      exact ⟨h.up, h.freq_pos, h.period_two, h.period_lt, hempty, hrunning, hwave,
        Nat.zero_le _⟩
    · simp only [if_neg hall]
      refine ⟨h.up, h.freq_pos, h.period_two, h.period_lt, ?_, hrunning, hwave, h.room⟩
      exact ⟨h.sched.distinct, fun q hq => h.sched.live q (hon q hq), h.sched.total,
        h.sched.final_pos, fun e he hq => h.sched.edge e he (hon e.1 hq)⟩

theorem setPWM_inv {s : State} {val range : Nat} (h : Inv s)
    (hfits : Fits (.setPWM pin val range) s) :
    Inv ⟨(setPWM s.core pin val range).1,
      started s pin val range (setPWM s.core pin val range).2⟩ := by
  obtain ⟨core, running⟩ := s
  obtain ⟨hclean, hpins, hmask⟩ := h.sched.clean h.period_lt pin
  have hlen : (cleanAndRemovePWM core.pwmState pin).entries.length =
      (Sched.others core.pwmState pin).length := by
    rw [← hpins, length_map]
  unfold setPWM
  by_cases hfull : (cleanAndRemovePWM core.pwmState pin).entries.length ≥ maxPWMs
  · simp only [if_pos hfull]
    exact h
  have hspace : (Sched.others core.pwmState pin).length < maxPWMs := by omega
  obtain ⟨hrange, hval, hnew⟩ : 0 < range ∧ core.pwmPeriod * val < 4294967296 ∧
      (Partial core.pwmPeriod val range → _) := hfits hspace
  simp only [if_neg hfull, if_neg (Nat.ne_of_gt hrange), u32_of_lt hval]
  by_cases hpart : Partial core.pwmPeriod val range
  · have hcc : ¬(core.pwmPeriod * val / range = 0 ∨
        core.pwmPeriod * val / range ≥ core.pwmPeriod) := by
      unfold Partial at hpart
      omega
    have hpin : pin ∉ (cleanAndRemovePWM core.pwmState pin).entries.map fst := by
      rw [hpins]
      simp [Sched.others]
    obtain ⟨hadd, hperm⟩ :=
      @Sched.add _ core pin val range hclean h.period_two h.period_lt hval hpin
    rw [hpins] at hperm
    have hcnt : (addPWMtoList core (cleanAndRemovePWM core.pwmState pin) pin val
        range).2.entries.length = (Sched.others core.pwmState pin).length + 1 := by
      simpa using hperm.length_eq
    simp only [if_neg hcc, started, if_true, if_pos hpart]
    have hon : ∀ q, update (cleanAndRemovePWM core.pwmState pin).mask pin true q = true ↔
        (update running pin (some (val, range)) q).isSome := by
      intro q
      by_cases hq : q = pin
      · simp [hq]
      · have hrun : core.pwmState.mask q = true ↔ (running q).isSome := h.running q
        simp [hq, hmask, hrun]
    refine setPWMFreq_inv ⟨h.up, h.freq_pos, h.period_two, h.period_lt, hadd, hon, ?_, ?_⟩
      h.freq_pos ?_ ?_
    · intro q v hq
      change update core.waveform pin (val, range) q = v
      by_cases hqp : q = pin
      · subst hqp
        simpa using hq
      · simpa [hqp] using h.wave q v (by simpa [hqp] using hq)
    · grind
    · show FreqFits core core.pwmFreq
        (addPWMtoList core _ pin val range).2.entries.length _
      rw [hcnt]
      refine ⟨(hnew hpart).1, fun hne v hv => (hnew hpart).2 hne v ?_⟩
      obtain ⟨e, he, rfl⟩ := mem_map.mp hv
      rcases mem_cons.mp (hperm.mem_iff.mp (mem_map_of_mem he)) with hq | hq
      · rw [hq]
        simp [addPWMtoList_fst]
      · have hne : e.1 ≠ pin := by
          have := (mem_filter.mp hq).2
          simp only [Bool.and_eq_true, decide_eq_true_eq] at this
          exact this.1
        refine mem_cons_of_mem _ (mem_map.mpr ⟨e.1, hq, ?_⟩)
        simp [addPWMtoList_fst, hne]
    · intro _ e he
      refine (hon e.1).mpr ?_
      rcases mem_cons.mp (hperm.mem_iff.mp (mem_map_of_mem he)) with hq | hq
      · simp [hq]
      · obtain ⟨-, hq⟩ := mem_filter.mp hq
        simp only [Bool.and_eq_true, decide_eq_true_eq] at hq
        simpa [hq.1] using (h.running e.1).mp hq.2
  · have hcc : core.pwmPeriod * val / range = 0 ∨
        core.pwmPeriod * val / range ≥ core.pwmPeriod :=
      (Nat.eq_zero_or_pos _).imp_right fun hpos =>
        Nat.le_of_not_lt fun hlt => hpart ⟨hpos, hlt⟩
    simp only [if_pos hcc, started, if_true, if_neg hpart]
    exact stopPWM_inv h pin

theorem step_inv (a : Action) (s : State) (h : Inv s) (hfits : Fits a s) : Inv (step a s) := by
  have hup : ¬s.core.trapped = true := by simp [h.up]
  cases a with
  | setPWM pin val range =>
    rw [step, if_neg hup]
    exact setPWM_inv h hfits
  | stopPWM pin =>
    rw [step, if_neg hup]
    exact stopPWM_inv h pin
  | setPWMFreq freq =>
    rw [step, if_neg hup]
    exact setPWMFreq_inv h hfits.1 hfits.2.1 hfits.2.2

theorem init_inv (cpu : Cpu) : Inv (State.init cpu) where
  up := rfl
  freq_pos := by show 0 < 1000; decide
  period_two := by cases cpu <;> decide
  period_lt := by cases cpu <;> decide
  sched := Sched.empty _ _
  running := by simp [State.init, Core.init, PWMState.empty]
  wave := by simp [State.init]
  room := Nat.zero_le _

/-! ## A period of the interrupt -/

theorem dropLoop_some {p : PWMState} (hfinal : 0 < p.final) (q : Pin) (d : Nat)
    (rest : List (Pin × Nat)) :
    ∃ low next, dropLoop p ((q, d) :: rest) = some (low, next) ∧ next.length ≤ rest.length ∧
      DeltaList.total next = DeltaList.total rest ∧
      ∀ t, ((q, t) :: DeltaList.edges t rest).filter (p.mask ·.1) =
        low.map (·, t) ++ (DeltaList.edges t next).filter (p.mask ·.1) := by
  have hlow : ∀ (q : Pin) (t : Nat) (l : List (Pin × Nat)),
      ((q, t) :: l).filter (p.mask ·.1) =
        (if p.mask q = true then [q] else []).map (·, t) ++ l.filter (p.mask ·.1) := by
    intro q t l
    by_cases hq : p.mask q = true
    · simp [hq]
    · simp [hq]
  induction rest generalizing q d with
  | nil =>
    refine ⟨if p.mask q = true then [q] else [], [], ?_, Nat.le_refl _, rfl, fun t => hlow q t _⟩
    simp only [dropLoop, if_neg (Nat.ne_of_gt hfinal)]
  | cons e rest ih =>
    obtain ⟨q', d'⟩ := e
    by_cases hd : d' = 0
    · obtain ⟨low, next, hdrop, hlen, htotal, hedges⟩ := ih q' d'
      refine ⟨(if p.mask q = true then [q] else []) ++ low, next, ?_, ?_, ?_, fun t => ?_⟩
      · simp only [dropLoop, if_pos hd] at hdrop ⊢
        rw [hdrop]
        rfl
      · exact Nat.le_succ_of_le hlen
      · simp [htotal, DeltaList.total, hd]
      · rw [hlow, DeltaList.edges, hd, Nat.add_zero, hedges, map_append,
          append_assoc]
    · refine ⟨if p.mask q = true then [q] else [], (q', d') :: rest, ?_, Nat.le_refl _, rfl,
        fun t => hlow q t _⟩
      simp only [dropLoop, if_neg hd]

/-- **A period of the interrupt** lowers the pins of the mask at their edges, and lasts as long
as the deltas say. -/
theorem period_eq {p : PWMState} (hfinal : 0 < p.final) {n : Nat}
    (hn : entries.length ≤ n) (t : Nat) :
    period p n t entries = some ((DeltaList.edges t entries).filter (p.mask ·.1),
      t + DeltaList.total entries + p.final) := by
  induction n generalizing t entries with
  | zero =>
    obtain rfl := eq_nil_of_length_eq_zero (Nat.le_zero.mp hn)
    rfl
  | succ n ih =>
    cases entries with
    | nil => rfl
    | cons e rest =>
      obtain ⟨q, d⟩ := e
      obtain ⟨low, next, hdrop, hlen, htotal, hedges⟩ := dropLoop_some hfinal q d rest
      have hnext : next.length ≤ n := Nat.le_trans hlen (Nat.le_of_succ_le_succ hn)
      rw [period, hdrop]
      simp only [ih hnext, Option.map_some, DeltaList.edges, hedges, DeltaList.total, htotal,
        Nat.add_assoc]

theorem Inv.sound {s : State} (h : Inv s) : Sound s where
  up := h.up
  distinct := h.sched.distinct
  driven pin := by
    rw [← h.running]
    exact ⟨fun hpin => hpin.1, fun hon => ⟨hon, h.sched.live pin hon⟩⟩
  high pin := (h.running pin).mp
  room := h.room
  total := h.sched.total
  final_pos := h.sched.final_pos
  lows hne := by
    refine ⟨(DeltaList.edges 0 s.core.pwmState.entries).filter (s.core.pwmState.mask ·.1), ?_,
      fun pin t => ?_⟩
    · rw [period_eq (h.sched.final_pos hne) (Nat.le_refl _), Nat.zero_add, h.sched.total hne]
    · rw [mem_filter]
      constructor
      · rintro ⟨hedge, hon⟩
        obtain ⟨v, hv⟩ := Option.isSome_iff_exists.mp ((h.running pin).mp hon)
        refine ⟨v.1, v.2, hv, ?_⟩
        rw [← h.wave pin v hv]
        exact h.sched.edge _ hedge hon
      · rintro ⟨val, range, hv, rfl⟩
        have hon := (h.running pin).mpr (by simp [hv])
        have hmem := h.sched.live pin hon
        rw [← DeltaList.map_fst_edges 0] at hmem
        obtain ⟨⟨q, t⟩, he, rfl⟩ := mem_map.mp hmem
        have ht := h.sched.edge _ he hon
        rw [h.wave _ _ hv] at ht
        exact ⟨ht ▸ he, hon⟩

/-- **The PWM list keeps its purpose** at every point of a run whose calls fit. -/
theorem run_sound {cpu : Cpu} {actions : List Action}
    (h : AllFit step Fits actions (State.init cpu)) {start : List Action}
    (hstart : start <+: actions) : Sound (after step start (State.init cpu)) := by
  obtain ⟨rest, rfl⟩ := hstart
  exact (invariant step_inv (init_inv cpu) (allFit_append.mp h).1).sound

/-- Two pins at a third and a half of the period, a second frequency, and the first pin off. -/
theorem run_sound_sample :
    Sound (after step [.setPWM 4 85 255, .setPWM 5 128 255, .setPWMFreq 2000, .stopPWM 4]
      (State.init .mhz80)) :=
  @run_sound .mhz80 [.setPWM 4 85 255, .setPWM 5 128 255, .setPWMFreq 2000, .stopPWM 4]
    (by decide +kernel) _ (prefix_refl _)

/-- A pin that was stopped starts again when the frequency changes. -/
theorem not_run_sound :
    ¬∀ cpu actions, Sound (after step actions (State.init cpu)) := by
  intro h
  have hsound := h .mhz80 [.setPWM 4 85 255, .setPWM 5 128 255, .stopPWM 4, .setPWMFreq 2000]
  have hhigh := hsound.high 4
  revert hhigh
  decide +kernel

/-- The product of period and value wraps: 60000 of 65535 is a tenth of the period. -/
example : (after step [.setPWM 4 60000 65535] (State.init .mhz80)).core.pwmState.entries =
    [(4, 7546)] := by decide +kernel

/-! ## The calls of a sketch -/

end Pwm
