import RalioFirmware.Updater.Feed
import RalioFirmware.Updater.Install

/-!
# Cutting an image into writes

Two ways of cutting an image into writes end in the same state, and the flash
operations of each keep their discipline: a sector that receives data is
erased once, before its first byte is programmed, no other sector is erased,
and nothing is programmed twice.  `Laid` is what the flushes of a whole
number of buffers keep of that; `chunking_iff` says when it all holds.
-/

open Word Bytes Nor Nor.Chip Esp List

/-- The event programs the byte at `x`.  A write programs whole words, the
last one filled up with what the flash holds. -/
def Event.Programs (x : Nat) : Event → Prop
  | .flashWrite a n => a ≤ x ∧ x < a + aligned n
  | _ => False

/-- The event brings data into the sector `s`. -/
def Event.Receives (s : Nat) : Event → Prop
  | .flashWrite a n => ∃ x, a ≤ x ∧ x < a + n ∧ x / 4096 = s
  | _ => False

def Event.Idle (e : Event) : Prop := (∀ s, e ≠ .eraseSector s) ∧ ∀ x, ¬ e.Programs x

def erased (evs : List Event) : List Nat :=
  evs.filterMap fun
    | .eraseSector s => some s
    | _ => none

/-- Every sector is erased before its first byte is programmed. -/
def ErasedFirst (evs : List Event) : Prop :=
  ∀ before e after, evs = before ++ e :: after → ∀ x, e.Programs x →
    Event.eraseSector (x / 4096) ∈ before

structure Disciplined (evs : List Event) : Prop where
  first : ErasedFirst evs
  once : (erased evs).Nodup
  used : ∀ s, Event.eraseSector s ∈ evs → ∃ e ∈ evs, e.Receives s
  programmed : evs.Pairwise fun e e' => ∀ x, e.Programs x → ¬ e'.Programs x

theorem mem_erased {evs : List Event} {s : Nat} : s ∈ erased evs ↔ Event.eraseSector s ∈ evs := by
  unfold erased
  rw [mem_filterMap]
  constructor
  · rintro ⟨e, hmem, he⟩
    cases e <;> simp at he
    rwa [← he]
  · exact fun hmem => ⟨_, hmem, rfl⟩

theorem erased_append (evs more : List Event) : erased (evs ++ more) = erased evs ++ erased more :=
  filterMap_append

theorem ErasedFirst.snoc {evs : List Event} {e : Event} (h : ErasedFirst evs)
    (he : ∀ x, e.Programs x → Event.eraseSector (x / 4096) ∈ evs) : ErasedFirst (evs ++ [e]) := by
  intro before e' after heq x hx
  rcases after.eq_nil_or_concat with rfl | ⟨init, last, rfl⟩
  · obtain ⟨rfl, hlast⟩ := append_inj' heq rfl
    obtain rfl := (cons.inj hlast).1
    exact he x hx
  · rw [concat_eq_append, ← cons_append, ← append_assoc] at heq
    obtain ⟨rfl, -⟩ := append_inj' heq rfl
    exact h before e' init rfl x hx

theorem ErasedFirst.append_idle {evs more : List Event} (h : ErasedFirst evs)
    (hmore : ∀ e ∈ more, e.Idle) : ErasedFirst (evs ++ more) := by
  induction more generalizing evs with
  | nil => rwa [append_nil]
  | cons e more ih =>
    rw [← singleton_append, ← append_assoc]
    refine ih (h.snoc fun x hx => ?_) fun e' he' => hmore e' (mem_cons_of_mem _ he')
    exact absurd hx ((hmore e (mem_cons_self ..)).2 x)

theorem Disciplined.append_idle {evs more : List Event} (h : Disciplined evs)
    (hmore : ∀ e ∈ more, e.Idle) : Disciplined (evs ++ more) where
  first := h.first.append_idle hmore
  once := by
    have hnone : erased more = [] := by
      rw [eq_nil_iff_forall_not_mem]
      exact fun s hs => (hmore _ (mem_erased.mp hs)).1 s rfl
    rw [erased_append, hnone, append_nil]
    exact h.once
  used s hs := by
    rcases mem_append.mp hs with hs | hs
    · obtain ⟨e, he, hr⟩ := h.used s hs
      exact ⟨e, mem_append_left _ he, hr⟩
    · exact absurd rfl ((hmore _ hs).1 s)
  programmed := by
    refine pairwise_append.mpr ⟨h.programmed, ?_, fun e _ e' he' x _ => (hmore e' he').2 x⟩
    exact pairwise_of_forall_mem_list fun e _ e' he' x _ => (hmore e' he').2 x

namespace Updater

variable {F : SpiFlash} {u u₀ v w : Updater F}

/-! ## The flushes of an image -/

/-- The flushes of the first `f` bytes of an image for `start`. -/
structure Laid (start f : Nat) (evs : List Event) : Prop where
  disciplined : Disciplined evs
  within : ∀ e ∈ evs, ∀ x, e.Programs x → start ≤ x ∧ x < start + aligned f
  erases : ∀ s, Event.eraseSector s ∈ evs ↔ start ≤ s * 4096 ∧ s * 4096 < start + f

variable {start f n : Nat} {evs : List Event}

theorem laid_nil (start : Nat) : Laid start 0 [] where
  disciplined :=
    ⟨fun before e after heq => absurd heq (by simp), nodup_nil, by simp, List.Pairwise.nil⟩
  within := by simp
  erases s := by
    simp only [not_mem_nil, false_iff]
    omega

theorem eraseSector_mem_flushEvents {a n s : Nat} :
    Event.eraseSector s ∈ flushEvents a n ↔ a % 4096 = 0 ∧ s = a / 4096 := by
  rw [flushEvents]
  split
  · rename_i h0
    simp [h0]
  · rename_i h0
    simp [h0]

theorem erased_flushEvents (a n : Nat) :
    erased (flushEvents a n) = if a % 4096 = 0 then [a / 4096] else [] := by
  rw [flushEvents]
  split <;> rfl

theorem programs_of_mem_flushEvents {a n x : Nat} {e : Event} (he : e ∈ flushEvents a n)
    (hx : e.Programs x) : a ≤ x ∧ x < a + aligned n := by
  rw [flushEvents] at he
  rcases mem_append.mp he with he | he
  · split at he
    · rw [mem_singleton.mp he] at hx
      exact hx.elim
    · cases he
  · rw [mem_singleton.mp he] at hx
    exact hx

theorem flushEvents_programmed (a n : Nat) :
    (flushEvents a n).Pairwise fun e e' => ∀ x, e.Programs x → ¬ e'.Programs x := by
  rw [flushEvents]
  split
  · exact pairwise_pair.mpr fun x hx => hx.elim
  · exact pairwise_singleton _ _

theorem erasedFirst_flush {a : Nat} (h : ErasedFirst evs) (hfit : a % 4096 + aligned n ≤ 4096)
    (hsector : Event.eraseSector (a / 4096) ∈ evs ∨ a % 4096 = 0) :
    ErasedFirst (evs ++ flushEvents a n) := by
  rw [flushEvents, ← append_assoc]
  refine ErasedFirst.snoc ?_ fun x hx => ?_
  · split
    · exact h.snoc fun x hx => hx.elim
    · rwa [append_nil]
  · obtain ⟨hfirst, hlast⟩ := hx
    rw [show x / 4096 = a / 4096 by omega, mem_append]
    refine hsector.imp id fun h0 => ?_
    rw [if_pos h0]
    exact mem_singleton.mpr rfl

theorem Laid.flush (h : Laid start f evs) (hstart : start % 4096 = 0) (hf : f % 4 = 0) (hn : 0 < n)
    (hfit : f % 4096 + n ≤ 4096) : Laid start (f + n) (evs ++ flushEvents (start + f) n) := by
  have hal : aligned f = f ∧ aligned (f + n) = f + aligned n ∧ f % 4096 + aligned n ≤ 4096 ∧
      n ≤ aligned n := by
    unfold aligned
    omega
  obtain ⟨half, haln, hword, hle⟩ := hal
  constructor
  · constructor
    · refine erasedFirst_flush h.disciplined.first (by omega) ?_
      rw [h.erases]
      omega
    · rw [erased_append, erased_flushEvents, nodup_append]
      refine ⟨h.disciplined.once, by split <;> simp, ?_⟩
      rintro s hs s' hs' rfl
      rw [mem_erased, h.erases] at hs
      split at hs'
      · have := mem_singleton.mp hs'
        omega
      · cases hs'
    · intro s hs
      rcases mem_append.mp hs with hs | hs
      · obtain ⟨e, he, hr⟩ := h.disciplined.used s hs
        exact ⟨e, mem_append_left _ he, hr⟩
      · obtain ⟨-, rfl⟩ := eraseSector_mem_flushEvents.mp hs
        refine ⟨.flashWrite (start + f) n, ?_, start + f, Nat.le_refl _, by omega, rfl⟩
        exact mem_append_right _ (mem_append_right _ (mem_singleton.mpr rfl))
    · refine pairwise_append.mpr ⟨h.disciplined.programmed, flushEvents_programmed _ _,
        fun e he e' he' x hx hx' => ?_⟩
      have hold := h.within e he x hx
      have hnew := programs_of_mem_flushEvents he' hx'
      omega
  · intro e he x hx
    rcases mem_append.mp he with he | he
    · have hold := h.within e he x hx
      omega
    · have hnew := programs_of_mem_flushEvents he hx
      omega
  · intro s
    rw [mem_append, eraseSector_mem_flushEvents, h.erases]
    omega

theorem flushLog_zero {bufferSize : Nat} (hB : 0 < bufferSize) (start : Nat) :
    flushLog start bufferSize 0 = [] := by
  rw [flushLog, Nat.zero_add, Nat.div_eq_of_lt (by omega), range_zero, flatMap_nil]

theorem flushLog_laid {bufferSize : Nat} (hstart : start % 4096 = 0)
    (hB : bufferSize = 4096 ∨ bufferSize = 256) (f : Nat) :
    Laid start f (flushLog start bufferSize f) := by
  induction f using Nat.strongRecOn with
  | ind f ih =>
    by_cases h0 : f = 0
    · subst h0
      rw [flushLog_zero (by omega)]
      exact laid_nil start
    · -- the last flush takes what the whole buffers before it leave
      obtain ⟨m, n, rfl, hm, hn, hle⟩ : ∃ m n, f = m + n ∧ m % bufferSize = 0 ∧ 0 < n ∧
          n ≤ bufferSize := by
        refine ⟨(f - 1) / bufferSize * bufferSize, (f - 1) % bufferSize + 1, ?_, ?_, ?_, ?_⟩
        · have := Nat.div_add_mod' (f - 1) bufferSize
          omega
        · exact Nat.mul_mod_left _ _
        · omega
        · have := Nat.mod_lt (f - 1) (show 0 < bufferSize by omega)
          omega
      rw [flushLog_add hm hn hle]
      refine (ih m (by omega)).flush hstart ?_ hn ?_
      · rcases hB with rfl | rfl <;> omega
      · rcases hB with rfl | rfl <;> omega

theorem Laid.flush_empty_iff (h : Laid start f evs) (hstart : start % 4096 = 0) :
    Disciplined (evs ++ flushEvents (start + f) 0) ↔ f % 4096 ≠ 0 := by
  constructor
  · intro hd h0
    have hmem : Event.eraseSector ((start + f) / 4096) ∈ evs ++ flushEvents (start + f) 0 :=
      mem_append_right _ (eraseSector_mem_flushEvents.mpr ⟨by omega, rfl⟩)
    obtain ⟨e, he, hr⟩ := hd.used _ hmem
    cases e with
    | flashWrite a n =>
      obtain ⟨x, h₁, h₂, h₃⟩ := hr
      rw [flushEvents, if_pos (by omega)] at he
      simp only [mem_append, mem_cons, not_mem_nil, or_false, reduceCtorEq,
        false_or, Event.flashWrite.injEq] at he
      rcases he with he | ⟨-, rfl⟩
      · have hx := (h.within _ he x ⟨h₁, by unfold aligned; omega⟩).2
        unfold aligned at hx
        omega
      · omega
    | _ => exact hr
  · intro hf
    refine h.disciplined.append_idle fun e he => ?_
    rw [flushEvents, if_neg (by omega), nil_append] at he
    rw [mem_singleton.mp he]
    refine ⟨fun s => by simp, fun x hx => ?_⟩
    obtain ⟨h₁, h₂⟩ := hx
    unfold aligned at h₂
    omega

/-! ## The whole run -/

theorem idle_of_asked {e : Event} (h : Asked u e) : e.Idle := by
  cases e with
  | hashAdd fresh bytes => exact ⟨fun s => by simp, fun x => id⟩
  | verify hashed signature => exact ⟨fun s => by simp, fun x => id⟩
  | compareMd5 input => exact ⟨fun s => by simp, fun x => id⟩
  | eraseSector s => exact h.elim
  | flashWrite a n => exact h.elim
  | readBytes a n => exact h.elim

/-- The update has flushed a part of its image, in order, and has not failed
to write. -/
def Orderly (u₀ w : Updater F) : Prop :=
  w.error ≠ .write ∧ ∃ f more,
    w.log = u₀.log ++ (flushLog u₀.startAddress u₀.bufferSize f ++ more) ∧ ∀ e ∈ more, e.Idle

theorem orderly_of_log (hw : w.error ≠ .write) {f : Nat}
    (hlog : w.log = u₀.log ++ flushLog u₀.startAddress u₀.bufferSize f) : Orderly u₀ w :=
  ⟨hw, f, [], by rw [append_nil]; exact hlog, by simp⟩

theorem finish_orderly {env : EndEnv} (hv : v.error = .ok) {f : Nat}
    (hlog : v.log = u₀.log ++ flushLog u₀.startAddress u₀.bufferSize f) :
    Orderly u₀ (v.finish env).2 := by
  have hchecked := finish_checked env v
  obtain ⟨more, hmore, hasked⟩ := hchecked.events
  refine ⟨fun he => ?_, f, more, ?_, fun e he => idle_of_asked (hasked e he)⟩
  · have := hchecked.error (.inr he)
    rw [he, hv] at this
    exact absurd this (by simp)
  · rw [hmore, hlog, append_assoc]

variable {acc : List UInt8}

theorem Accepted.flushRemaining_log (hb : Begun u₀) (h : Accepted u₀ acc u)
    (hfaults : u.flushRemaining.chip.faults = u.chip.faults) :
    u.flushRemaining.error = .ok ∧ ∃ f,
      u.flushRemaining.log = u₀.log ++ flushLog u₀.startAddress u₀.bufferSize f := by
  rw [Updater.flushRemaining] at hfaults ⊢
  by_cases hpos : 0 < u.bufferLen
  · rw [if_pos hpos] at hfaults ⊢
    have hlen := h.bufferLen
    have hne : acc.length ≠ u₀.size := by
      intro hacc
      rw [hacc, flushedLen_size] at hlen
      omega
    have hok : u.writeBuffer.1 = true := by
      cases hok : u.writeBuffer.1 with
      | true => rfl
      | false =>
        obtain ⟨c, evs, e, -, -, heq, -, hlt⟩ :=
          writeBuffer_false (Prod.ext hok rfl : u.writeBuffer = (false, u.writeBuffer.2))
        have hbuffered : u.buffered ≠ [] := by
          rw [h.buffered]
          intro hnil
          rw [drop_eq_nil_iff] at hnil
          omega
        have := hlt (by rw [h.bufferPtr]; exact hb.bufferPtr) hbuffered
        rw [heq] at hfaults
        exact absurd hfaults (Nat.ne_of_gt this)
    have hst := (h.flush hb (flushedLen_mod hne)
      (Prod.ext hok rfl : u.writeBuffer = (true, u.writeBuffer.2))).2
    exact ⟨hst.error.trans hb.error, _, hst.log⟩
  · rw [if_neg hpos]
    exact ⟨h.error.trans hb.error, _, h.log⟩

/-- **`end` after the writes**, when no flash operation fails. -/
theorem Accepted.end_orderly {env : EndEnv} (hb : Begun u₀) (h : Accepted u₀ acc u) {even : Bool}
    (hfaults : (u.endUpdate env even).2.chip.faults = u.chip.faults) :
    Orderly u₀ (u.endUpdate env even).2 := by
  have herror : u.error = .ok := h.error.trans hb.error
  by_cases h0 : acc.length ≤ u₀.bufferSize ∧ acc.length ≠ u₀.size
  · rw [h.end_noData hb h0]
    exact orderly_of_log (by simp [setError, reset]) h.log
  · rw [h.end_eq hb h0] at hfaults ⊢
    cases even with
    | true =>
      rw [if_pos rfl] at hfaults ⊢
      have hle := (finish_checked env u.flushRemaining).readOnly.faults
      have hmono : u.chip.faults ≤ u.flushRemaining.chip.faults := by
        rw [Updater.flushRemaining]
        split
        · have hflush := writeBuffer_faults_le (Prod.eta u.writeBuffer).symm
          exact hflush
        · exact Nat.le_refl _
      obtain ⟨hok, f, hlog⟩ := h.flushRemaining_log hb (by omega)
      exact finish_orderly hok hlog
    | false =>
      rw [if_neg (by simp)]
      split
      · exact finish_orderly herror h.log
      · exact orderly_of_log (by simp [reset, herror]) h.log

theorem Accepted.write_nil_log (hb : Begun u₀) (h : Accepted u₀ acc u)
    (hacc : acc.length = u₀.size) (hfaults : (u.write []).2.chip.faults = u.chip.faults) :
    (u.write []).2.error = .write ∧
      (u.write []).2.log = u₀.log ++ (flushLog u₀.startAddress u₀.bufferSize u₀.size ++
        flushEvents (u₀.startAddress + u₀.size) 0) := by
  have hf : flushedLen u₀ acc.length = u₀.size := by rw [hacc, flushedLen_size]
  have hst := h.toStaging
  rw [hf] at hst
  obtain ⟨hwrite, hfail⟩ := hst.write_nil hb hacc (hf ▸ hf ▸ hacc.symm)
  have hlen := hst.bufferLen
  rw [hwrite] at hfaults ⊢
  rcases u.writeBuffer_spec with ⟨c₁, he, c₂, evs, hro, -, heq⟩ |
    ⟨c₁, c₂, ok, c₃, he, hro, hw, heq⟩
  · have h₁ := he.faults_le.2 rfl
    have h₂ := hro.faults
    rw [heq] at hfaults
    have : c₂.faults = u.chip.faults := hfaults
    omega
  · cases ok with
    | true =>
      grind
    | false =>
      rw [if_neg (by simp)] at heq
      rw [heq]
      refine ⟨rfl, ?_⟩
      show u.log ++ flushEvents u.currentAddress u.bufferLen = _
      rw [hst.log, hst.current, show u.bufferLen = 0 by omega, append_assoc]

/-! ## Two cuts of one image -/

/-- The writes of `chunks` and `end`: its result and the state it leaves. -/
def update (env : EndEnv) (evenIfRemaining : Bool) (chunks : List (List UInt8)) (u : Updater F) :
    Bool × Updater F :=
  (writeAll chunks u).2.endUpdate env evenIfRemaining

/-- Two runs come to the same: the value of `end`, the flash contents, the
bytes hashed for the MD5 and the error. -/
structure SameOutcome (p q : Bool × Updater F) : Prop where
  result : p.1 = q.1
  cells : p.2.chip.cells = q.2.chip.cells
  md5 : p.2.md5 = q.2.md5
  error : p.2.error = q.2.error

/-- What was asked of the chip since `u₀`. -/
def askedSince (u₀ w : Updater F) : List Event := w.log.drop u₀.log.length

theorem askedSince_eq {evs : List Event} (h : w.log = u₀.log ++ evs) : askedSince u₀ w = evs := by
  rw [askedSince, h, drop_left]

theorem Orderly.disciplined (hb : Begun u₀) (h : Orderly u₀ w) : Disciplined (askedSince u₀ w) := by
  obtain ⟨-, f, more, hlog, hmore⟩ := h
  rw [askedSince_eq hlog]
  exact (flushLog_laid hb.start_aligned hb.bufferSize f).disciplined.append_idle hmore

theorem write_faults_le (data : List UInt8) (u : Updater F) :
    u.chip.faults ≤ (u.write data).2.chip.faults := by
  rw [Updater.write]
  split
  · exact Nat.le_refl _
  · split
    · exact Nat.le_refl _
    · split
      · rename_i hloop
        exact writeLoop_faults_le hloop
      · rename_i left u₁ hloop
        have hle := writeLoop_faults_le hloop
        dsimp only
        split
        · split <;> rename_i hwb <;> have hflush := writeBuffer_faults_le hwb <;>
            exact Nat.le_trans hle hflush
        · exact hle

theorem feed_faults_le (bytes : List UInt8) (u : Updater F) :
    u.chip.faults ≤ (feed bytes u).chip.faults := by
  induction bytes generalizing u with
  | nil => exact Nat.le_refl _
  | cons x rest ih => exact Nat.le_trans (write_faults_le [x] u) (ih _)

theorem flushRemaining_faults_le (u : Updater F) :
    u.chip.faults ≤ u.flushRemaining.chip.faults := by
  rw [Updater.flushRemaining]
  split
  · have hflush := writeBuffer_faults_le (Prod.eta u.writeBuffer).symm
    exact hflush
  · exact Nat.le_refl _

theorem finish_faults_le (env : EndEnv) (u : Updater F) :
    u.chip.faults ≤ (u.finish env).2.chip.faults :=
  (finish_checked env u).readOnly.faults

theorem setError_chip (e : UpdateError) (u : Updater F) : (u.setError e).chip = u.chip := rfl

theorem endUpdate_faults_le (env : EndEnv) (even : Bool) (u : Updater F) :
    u.chip.faults ≤ (u.endUpdate env even).2.chip.faults := by
  rw [Updater.endUpdate]
  split
  · exact Nat.le_refl _
  · obtain ⟨u₁, hu₁⟩ : ∃ u₁, (if u.progress = 0 then u.setError .noData else u) = u₁ := ⟨_, rfl⟩
    have hchip : u₁.chip = u.chip := by
      rw [← hu₁]
      split
      · exact setError_chip _ _
      · rfl
    rw [hu₁, ← hchip]
    dsimp only
    split
    · exact Nat.le_refl _
    · cases even with
      | true => exact Nat.le_trans (flushRemaining_faults_le u₁) (finish_faults_le env _)
      | false => exact finish_faults_le env u₁

theorem Accepted.feed (hb : Begun u₀) {bytes : List UInt8} (h : Accepted u₀ acc u)
    (hroom : acc.length + bytes.length ≤ u₀.size) :
    Accepted u₀ (acc ++ bytes) (feed bytes u) ∨
      u.chip.faults < (Updater.feed bytes u).chip.faults := by
  induction bytes generalizing acc u with
  | nil =>
    rw [append_nil]
    exact .inl h
  | cons x rest ih =>
    rw [length_cons] at hroom
    rcases h.write hb (Prod.eta (u.write [x])).symm with ⟨-, hacc⟩ | ⟨-, hfault⟩
    · rcases ih hacc (by rw [length_append, length_singleton]; omega) with hacc' | hlt
      · left
        rwa [append_assoc] at hacc'
      · exact .inr (Nat.lt_of_le_of_lt (write_faults_le [x] u) hlt)
    · rcases hfault (by rw [length_singleton]; omega) with hlt | ⟨-, hnil⟩
      · exact .inr (Nat.lt_of_lt_of_le hlt (feed_faults_le rest _))
      · exact absurd hnil (by simp)

section

variable {env : EndEnv} {even : Bool} {chunks : List (List UInt8)}

theorem not_overrun_nil (size : Nat) : ¬ Overrun size [] :=
  fun ⟨_, _, heq, _⟩ => absurd heq (by simp)

theorem overrun_length {size : Nat} (h : Overrun size chunks) : size ≤ chunks.flatten.length := by
  obtain ⟨before, after, rfl, hlen⟩ := h
  rw [flatten_append, length_append]
  omega

theorem update_eq (hb : Begun u₀) (hroom : chunks.flatten.length ≤ u₀.size) :
    (Overrun u₀.size chunks → update env even chunks u₀ =
      ((feed chunks.flatten u₀).write []).2.endUpdate env even) ∧
    (¬ Overrun u₀.size chunks → update env even chunks u₀ =
      (feed chunks.flatten u₀).endUpdate env even) := by
  obtain ⟨hover, hplain⟩ := hb.accepted.writeAll_feed hb
    (show ([] : List UInt8).length + chunks.flatten.length ≤ u₀.size by simpa using hroom)
  exact ⟨fun h => by rw [update, hover h], fun h => by rw [update, hplain h]⟩

theorem update_accepted (hb : Begun u₀) (hroom : chunks.flatten.length ≤ u₀.size)
    (hfaults : (update env even chunks u₀).2.chip.faults = u₀.chip.faults) :
    Accepted u₀ chunks.flatten (feed chunks.flatten u₀) ∧
      (feed chunks.flatten u₀).chip.faults = u₀.chip.faults := by
  obtain ⟨hover, hplain⟩ := @update_eq F u₀ env even chunks hb hroom
  have hle := feed_faults_le chunks.flatten u₀
  have hge : (feed chunks.flatten u₀).chip.faults ≤ u₀.chip.faults := by
    rw [← hfaults]
    by_cases h : Overrun u₀.size chunks
    · rw [hover h]
      exact Nat.le_trans (write_faults_le [] _) (endUpdate_faults_le env even _)
    · rw [hplain h]
      exact endUpdate_faults_le env even _
  refine ⟨?_, Nat.le_antisymm hge hle⟩
  rcases hb.accepted.feed hb
    (show ([] : List UInt8).length + chunks.flatten.length ≤ u₀.size by simpa using hroom)
    with hacc | hlt
  · exact hacc
  · exact absurd hlt (Nat.not_lt.mpr hge)

theorem update_orderly (hb : Begun u₀) (hroom : chunks.flatten.length ≤ u₀.size)
    (hfaults : (update env even chunks u₀).2.chip.faults = u₀.chip.faults)
    (h : ¬ Overrun u₀.size chunks) : Orderly u₀ (update env even chunks u₀).2 := by
  obtain ⟨hacc, hfed⟩ := update_accepted hb hroom hfaults
  rw [(update_eq hb hroom).2 h] at hfaults ⊢
  exact hacc.end_orderly hb (hfaults.trans hfed.symm)

theorem update_overrun (hb : Begun u₀) (hroom : chunks.flatten.length ≤ u₀.size)
    (hfaults : (update env even chunks u₀).2.chip.faults = u₀.chip.faults)
    (h : Overrun u₀.size chunks) : (update env even chunks u₀).2.error = .write ∧
      (Disciplined (askedSince u₀ (update env even chunks u₀).2) ↔ u₀.size % 4096 ≠ 0) := by
  obtain ⟨hacc, hfed⟩ := update_accepted hb hroom hfaults
  have hlen : chunks.flatten.length = u₀.size := Nat.le_antisymm hroom (overrun_length h)
  have hdrop := hacc.write_nil_dropped hb hlen (by rw [hlen, flushedLen_size])
  rw [(update_eq hb hroom).1 h, endUpdate_dropped hdrop] at hfaults ⊢
  have hclean : ((feed chunks.flatten u₀).write []).2.chip.faults =
      (feed chunks.flatten u₀).chip.faults := Eq.trans hfaults hfed.symm
  obtain ⟨herror, hlog⟩ := hacc.write_nil_log hb hlen hclean
  refine ⟨herror, ?_⟩
  have hlog' : ((feed chunks.flatten u₀).write []).2.reset.log = _ := hlog
  rw [askedSince_eq hlog']
  exact (flushLog_laid hb.start_aligned hb.bufferSize _).flush_empty_iff hb.start_aligned

end

/-- **Two cuts of one image.**  When no flash operation fails, two ways of
writing an image come to the same, and the flash operations of both keep
their discipline, exactly when both or neither have an empty write behind the
last byte, and if they do, the image does not end with a sector. -/
theorem chunking_iff {L : Layout} {benv : BeginEnv} {size : Nat} (hsize : size < 4294967296)
    {command : Int} {u u₀ : Updater F} (hbegin : beginUpdate L benv size command u = (true, u₀))
    (expected_md5 : Option (List Char)) {c₁ c₂ : List (List UInt8)}
    (hsame : c₁.flatten = c₂.flatten) (hfit : c₁.flatten.length ≤ size) (env : EndEnv)
    (even : Bool)
    (h₁ : (update env even c₁ (u₀.announce expected_md5)).2.chip.faults = u₀.chip.faults)
    (h₂ : (update env even c₂ (u₀.announce expected_md5)).2.chip.faults = u₀.chip.faults) :
    SameOutcome (update env even c₁ (u₀.announce expected_md5))
        (update env even c₂ (u₀.announce expected_md5)) ∧
      Disciplined (askedSince u₀ (update env even c₁ (u₀.announce expected_md5)).2) ∧
      Disciplined (askedSince u₀ (update env even c₂ (u₀.announce expected_md5)).2) ↔
    (Overrun size c₁ ↔ Overrun size c₂) ∧ (Overrun size c₁ → size % 4096 ≠ 0) := by
  have hb := (beginUpdate_begun hsize hbegin).announce expected_md5
  have hsz := (beginUpdate_readOnly hbegin).2.2.1
  obtain ⟨text, hann⟩ := announce_eq expected_md5 u₀
  rw [hann] at hb h₁ h₂ ⊢
  have hvsize : ({ u₀ with target_md5 := text } : Updater F).size = size := hsz
  have hsince : ∀ w, askedSince u₀ w = askedSince { u₀ with target_md5 := text } w := fun _ => rfl
  rw [hsince, hsince]
  change (update env even c₁ _).2.chip.faults =
    ({ u₀ with target_md5 := text } : Updater F).chip.faults at h₁
  change (update env even c₂ _).2.chip.faults =
    ({ u₀ with target_md5 := text } : Updater F).chip.faults at h₂
  generalize ({ u₀ with target_md5 := text } : Updater F) = v at hb h₁ h₂ hvsize ⊢
  subst hvsize
  have hfit₂ : c₂.flatten.length ≤ v.size := hsame ▸ hfit
  by_cases ho₁ : Overrun v.size c₁
  · obtain ⟨herr₁, hdis₁⟩ := update_overrun hb hfit h₁ ho₁
    by_cases ho₂ : Overrun v.size c₂
    · obtain ⟨-, hdis₂⟩ := update_overrun hb hfit₂ h₂ ho₂
      have heq : update env even c₁ v = update env even c₂ v := by
        rw [(update_eq hb hfit).1 ho₁, (update_eq hb hfit₂).1 ho₂, hsame]
      rw [hdis₁, hdis₂, heq]
      simp only [ho₁, ho₂, iff_self, true_and, forall_const, and_self_iff]
      exact ⟨fun h => h.2, fun h => ⟨⟨rfl, rfl, rfl, rfl⟩, h⟩⟩
    · have herr₂ := (update_orderly hb hfit₂ h₂ ho₂).1
      refine iff_of_false (fun h => herr₂ ?_) fun h => ho₂ (h.1.mp ho₁)
      rw [← h.1.error, herr₁]
  · have hdis₁ := (update_orderly hb hfit h₁ ho₁).disciplined hb
    by_cases ho₂ : Overrun v.size c₂
    · obtain ⟨herr₂, -⟩ := update_overrun hb hfit₂ h₂ ho₂
      refine iff_of_false (fun h => (update_orderly hb hfit h₁ ho₁).1 ?_) fun h => ho₁ (h.1.mpr ho₂)
      rw [h.1.error, herr₂]
    · have hdis₂ := (update_orderly hb hfit₂ h₂ ho₂).disciplined hb
      have heq : update env even c₁ v = update env even c₂ v := by
        rw [(update_eq hb hfit).2 ho₁, (update_eq hb hfit₂).2 ho₂, hsame]
      refine iff_of_true ⟨?_, hdis₁, hdis₂⟩ ⟨iff_of_false ho₁ ho₂, fun h => absurd h ho₁⟩
      rw [heq]
      exact ⟨rfl, rfl, rfl, rfl⟩

/-- Five bytes, in one piece and in three. -/
theorem chunking_iff_sample :
    SameOutcome
      (update sampleEnd false [[0xE9, 1, 2, 0, 7]]
        ((sampleBegun (fun _ => false) 5).announce none))
      (update sampleEnd false [[0xE9, 1], [], [2, 0, 7]]
        ((sampleBegun (fun _ => false) 5).announce none)) := by
  have hone : ¬ Overrun 5 [[0xE9, 1, 2, 0, 7]] := by
    rw [overrun_cons _ (by decide) (by decide)]
    exact not_overrun_nil _
  have hthree : ¬ Overrun 5 [[0xE9, 1], [], [2, 0, 7]] := by
    rw [overrun_cons _ (by decide) (by decide), overrun_cons _ (by decide) (by decide),
      overrun_cons _ (by decide) (by decide)]
    exact not_overrun_nil _
  have hiff := chunking_iff (by decide) sampleBegun_eq none
    (show [[0xE9, 1, 2, 0, 7]].flatten = [[0xE9, 1], [], [2, 0, 7]].flatten from rfl) (by decide)
    sampleEnd false (by decide +kernel) (by decide +kernel)
  exact (hiff.mpr ⟨iff_of_false hone hthree, fun h => absurd h hone⟩).1

/-- Five bytes, with an empty write behind them and without. -/
theorem not_chunking :
    ¬ ∀ c₁ c₂ : List (List UInt8), c₁.flatten = c₂.flatten → c₁.flatten.length ≤ 5 →
      (update sampleEnd false c₁ (sampleBegun (fun _ => false) 5)).2.chip.faults =
        (sampleBegun (fun _ => false) 5).chip.faults →
      (update sampleEnd false c₂ (sampleBegun (fun _ => false) 5)).2.chip.faults =
        (sampleBegun (fun _ => false) 5).chip.faults →
      SameOutcome (update sampleEnd false c₁ (sampleBegun (fun _ => false) 5))
        (update sampleEnd false c₂ (sampleBegun (fun _ => false) 5)) := by
  intro h
  have hresult := (h [[0xE9, 1, 2, 0, 7]] [[0xE9, 1, 2, 0, 7], []] rfl (by decide)
    (by decide +kernel) (by decide +kernel)).result
  exact absurd hresult (by decide +kernel)

end Updater
