import Mathlib.Data.List.Basic
import Mathlib.Data.List.TakeWhile
import RalioFirmware.Core.StreamSend

/-!
# What a transfer conserves

Each round moves a stretch of the source to the destination, and may swallow bytes
behind it: the terminator it stops at, or what the destination has not taken, which
is reported.  The peek buffer is consumed as far as it has been written, so there a
partial write loses nothing; only a terminator found further on in the same block
must not be reached over bytes that have not been taken.
-/

namespace StreamSend

open List

namespace Transfer

/-! ## One round -/

def Excused (c : Transfer) (stop : Option Stop) (lost : List UInt8) : Prop :=
  lost = [] ∧ stop ≠ some .terminator ∨
    (stop = some .terminator ∧ ∃ char ∈ c.readUntilChar, lost = [char]) ∨
    stop = some .writeError

/-- A stretch has been moved, and what stands behind it swallowed. -/
structure Moved (c : Transfer) (s s' : Sent) (stop : Option Stop) (taken lost : List UInt8) :
    Prop where
  rest : s.rest = taken ++ (lost ++ s'.rest)
  delivered : s'.delivered = s.delivered ++ taken
  free : ∀ char ∈ c.readUntilChar, char ∉ taken
  bound : c.asks s → c.maxLen ≠ 0 → s'.delivered.length ≤ c.maxLen
  excused : c.Excused stop lost
  limit : stop ≠ some .limit

variable {c : Transfer} {r : Round} {s : Sent}

theorem moved_nil {stop : Option Stop} (hterm : stop ≠ some .terminator)
    (hlimit : stop ≠ some .limit) : Moved c s s stop [] [] := by
  refine ⟨rfl, (append_nil _).symm, by simp, ?_, Or.inl ⟨rfl, hterm⟩, hlimit⟩
  intro hasks hmax
  unfold asks at hasks
  omega

theorem starved_stop {stop : Stop} (h : c.starved r s = some stop) :
    stop = .dry ∨ stop = .full := by
  unfold starved at h
  split at h
  · exact Or.inl (Option.some.inj h).symm
  · split at h
    · exact Or.inr (Option.some.inj h).symm
    · cases h

theorem moved_starved {stop : Stop} (h : c.starved r s = some stop) :
    Moved c s s (some stop) [] [] := by
  rcases starved_stop h with rfl | rfl
  · exact moved_nil (by simp) (by simp)
  · exact moved_nil (by simp) (by simp)

theorem roundEnd_stop : (roundEnd r s).2 = none ∨ (roundEnd r s).2 = some .timeout := by
  unfold roundEnd
  split
  · exact Or.inr rfl
  · exact Or.inl rfl

variable {s' : Sent}

theorem moved_roundEnd {taken : List UInt8} (hrest : s.rest = taken ++ s'.rest)
    (hdelivered : s'.delivered = s.delivered ++ taken)
    (hfree : ∀ char ∈ c.readUntilChar, char ∉ taken)
    (hbound : c.asks s → c.maxLen ≠ 0 → s'.delivered.length ≤ c.maxLen) :
    Moved c s (roundEnd r s').1 (roundEnd r s').2 taken [] := by
  have hstop := roundEnd_stop (r := r) (s := s')
  refine ⟨hrest, hdelivered, hfree, hbound, Or.inl ⟨rfl, ?_⟩, ?_⟩
  · rcases hstop with h | h <;> simp [h]
  · rcases hstop with h | h <;> simp [h]

variable {n : Nat}

theorem cut_bound {w : Nat} (hn : n ≤ c.cut s w) (hasks : c.asks s) (hmax : c.maxLen ≠ 0) :
    s.delivered.length + n ≤ c.maxLen := by
  unfold cut at hn
  rw [if_pos hmax] at hn
  unfold asks at hasks
  omega

/-- The destination takes all of a block in front of its terminator. -/
def Whole (c : Transfer) (r : Round) (s : Sent) : Prop :=
  ∀ char ∈ c.readUntilChar, char ∈ c.block r s → (c.block r s).idxOf char ≤ r.accept

theorem block_take (hn : n ≤ (c.block r s).length) :
    s.rest.take n = (c.block r s).take n := by
  unfold block at hn ⊢
  rw [length_take] at hn
  rw [take_take, Nat.min_eq_left (by omega)]

theorem block_bound (hn : n ≤ (c.block r s).length) (hasks : c.asks s)
    (hmax : c.maxLen ≠ 0) : (s.delivered ++ s.rest.take n).length ≤ c.maxLen := by
  have hlen : (c.block r s).length ≤ c.cut s (min r.room (min r.avail s.rest.length)) := by
    unfold block
    rw [length_take]
    exact Nat.min_le_left _ _
  have hcut := cut_bound (Nat.le_trans hn hlen) hasks hmax
  rw [length_append, length_take]
  omega

theorem moved_block (hn : n ≤ (c.block r s).length)
    (hfree : ∀ char ∈ c.readUntilChar, char ∉ (c.block r s).take n) :
    Moved c s (roundEnd r ⟨s.delivered ++ s.rest.take n, s.rest.drop n⟩).1
      (roundEnd r ⟨s.delivered ++ s.rest.take n, s.rest.drop n⟩).2 (s.rest.take n) [] := by
  refine moved_roundEnd (take_append_drop n s.rest).symm rfl ?_ (block_bound hn)
  rw [block_take hn]
  exact hfree

/-- **One round over the peek buffer.** -/
theorem moved_peekBufferRound (hwhole : c.Whole r s) :
    ∃ taken lost, Moved c s (peekBufferRound r s c).1 (peekBufferRound r s c).2 taken lost := by
  unfold peekBufferRound
  cases hstarved : c.starved r s with
  | some stop => exact ⟨[], [], moved_starved hstarved⟩
  | none =>
    cases huntil : c.readUntilChar with
    | none =>
      simp only [Bool.false_eq_true, if_false]
      exact ⟨_, [], moved_block (Nat.min_le_right _ _) (by simp [huntil])⟩
    | some char =>
      by_cases hmem : char ∈ c.block r s
      · have hidx := idxOf_lt_length_of_mem hmem
        have hget : s.rest.drop ((c.block r s).idxOf char) =
            char :: s.rest.drop ((c.block r s).idxOf char + 1) := by
          have hsome : s.rest[(c.block r s).idxOf char]? = some char := by
            have hblock := getElem?_idxOf hmem
            unfold block at hblock hidx ⊢
            rw [length_take] at hidx
            rwa [getElem?_take_of_lt (by omega)] at hblock
          obtain ⟨hlt, hchar⟩ := List.getElem?_eq_some_iff.mp hsome
          rw [drop_eq_getElem_cons hlt, hchar]
        have hacc : min r.accept ((c.block r s).idxOf char) = (c.block r s).idxOf char :=
          Nat.min_eq_right (hwhole char huntil hmem)
        simp only [hmem, if_true, decide_true, hacc, drop_drop]
        refine ⟨_, [char], ?_, rfl, ?_, block_bound (Nat.le_of_lt hidx), ?_, by simp⟩
        · show s.rest = _ ++ char :: s.rest.drop ((c.block r s).idxOf char + 1)
          rw [← hget]
          exact (take_append_drop _ _).symm
        · intro char' hchar'
          obtain rfl := Option.some.inj (huntil.symm.trans hchar')
          rw [block_take (Nat.le_of_lt hidx), mem_take_iff_idxOf_lt hmem]
          omega
        · exact Or.inr (Or.inl ⟨rfl, char, huntil, rfl⟩)
      · simp only [hmem, if_false, decide_false, Bool.false_eq_true]
        refine ⟨_, [], moved_block (Nat.min_le_right _ _) ?_⟩
        intro char' hchar' htake
        obtain rfl := Option.some.inj (huntil.symm.trans hchar')
        exact hmem (mem_of_mem_take htake)

/-- **One round byte by byte.** -/
theorem moved_regularUntilRound :
    ∃ taken lost, Moved c s (regularUntilRound r s c).1 (regularUntilRound r s c).2 taken lost := by
  unfold regularUntilRound
  cases hstarved : c.starved r s with
  | some stop => exact ⟨[], [], moved_starved hstarved⟩
  | none =>
    simp only
    cases hread : s.rest.take r.avail with
    | nil =>
      simp only
      refine ⟨[], [], moved_roundEnd rfl (append_nil _).symm (by simp) ?_⟩
      intro hasks hmax
      exact Nat.le_of_lt (hasks.resolve_left hmax)
    | cons char tail =>
      have hrest : s.rest = char :: s.rest.drop 1 := by
        cases hsrc : s.rest with
        | nil =>
          rw [hsrc, take_nil] at hread
          cases hread
        | cons a as =>
          rw [hsrc] at hread
          cases hav : r.avail with
          | zero =>
            rw [hav] at hread
            cases hread
          | succ n =>
            rw [hav, take_succ_cons] at hread
            obtain ⟨rfl, -⟩ := cons.inj hread
            rfl
      simp only
      by_cases hterm : c.readUntilChar = some char
      · rw [if_pos hterm]
        refine ⟨[], [char], hrest, (append_nil _).symm, by simp, ?_,
          Or.inr (Or.inl ⟨rfl, char, hterm, rfl⟩), by simp⟩
        intro hasks hmax
        exact Nat.le_of_lt (hasks.resolve_left hmax)
      · rw [if_neg hterm]
        by_cases hacc : r.accept = 0
        · rw [if_pos hacc]
          refine ⟨[], [char], hrest, (append_nil _).symm, by simp, ?_,
            Or.inr (Or.inr rfl), by simp⟩
          intro hasks hmax
          exact Nat.le_of_lt (hasks.resolve_left hmax)
        · rw [if_neg hacc]
          refine ⟨[char], [], moved_roundEnd hrest rfl ?_ ?_⟩
          · intro char' hchar' hmem
            rw [mem_singleton.mp hmem] at hchar'
            exact hterm hchar'
          · intro hasks hmax
            rw [length_append]
            exact hasks.resolve_left hmax

/-- **One round through the buffer on the stack**, without a terminator. -/
theorem moved_regularRound (hnone : c.readUntilChar = none) :
    ∃ taken lost, Moved c s (regularRound r s c).1 (regularRound r s c).2 taken lost := by
  unfold regularRound
  cases hstarved : c.starved r s with
  | some stop => exact ⟨[], [], moved_starved hstarved⟩
  | none =>
    simp only
    generalize hw : min (c.cut s (min r.room (min r.avail s.rest.length)))
      temporaryStackBufferSize = w
    have hcut : w ≤ c.cut s (min r.room (min r.avail s.rest.length)) := hw ▸ Nat.min_le_left _ _
    by_cases hzero : w = 0
    · rw [if_pos hzero]
      refine ⟨[], [], moved_roundEnd rfl (append_nil _).symm (by simp) ?_⟩
      intro hasks hmax
      exact Nat.le_of_lt (hasks.resolve_left hmax)
    · rw [if_neg hzero]
      by_cases hfails : r.readFails
      · rw [if_pos hfails]
        exact ⟨[], [], moved_nil (by simp) (by simp)⟩
      · rw [if_neg hfails]
        have htemp : (s.rest.take (min r.got w)).length ≤ w := by
          rw [length_take]
          omega
        have hsplit : s.rest = s.rest.take (min r.got w) ++
            s.rest.drop (s.rest.take (min r.got w)).length := by
          rw [length_take]
          rcases Nat.le_total (min r.got w) s.rest.length with h | h
          · rw [Nat.min_eq_left h, take_append_drop]
          · rw [Nat.min_eq_right h, drop_length, append_nil, take_of_length_le h]
        generalize s.rest.take (min r.got w) = temp at htemp hsplit ⊢
        have hbound : ∀ n, n ≤ temp.length → c.asks s → c.maxLen ≠ 0 →
            (s.delivered ++ temp.take n).length ≤ c.maxLen := by
          intro n hn hasks hmax
          have := cut_bound (Nat.le_trans hn (Nat.le_trans htemp hcut)) hasks hmax
          rw [length_append, length_take]
          omega
        by_cases hpart : temp.length = min r.accept temp.length
        · rw [if_neg (not_not_intro hpart), ← hpart, take_length]
          refine ⟨temp, [], moved_roundEnd hsplit rfl (by simp [hnone]) ?_⟩
          have := hbound temp.length (Nat.le_refl _)
          rwa [take_length] at this
        · rw [if_pos hpart]
          refine ⟨temp.take (min r.accept temp.length), temp.drop (min r.accept temp.length),
            ?_, rfl, by simp [hnone], hbound _ (Nat.min_le_right _ _), Or.inr (Or.inr rfl),
            by simp⟩
          rw [← append_assoc, take_append_drop]
          exact hsplit

/-! ## A run of rounds -/

/-- A condition holds in every round that a loop comes to. -/
def Along (round : Round → Sent → Transfer → Sent × Option Stop) (c : Transfer)
    (fits : Round → Sent → Prop) : List Round → Sent → Prop
  | [], _ => True
  | r :: rounds, s =>
    c.asks s → fits r s ∧ ((round r s c).2 = none → Along round c fits rounds (round r s c).1)

structure Ran (c : Transfer) (s s' : Sent) (stop : Option Stop) (taken lost : List UInt8) :
    Prop where
  rest : s.rest = taken ++ (lost ++ s'.rest)
  delivered : s'.delivered = s.delivered ++ taken
  free : ∀ char ∈ c.readUntilChar, char ∉ taken
  bound : c.maxLen ≠ 0 → s'.delivered.length ≤ c.maxLen
  excused : c.Excused stop lost
  limit : stop = some .limit → c.maxLen ≠ 0 ∧ s'.delivered.length = c.maxLen

theorem Ran.nil {stop : Option Stop} (hbound : c.maxLen ≠ 0 → s.delivered.length ≤ c.maxLen)
    (hterm : stop ≠ some .terminator)
    (hlimit : stop = some .limit → c.maxLen ≠ 0 ∧ s.delivered.length = c.maxLen) :
    Ran c s s stop [] [] :=
  ⟨rfl, (append_nil _).symm, by simp, hbound, Or.inl ⟨rfl, hterm⟩, hlimit⟩

theorem limit_of_not_asks (hasks : ¬ c.asks s)
    (hbound : c.maxLen ≠ 0 → s.delivered.length ≤ c.maxLen) :
    c.maxLen ≠ 0 ∧ s.delivered.length = c.maxLen := by
  unfold asks at hasks
  omega

/-- **A loop moves what its rounds move.** -/
theorem ran_loop {round : Round → Sent → Transfer → Sent × Option Stop}
    {fits : Round → Sent → Prop}
    (hround : ∀ r s, fits r s →
      ∃ taken lost, Moved c s (round r s c).1 (round r s c).2 taken lost) :
    ∀ (rounds : List Round) (s : Sent), Along round c fits rounds s →
      (c.maxLen ≠ 0 → s.delivered.length ≤ c.maxLen) →
        ∃ taken lost, Ran c s (loop round c rounds s).1 (loop round c rounds s).2 taken lost := by
  intro rounds
  induction rounds with
  | nil =>
    intro s _ hbound
    refine ⟨[], [], ?_⟩
    unfold loop
    split
    · exact Ran.nil hbound (by simp) (by simp)
    · rename_i hasks
      exact Ran.nil hbound (by simp) fun _ => limit_of_not_asks hasks hbound
  | cons r rounds ih =>
    intro s halong hbound
    unfold loop
    by_cases hasks : c.asks s
    · rw [if_pos hasks]
      obtain ⟨hfits, hnext⟩ := halong hasks
      obtain ⟨taken, lost, hmoved⟩ := hround r s hfits
      generalize round r s c = result at hmoved hnext ⊢
      obtain ⟨s', stop⟩ := result
      cases stop with
      | some stop =>
        exact ⟨taken, lost, hmoved.rest, hmoved.delivered, hmoved.free, hmoved.bound hasks,
          hmoved.excused, fun h => absurd h hmoved.limit⟩
      | none =>
        obtain ⟨taken', lost', hran⟩ := ih s' (hnext rfl) (hmoved.bound hasks)
        have hlost : lost = [] := by
          rcases hmoved.excused with ⟨h, -⟩ | ⟨h, -⟩ | h
          · exact h
          · cases h
          · cases h
        refine ⟨taken ++ taken', lost', ?_, ?_, ?_, hran.bound, hran.excused, hran.limit⟩
        · rw [hmoved.rest, hlost, nil_append, hran.rest, append_assoc]
        · rw [hran.delivered, hmoved.delivered, append_assoc]
        · intro char hchar hmem
          rcases mem_append.mp hmem with hmem | hmem
          · exact hmoved.free char hchar hmem
          · exact hran.free char hchar hmem
    · rw [if_neg hasks]
      exact ⟨[], [], Ran.nil hbound (by simp) fun _ => limit_of_not_asks hasks hbound⟩

/-! ## A transfer -/

def upTo (src : List UInt8) (c : Transfer) : List UInt8 :=
  match c.readUntilChar with
  | some char => src.takeWhile fun b => b ≠ char
  | none => src

def wanted (src : List UInt8) (c : Transfer) : List UInt8 :=
  if c.len = 0 then []
  else if c.maxLen ≠ 0 then (c.upTo src).take c.maxLen
  else c.upTo src

variable {xs ys : List UInt8}

theorem upTo_append (hfree : ∀ char ∈ c.readUntilChar, char ∉ xs) :
    c.upTo (xs ++ ys) = xs ++ c.upTo ys := by
  unfold upTo
  cases huntil : c.readUntilChar with
  | none => rfl
  | some char =>
    refine takeWhile_append_of_pos fun b hb => ?_
    have hne : b ≠ char := fun h => hfree char huntil (h ▸ hb)
    exact decide_eq_true hne

theorem prefix_wanted (hlen : c.len ≠ 0)
    (hfree : ∀ char ∈ c.readUntilChar, char ∉ xs) (hbound : c.maxLen ≠ 0 → xs.length ≤ c.maxLen) :
    xs <+: c.wanted (xs ++ ys) := by
  unfold wanted
  rw [if_neg hlen, upTo_append hfree]
  split
  · grind
  · exact prefix_append _ _

theorem wanted_eq (hlen : c.len ≠ 0)
    (hfree : ∀ char ∈ c.readUntilChar, char ∉ xs) (hbound : c.maxLen ≠ 0 → xs.length ≤ c.maxLen)
    (hend : c.upTo ys = [] ∨ (c.maxLen ≠ 0 ∧ xs.length = c.maxLen)) : c.wanted (xs ++ ys) = xs := by
  unfold wanted
  rw [if_neg hlen, upTo_append hfree]
  split
  · rename_i hmax
    rcases hend with hnil | ⟨-, hfull⟩
    · rw [hnil, append_nil, take_of_length_le (hbound hmax)]
    · exact take_left' hfull
  · grind

/-- A transfer that has come to the limit, the terminator or the end of the source. -/
def Outcome.Completed (o : Outcome) : Prop :=
  o.stop = some .limit ∨ o.stop = some .terminator ∨ (o.rest = [] ∧ o.stop ≠ some .writeError)

/-- Bytes swallowed are a terminator that the transfer has stopped at, or reported. -/
def Outcome.Conserves (o : Outcome) (src : List UInt8) (c : Transfer) : Prop :=
  ∃ lost, src = o.delivered ++ (lost ++ o.rest) ∧
    (lost = [] ∨ (o.stop = some .terminator ∧ ∃ char ∈ c.readUntilChar, lost = [char]) ∨
      o.report = some .writeError)

/-- Over a peek buffer no terminator is found in a block of which the destination
takes less than what stands in front of it. -/
def WholeBlocks (hasPeekBufferAPI : Bool) (rounds : List Round) (src : List UInt8)
    (c : Transfer) : Prop :=
  hasPeekBufferAPI = true → Along peekBufferRound c (fun r s => c.Whole r s) rounds ⟨[], src⟩

theorem upTo_lost {stop : Option Stop} {lost rest : List UInt8} (hexcused : c.Excused stop lost)
    (hend : stop = some .terminator ∨ (rest = [] ∧ stop ≠ some .writeError)) :
    c.upTo (lost ++ rest) = [] := by
  rcases hexcused with ⟨rfl, hterm⟩ | ⟨-, char, hchar, rfl⟩ | hwrite
  · obtain ⟨rfl, -⟩ := hend.resolve_left hterm
    unfold upTo
    cases c.readUntilChar <;> rfl
  · unfold upTo
    rw [hchar]
    simp
  · grind

theorem ran_chosen {hasPeekBufferAPI : Bool} {rounds : List Round} {src : List UInt8}
    (hwhole : c.WholeBlocks hasPeekBufferAPI rounds src) :
    ∃ taken lost, Ran c ⟨[], src⟩ (loop (chosen hasPeekBufferAPI c) c rounds ⟨[], src⟩).1
      (loop (chosen hasPeekBufferAPI c) c rounds ⟨[], src⟩).2 taken lost := by
  have halong : ∀ (round : Round → Sent → Transfer → Sent × Option Stop) (rounds : List Round)
      (s : Sent), Along round c (fun _ _ => True) rounds s := by
    intro round rounds
    induction rounds with
    | nil => exact fun s => trivial
    | cons r rounds ih => exact fun s _ => ⟨trivial, fun _ => ih _⟩
  unfold chosen
  cases hasPeekBufferAPI with
  | true =>
    rw [if_pos rfl]
    exact ran_loop (fun r s => moved_peekBufferRound) rounds _ (hwhole rfl) (by simp)
  | false =>
    rw [if_neg (by simp)]
    cases huntil : c.readUntilChar with
    | some char =>
      rw [Option.isSome_some, if_pos rfl]
      exact ran_loop (fun r s _ => moved_regularUntilRound) rounds _ (halong _ _ _) (by simp)
    | none =>
      rw [Option.isSome_none, if_neg (by simp)]
      exact ran_loop (fun r s _ => moved_regularRound huntil) rounds _ (halong _ _ _) (by simp)

/-! ## Transfers that complete -/

/-- A round in which nothing holds a transfer up: a byte is at hand, what the
destination has room for it takes, the source gives something when it is read, and
time is not up. -/
structure Benign (r : Round) : Prop where
  avail : 0 < r.avail
  room : 0 < r.room
  accept : r.room ≤ r.accept
  got : 0 < r.got
  reads : r.readFails = false
  inTime : r.expired = false

/-- What a benign round does for a source that has bytes left. -/
def Progresses (s : Sent) (result : Sent × Option Stop) : Prop :=
  result.2 = some .terminator ∨ (result.2 = none ∧ result.1.rest.length < s.rest.length)

theorem roundEnd_benign (h : Benign r) : roundEnd r s' = (s', none) := by
  unfold roundEnd
  rw [h.inTime]
  rfl

theorem starved_benign (h : Benign r) (hrest : s.rest ≠ []) : c.starved r s = none := by
  have := length_pos_iff.mpr hrest
  have := h.avail
  have := h.room
  unfold starved
  rw [if_neg (by omega), if_neg (by omega)]

theorem cut_pos (h : Benign r) (hrest : s.rest ≠ []) (hasks : c.asks s) :
    0 < c.cut s (min r.room (min r.avail s.rest.length)) := by
  have := length_pos_iff.mpr hrest
  have := h.avail
  have := h.room
  unfold asks at hasks
  unfold cut
  split <;> omega

theorem cut_le_room : c.cut s (min r.room (min r.avail s.rest.length)) ≤ r.room := by
  unfold cut
  split <;> omega

theorem progresses_peekBufferRound (h : Benign r) (hrest : s.rest ≠ []) (hasks : c.asks s) :
    Progresses s (peekBufferRound r s c) := by
  have hpos := length_pos_iff.mpr hrest
  have hblock : 0 < (c.block r s).length ∧ (c.block r s).length ≤ r.accept := by
    have := cut_pos h hrest hasks
    have := cut_le_room (c := c) (r := r) (s := s)
    have := h.accept
    unfold block
    rw [length_take]
    omega
  have hall : ∀ {n : Nat}, n = (c.block r s).length → Progresses s
      (roundEnd r ⟨s.delivered ++ s.rest.take (min r.accept n), s.rest.drop (min r.accept n)⟩) := by
    intro n hn
    rw [roundEnd_benign h]
    refine Or.inr ⟨rfl, ?_⟩
    rw [length_drop]
    omega
  unfold peekBufferRound
  rw [starved_benign h hrest]
  cases huntil : c.readUntilChar with
  | none =>
    grind
  | some char =>
    by_cases hmem : char ∈ c.block r s
    · simp only [hmem, decide_true, if_true]
      exact Or.inl rfl
    · grind

theorem progresses_regularUntilRound (h : Benign r) (hrest : s.rest ≠ []) :
    Progresses s (regularUntilRound r s c) := by
  have hpos := length_pos_iff.mpr hrest
  have hacc : r.accept ≠ 0 := by
    have := h.room
    have := h.accept
    omega
  have havail := h.avail
  unfold regularUntilRound
  rw [starved_benign h hrest]
  cases hread : s.rest.take r.avail with
  | nil =>
    have hlen := congrArg length hread
    rw [length_take, length_nil] at hlen
    omega
  | cons char tail =>
    simp only [if_neg hacc]
    split
    · exact Or.inl rfl
    · rw [roundEnd_benign h]
      refine Or.inr ⟨rfl, ?_⟩
      rw [length_drop]
      omega

theorem progresses_regularRound (h : Benign r) (hrest : s.rest ≠ []) (hasks : c.asks s) :
    Progresses s (regularRound r s c) := by
  have hpos := length_pos_iff.mpr hrest
  have hcut := cut_pos h hrest hasks
  have hroom := cut_le_room (c := c) (r := r) (s := s)
  have hgot := h.got
  have hacc := h.accept
  unfold regularRound temporaryStackBufferSize
  rw [starved_benign h hrest]
  simp only [h.reads, Bool.false_eq_true, if_false]
  rw [if_neg (by omega)]
  have hall : min r.accept (s.rest.take (min r.got (min (c.cut s (min r.room (min r.avail
      s.rest.length))) 64))).length = (s.rest.take (min r.got (min (c.cut s (min r.room
        (min r.avail s.rest.length))) 64))).length := by
    rw [length_take]
    omega
  rw [hall, if_neg (not_not_intro rfl), roundEnd_benign h]
  refine Or.inr ⟨rfl, ?_⟩
  rw [length_drop, length_take]
  omega

theorem progresses_chosen (hasPeekBufferAPI : Bool) (h : Benign r) (hrest : s.rest ≠ [])
    (hasks : c.asks s) : Progresses s (chosen hasPeekBufferAPI c r s c) := by
  unfold chosen
  split
  · exact progresses_peekBufferRound h hrest hasks
  · split
    · exact progresses_regularUntilRound h hrest
    · exact progresses_regularRound h hrest hasks

theorem chosen_of_rest_nil (c : Transfer) (hasPeekBufferAPI : Bool) (h : Benign r)
    (hrest : s.rest = []) :
    chosen hasPeekBufferAPI c r s c = (s, none) ∨
      chosen hasPeekBufferAPI c r s c = (s, some .dry) := by
  obtain ⟨delivered, rest⟩ := s
  obtain rfl : rest = [] := hrest
  have hroom : r.room ≠ 0 := Nat.ne_of_gt h.room
  have hcut : ∀ w, c.cut ⟨delivered, []⟩ (min w (min r.avail 0)) = 0 := by
    intro w
    unfold cut
    split <;> simp
  cases hinput : c.inputCanTimeout with
  | false =>
    refine Or.inr ?_
    have hstarved : c.starved r ⟨delivered, []⟩ = some .dry := if_pos ⟨Nat.min_zero _, hinput⟩
    unfold chosen
    split
    · unfold peekBufferRound
      rw [hstarved]
    · split
      · unfold regularUntilRound
        rw [hstarved]
      · unfold regularRound
        rw [hstarved]
  | true =>
    refine Or.inl ?_
    have hstarved : c.starved r ⟨delivered, []⟩ = none := by
      unfold starved
      rw [if_neg (by simp [hinput]), if_neg (fun hfull => hroom hfull.1)]
    have hblock : c.block r ⟨delivered, []⟩ = [] := take_nil
    unfold chosen
    split
    · unfold peekBufferRound
      rw [hstarved, hblock]
      cases c.readUntilChar <;> simp [roundEnd_benign h]
    · split
      · unfold regularUntilRound
        rw [hstarved]
        simp only [take_nil]
        exact roundEnd_benign h
      · unfold regularRound
        rw [hstarved]
        simp only [length_nil, hcut, Nat.zero_min, if_true]
        exact roundEnd_benign h

/-- **Benign rounds complete a transfer**, one for each byte of the source and one
more. -/
theorem completed_loop (c : Transfer) (hasPeekBufferAPI : Bool) :
    ∀ (rounds : List Round) (s : Sent), (∀ r ∈ rounds, Benign r) →
      s.rest.length < rounds.length ∨ s.rest = [] →
        (loop (chosen hasPeekBufferAPI c) c rounds s).2 = some .limit ∨
          (loop (chosen hasPeekBufferAPI c) c rounds s).2 = some .terminator ∨
          ((loop (chosen hasPeekBufferAPI c) c rounds s).1.rest = [] ∧
            (loop (chosen hasPeekBufferAPI c) c rounds s).2 ≠ some .writeError) := by
  intro rounds
  induction rounds with
  | nil =>
    intro s _ hlen
    have hrest : s.rest = [] := hlen.resolve_left (Nat.not_lt_zero _)
    unfold loop
    split
    · exact Or.inr (Or.inr ⟨hrest, by simp⟩)
    · exact Or.inl rfl
  | cons r rounds ih =>
    intro s hbenign hlen
    have hr := hbenign r mem_cons_self
    have hrounds : ∀ r ∈ rounds, Benign r := fun a ha => hbenign a (mem_cons_of_mem r ha)
    unfold loop
    by_cases hasks : c.asks s
    · rw [if_pos hasks]
      by_cases hrest : s.rest = []
      · rcases chosen_of_rest_nil c hasPeekBufferAPI hr hrest with
          hround | hround
        · rw [hround]
          exact ih s hrounds (Or.inr hrest)
        · grind
      · have hprogress := progresses_chosen hasPeekBufferAPI hr hrest hasks
        generalize chosen hasPeekBufferAPI c r s c = result at hprogress ⊢
        obtain ⟨s', stop⟩ := result
        rcases hprogress with hterm | ⟨hnone, hless⟩
        · obtain rfl : stop = some .terminator := hterm
          exact Or.inr (Or.inl rfl)
        · obtain rfl : stop = none := hnone
          refine ih s' hrounds (Or.inl ?_)
          have hlen := hlen.resolve_right hrest
          rw [length_cons] at hlen
          simp only at hless
          omega
    · grind

/-- **A transfer conserves the source, and delivers what it is asked for**, as far as
it comes; nothing but the source and the destination holds it up. -/
theorem sendGeneric_conserves (hasPeekBufferAPI late : Bool) (rounds : List Round)
    (src : List UInt8) (c : Transfer) (hwhole : c.WholeBlocks hasPeekBufferAPI rounds src) :
    (c.sendGeneric hasPeekBufferAPI late rounds src).Conserves src c ∧
      (c.sendGeneric hasPeekBufferAPI late rounds src).delivered <+: c.wanted src ∧
      ((c.sendGeneric hasPeekBufferAPI late rounds src).Completed →
        (c.sendGeneric hasPeekBufferAPI late rounds src).delivered = c.wanted src) ∧
      ((∀ r ∈ rounds, Benign r) → src.length < rounds.length →
        (c.sendGeneric hasPeekBufferAPI late rounds src).Completed) := by
  unfold sendGeneric
  by_cases hlen : c.len = 0
  · rw [if_pos hlen]
    exact ⟨⟨[], rfl, Or.inl rfl⟩, List.nil_prefix, fun _ => (if_pos hlen).symm,
      fun _ _ => Or.inl rfl⟩
  · rw [if_neg hlen]
    obtain ⟨taken, lost, hran⟩ := ran_chosen hwhole
    have hbenign := completed_loop c hasPeekBufferAPI rounds ⟨[], src⟩
    generalize loop (chosen hasPeekBufferAPI c) c rounds ⟨[], src⟩ = result at hran hbenign ⊢
    obtain ⟨s, stop⟩ := result
    obtain ⟨hrest, hdelivered, hfree, hbound, hexcused, hlimit⟩ := hran
    simp only [nil_append] at hrest hdelivered hbound hlimit hexcused
    subst hrest
    rw [← hdelivered] at hfree
    refine ⟨⟨lost, by rw [← hdelivered], ?_⟩, ?_, ?_,
      fun hall hlong => hbenign hall (Or.inl hlong)⟩
    · rcases hexcused with ⟨h, -⟩ | h | h
      · exact Or.inl h
      · exact Or.inr (Or.inl h)
      · refine Or.inr (Or.inr ?_)
        simp only [h]
        rfl
    · rw [← hdelivered]
      exact prefix_wanted hlen hfree hbound
    · intro hcompleted
      rw [← hdelivered]
      refine (wanted_eq hlen hfree hbound ?_).symm
      rcases hcompleted with hstop | hstop | ⟨hnil, hstop⟩
      · exact Or.inr (hlimit hstop)
      · exact Or.inl (upTo_lost hexcused (Or.inl hstop))
      · exact Or.inl (upTo_lost hexcused (Or.inr ⟨hnil, hstop⟩))

def twice : List Round :=
  [⟨4, 4, 2, 4, false, false⟩, ⟨4, 4, 4, 4, false, false⟩, ⟨4, 4, 4, 4, false, false⟩]

def fourBytes : Transfer := ⟨4, none, 1000, false, true⟩

theorem sendGeneric_conserves_twice :
    (fourBytes.sendGeneric true false twice [1, 2, 3, 4]).Conserves [1, 2, 3, 4] fourBytes :=
  (sendGeneric_conserves true false twice [1, 2, 3, 4] fourBytes
    (fun _ _ => ⟨by simp [Whole, fourBytes], fun _ _ => ⟨by simp [Whole, fourBytes],
      fun _ _ => ⟨by simp [Whole, fourBytes], fun _ => trivial⟩⟩⟩)).1

/-- With the peek buffer the transfer goes on after a partial write, and without it
the same write is an error; a destination that never says it has room gets nothing
from the peek buffer, and what it takes byte by byte. -/
theorem paths_differ :
    (fourBytes.sendGeneric true false twice [1, 2, 3, 4]).delivered = [1, 2, 3, 4] ∧
      (fourBytes.sendGeneric false false twice [1, 2, 3, 4]).delivered = [1, 2] ∧
      (Transfer.sendGeneric true false [⟨4, 0, 1, 1, false, false⟩] [1, 2, 3, 4]
        { fourBytes with readUntilChar := some 9 }).delivered = [] ∧
      (Transfer.sendGeneric false false [⟨4, 0, 1, 1, false, false⟩] [1, 2, 3, 4]
        { fourBytes with readUntilChar := some 9 }).delivered = [1] := by
  decide

end Transfer

end StreamSend
