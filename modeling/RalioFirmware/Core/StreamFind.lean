import RalioFirmware.Basis.CString
import RalioFirmware.Basis.Restart

/-!
# `Stream::findUntil`

The target and the terminator are looked for with one index each, as the bytes are read.  A byte
that the target does not go on with is tried as its first one; a byte that the terminator does not
go on with is skipped.
-/

namespace StreamFind

open CString Restart List

/-- The loop of `findUntil` over the bytes that come before `timedRead` times out, with how many
have been read. -/
def findLoop (target : List UInt8) (targetLen : Nat) (terminator : List UInt8) (termLen : Nat) :
    List UInt8 → Nat → Nat → Nat → Bool × Nat
  | [], _, _, n => (false, n)
  | c :: stream, index, termIndex, n =>
    if c = 0 then (false, n + 1)
    else
      let index := if c ≠ target.getD index 0 then 0 else index
      let found := c = target.getD index 0
      let index := if found then index + 1 else index
      if found ∧ targetLen ≤ index then (true, n + 1)
      else if 0 < termLen ∧ c = terminator.getD termIndex 0 then
        if termLen ≤ termIndex + 1 then (false, n + 1)
        else findLoop target targetLen terminator termLen stream index (termIndex + 1) (n + 1)
      else findLoop target targetLen terminator termLen stream index 0 (n + 1)

/-- `findUntil` with the lengths; the result, and how many bytes have been consumed. -/
def findUntil (target : List UInt8) (targetLen : Nat) (terminator : List UInt8) (termLen : Nat)
    (stream : List UInt8) : Bool × Nat :=
  if target.getD 0 0 = 0 then (true, 0)
  else findLoop target targetLen terminator termLen stream 0 0 0

/-! ## What is asked for -/

/-- An end before another one; both at the same byte count if `tie` says so. -/
def Before (tie : Bool) (n m : Nat) : Prop := n < m ∨ (tie = true ∧ n = m)

/-- The first occurrence of the target ends at `n`, before any of the terminator. -/
structure Found (tie : Bool) (target terminator stream : List UInt8) (n : Nat) : Prop where
  completes : Completes target stream n
  first : ∀ m < n, ¬ Completes target stream m
  before : ∀ m, terminator ≠ [] → Completes terminator stream m → Before tie n m

/-- The first occurrence that the loop sees ends at `n`. -/
structure Sighted (target terminator stream : List UInt8) (n : Nat) : Prop where
  seen : Seen 0 target stream n
  first : ∀ m < n, ¬ Seen 0 target stream m
  before : ∀ m < n, terminator ≠ [] → ¬ Seen 1 terminator stream m
  zero : (0 : UInt8) ∉ stream.take n

/-- Readings that do not overlap are enough: the occurrence to be found is one of theirs, and they
find none where there is nothing to be found. -/
structure Reliable (tie : Bool) (target terminator stream : List UInt8) : Prop where
  found : ∀ n, Found tie target terminator stream n →
    Seen 0 target stream n ∧ (0 : UInt8) ∉ stream.take n
  missed : (∀ n, ¬ Found tie target terminator stream n) → ∀ n, Seen 0 target stream n →
    (0 : UInt8) ∈ stream.take n ∨ ∃ m < n, terminator ≠ [] ∧ Seen 1 terminator stream m

variable {n : Nat}

section

variable {tie : Bool} {target terminator stream : List UInt8}

theorem Found.unique {m : Nat} (hn : Found tie target terminator stream n)
    (hm : Found tie target terminator stream m) : n = m := by
  rcases Nat.lt_trichotomy n m with h | h | h
  · exact absurd hn.completes (hm.first n h)
  · exact h
  · exact absurd hm.completes (hn.first m h)

theorem Sighted.unique {m : Nat} (hn : Sighted target terminator stream n)
    (hm : Sighted target terminator stream m) : n = m := by
  rcases Nat.lt_trichotomy n m with h | h | h
  · exact absurd hn.seen (hm.first n h)
  · exact h
  · exact absurd hm.seen (hn.first m h)

theorem Found.sighted (h : Found tie target terminator stream n)
    (hseen : Seen 0 target stream n) (hzero : (0 : UInt8) ∉ stream.take n) :
    Sighted target terminator stream n where
  seen := hseen
  first := fun m hm hs => h.first m hm hs.completes
  before := by
    intro m hm hne hs
    rcases h.before m hne hs.completes with hlt | ⟨-, heq⟩
    · omega
    · omega
  zero := hzero

theorem exists_sighted (hseen : Seen 0 target stream n) :
    (∃ k, Sighted target terminator stream k) ∨ (0 : UInt8) ∈ stream.take n ∨
      ∃ m < n, terminator ≠ [] ∧ Seen 1 terminator stream m := by
  induction n using Nat.strong_induction_on with
  | _ n ih =>
    by_cases hfirst : ∃ m < n, Seen 0 target stream m
    · obtain ⟨m, hm, hs⟩ := hfirst
      rcases ih m hm hs with hsighted | hzero | ⟨k, hk, hterm⟩
      · exact Or.inl hsighted
      · exact Or.inr (Or.inl ((take_prefix_take_left (by omega)).subset hzero))
      · exact Or.inr (Or.inr ⟨k, by omega, hterm⟩)
    · by_cases hzero : (0 : UInt8) ∈ stream.take n
      · exact Or.inr (Or.inl hzero)
      by_cases hterm : ∃ m < n, terminator ≠ [] ∧ Seen 1 terminator stream m
      · exact Or.inr (Or.inr hterm)
      exact Or.inl ⟨n, hseen, fun m hm hs => hfirst ⟨m, hm, hs⟩,
        fun m hm hne hs => hterm ⟨m, hm, hne, hs⟩, hzero⟩

/-- **Sighted is found** if and only if the readings are enough. -/
theorem sighted_iff_found :
    (∀ n, Sighted target terminator stream n ↔ Found tie target terminator stream n) ↔
      Reliable tie target terminator stream := by
  constructor
  · intro h
    refine ⟨fun n hn => ?_, fun hnone n hseen => ?_⟩
    · have hsighted := (h n).mpr hn
      exact ⟨hsighted.seen, hsighted.zero⟩
    · rcases exists_sighted hseen with ⟨k, hk⟩ | hended
      · exact absurd ((h k).mp hk) (hnone k)
      · exact hended
  · intro h n
    refine ⟨fun hn => ?_, fun hn => hn.sighted (h.found n hn).1 (h.found n hn).2⟩
    by_cases hany : ∃ k, Found tie target terminator stream k
    · obtain ⟨k, hk⟩ := hany
      have hsighted := hk.sighted (h.found k hk).1 (h.found k hk).2
      rw [hn.unique hsighted]
      exact hk
    · exfalso
      rcases h.missed (fun k hk => hany ⟨k, hk⟩) n hn.seen with hzero | ⟨m, hm, hne, hs⟩
      · exact hn.zero hzero
      · exact hn.before m hm hne hs

end

/-! ## The loop -/

section

variable {target terminator stream : List UInt8} {targetLen termLen : Nat}

variable {index termIndex : Nat}

theorem findLoop_lt {rest : List UInt8} {k : Nat}
    (h : findLoop target targetLen terminator termLen rest index termIndex n = (true, k)) :
    n < k := by
  induction rest generalizing index termIndex n with
  | nil => cases h
  | cons c rest ih =>
    rw [findLoop] at h
    split at h
    · cases h
    · dsimp only at h
      generalize (if c ≠ target.getD index 0 then 0 else index) = start at h
      generalize (if c = target.getD start 0 then start + 1 else start) = next at h
      split at h
      · cases h
        exact Nat.lt_succ_self n
      · split at h
        · split at h
          · cases h
          · exact Nat.lt_of_succ_lt (ih h)
        · exact Nat.lt_of_succ_lt (ih h)

theorem getElem?_pattern {pattern : List UInt8} {len i : Nat} (hlen : len ≤ pattern.length)
    (hi : i < len) : (pattern.take len)[i]? = some (pattern.getD i 0) := by
  rw [getElem?_take_of_lt hi, getD_eq_getElem?_getD,
    getElem?_eq_getElem (by omega), Option.getD_some]

theorem pattern_length {pattern : List UInt8} {len : Nat} (hlen : len ≤ pattern.length) :
    (pattern.take len).length = len := length_take_of_le hlen

/-- What is known when `n` bytes have been read. -/
structure Reading (target : List UInt8) (targetLen : Nat) (terminator : List UInt8) (termLen : Nat)
    (stream : List UInt8) (n index termIndex : Nat) : Prop where
  tracks : Tracks 0 (target.take targetLen) stream n index
  termTracks : 0 < termLen → Tracks 1 (terminator.take termLen) stream n termIndex
  unseen : ∀ m ≤ n, ¬ Seen 0 (target.take targetLen) stream m
  unended : ∀ m ≤ n, terminator.take termLen ≠ [] → ¬ Seen 1 (terminator.take termLen) stream m
  zero : (0 : UInt8) ∉ stream.take n

theorem Reading.lt {k : Nat}
    (h : Reading target targetLen terminator termLen stream n index termIndex)
    (hk : Sighted (target.take targetLen) (terminator.take termLen) stream k) : n < k := by
  by_contra hle
  exact h.unseen k (by omega) hk.seen

/-- **The target's index** after one more byte. -/
theorem target_step {c : UInt8} (hlen : targetLen ≤ target.length)
    (h : Tracks 0 (target.take targetLen) stream n index) (hc : stream[n]? = some c) :
    let start := if c ≠ target.getD index 0 then 0 else index
    let found := c = target.getD start 0
    let next := if found then start + 1 else start
    (found ∧ targetLen ≤ next ↔ Seen 0 (target.take targetLen) stream (n + 1)) ∧
      (¬ Seen 0 (target.take targetLen) stream (n + 1) →
        Tracks 0 (target.take targetLen) stream (n + 1) next) := by
  intro start found next
  have hstart : Tracks 0 (target.take targetLen) stream n start ∧
      (¬ found → start = 0) := by
    have hlt := h.lt
    rw [pattern_length hlen] at hlt
    by_cases hmatch : c = target.getD index 0
    · have heq : start = index := if_neg (not_not_intro hmatch)
      refine ⟨by rw [heq]; exact h, fun hnot => absurd ?_ hnot⟩
      show c = target.getD start 0
      rw [heq]
      exact hmatch
    · have heq : start = 0 := if_pos hmatch
      have hget := getElem?_pattern hlen hlt
      rw [heq]
      exact ⟨h.retry hc (by rw [hget]; exact fun hsome => hmatch (Option.some.inj hsome).symm),
        fun _ => rfl⟩
  obtain ⟨htracks, hzero⟩ := hstart
  have hlt := htracks.lt
  rw [pattern_length hlen] at hlt
  have hget := getElem?_pattern hlen hlt
  have hseen := htracks.seen_iff hc
  rw [pattern_length hlen, hget, Option.some.injEq] at hseen
  by_cases hfound : found
  · have hnext : next = start + 1 := if_pos hfound
    have hiff : found ∧ targetLen ≤ next ↔ Seen 0 (target.take targetLen) stream (n + 1) := by grind
    refine ⟨hiff, fun hnot => ?_⟩
    rw [hnext]
    refine htracks.goOn hc (by rw [hget, hfound]) ?_
    rw [pattern_length hlen]
    by_contra hshort
    exact hnot (hiff.mp ⟨hfound, by omega⟩)
  · have hnext : next = 0 := (if_neg hfound).trans (hzero hfound)
    rw [hzero hfound] at htracks hget
    refine ⟨iff_of_false (fun hlast => hfound hlast.1) (fun hs => hfound (hseen.mp hs).2.symm),
      fun _ => ?_⟩
    rw [hnext]
    refine htracks.step hc ?_
    rw [hget]
    intro hsome
    refine hfound ?_
    show c = target.getD start 0
    rw [hzero hfound]
    exact (Option.some.inj hsome).symm

theorem terminator_goOn {c : UInt8} (hlen : termLen ≤ terminator.length)
    (h : Tracks 1 (terminator.take termLen) stream n termIndex) (hc : stream[n]? = some c)
    (hmatch : c = terminator.getD termIndex 0) :
    (termLen ≤ termIndex + 1 ↔ Seen 1 (terminator.take termLen) stream (n + 1)) ∧
      (¬ Seen 1 (terminator.take termLen) stream (n + 1) →
        Tracks 1 (terminator.take termLen) stream (n + 1) (termIndex + 1)) := by
  have hlt := h.lt
  rw [pattern_length hlen] at hlt
  have hget := getElem?_pattern hlen hlt
  have hseen := h.seen_iff hc
  rw [pattern_length hlen, hget, Option.some.injEq] at hseen
  have hiff : termLen ≤ termIndex + 1 ↔ Seen 1 (terminator.take termLen) stream (n + 1) := by grind
  refine ⟨hiff, fun hnot => h.goOn hc (by rw [hget, hmatch]) ?_⟩
  rw [pattern_length hlen]
  by_contra hshort
  exact hnot (hiff.mp (by omega))

theorem terminator_reset {c : UInt8} (hlen : termLen ≤ terminator.length)
    (h : Tracks 1 (terminator.take termLen) stream n termIndex) (hc : stream[n]? = some c)
    (hmatch : c ≠ terminator.getD termIndex 0) :
    ¬ Seen 1 (terminator.take termLen) stream (n + 1) ∧
      Tracks 1 (terminator.take termLen) stream (n + 1) 0 := by
  have hlt := h.lt
  rw [pattern_length hlen] at hlt
  have hget := getElem?_pattern hlen hlt
  have hne : (terminator.take termLen)[termIndex]? ≠ some c := by grind
  exact ⟨fun hs => hne ((h.seen_iff hc).mp hs).2, h.reset hc hne⟩

/-- **The loop finds** what is sighted, and nothing else. -/
theorem findLoop_iff (htarget : targetLen ≤ target.length) (hterm : termLen ≤ terminator.length)
    (hpos : 0 < targetLen) {rest : List UInt8}
    (hrest : stream.drop n = rest)
    (h : Reading target targetLen terminator termLen stream n index termIndex) (k : Nat) :
    findLoop target targetLen terminator termLen rest index termIndex n = (true, k) ↔
      Sighted (target.take targetLen) (terminator.take termLen) stream k := by
  induction rest generalizing n index termIndex with
  | nil =>
    refine iff_of_false (fun hfalse => by cases hfalse) fun hk => ?_
    have hlt := h.lt hk
    have hne : target.take targetLen ≠ [] := by
      refine ne_nil_of_length_pos ?_
      rw [pattern_length htarget]
      exact hpos
    have hle := hk.seen.completes.le hne
    have hend := drop_eq_nil_iff.mp hrest
    omega
  | cons c rest ih =>
    have hc : stream[n]? = some c := by
      rw [← Nat.add_zero n, ← getElem?_drop, hrest]
      rfl
    have htake : stream.take (n + 1) = stream.take n ++ [c] := by
      rw [take_add_one, hc]
      rfl
    have hdrop : stream.drop (n + 1) = rest := by
      rw [← drop_drop, hrest]
      rfl
    obtain ⟨hfound, htracks⟩ := target_step htarget h.tracks hc
    rw [findLoop]
    by_cases hzero : c = 0
    · -- A NUL ends the loop.
      rw [if_pos hzero]
      refine iff_of_false (fun hfalse => by cases hfalse) fun hk => ?_
      have hlt := h.lt hk
      refine hk.zero ((take_prefix_take_left hlt).subset ?_)
      rw [htake, hzero]
      exact mem_append_right _ mem_cons_self
    rw [if_neg hzero]
    have hzero' : (0 : UInt8) ∉ stream.take (n + 1) := by
      rw [htake, mem_append, mem_singleton]
      exact fun hmem => hmem.elim h.zero fun heq => hzero heq.symm
    dsimp only at hfound htracks ⊢
    by_cases hseen : Seen 0 (target.take targetLen) stream (n + 1)
    · -- The target is complete.
      rw [if_pos (hfound.mpr hseen), Prod.mk.injEq]
      have hsighted : Sighted (target.take targetLen) (terminator.take termLen) stream (n + 1) :=
        ⟨hseen, fun m hm => h.unseen m (by omega), fun m hm => h.unended m (by omega), hzero'⟩
      exact ⟨fun heq => heq.2 ▸ hsighted, fun hk => ⟨rfl, hsighted.unique hk⟩⟩
    rw [if_neg fun hlast => hseen (hfound.mp hlast)]
    have hunseen : ∀ m ≤ n + 1, ¬ Seen 0 (target.take targetLen) stream m := by
      intro m hm
      rcases Nat.lt_or_eq_of_le hm with hlt | rfl
      · exact h.unseen m (by omega)
      · exact hseen
    by_cases hmatch : 0 < termLen ∧ c = terminator.getD termIndex 0
    · obtain ⟨hended, hgoOn⟩ := terminator_goOn hterm (h.termTracks hmatch.1) hc hmatch.2
      rw [if_pos hmatch]
      by_cases hlast : Seen 1 (terminator.take termLen) stream (n + 1)
      · -- The terminator is complete.
        rw [if_pos (hended.mpr hlast)]
        refine iff_of_false (fun hfalse => by cases hfalse) fun hk => ?_
        have hlt : n + 1 < k := by
          rcases Nat.lt_or_eq_of_le (h.lt hk) with hlt | heq
          · exact hlt
          · have hnow : k = n + 1 := heq.symm
            exact absurd (hnow ▸ hk.seen) hseen
        refine hk.before (n + 1) hlt ?_ hlast
        refine ne_nil_of_length_pos ?_
        rw [pattern_length hterm]
        exact hmatch.1
      · rw [if_neg fun hend => hlast (hended.mp hend)]
        refine ih hdrop
          ⟨htracks hseen, fun _ => hgoOn hlast, hunseen, fun m hm hne => ?_, hzero'⟩
        rcases Nat.lt_or_eq_of_le hm with hlt | rfl
        · exact h.unended m (by omega) hne
        · exact hlast
    · rw [if_neg hmatch]
      have hreset (hterm0 : 0 < termLen) :=
        terminator_reset hterm (h.termTracks hterm0) hc fun heq => hmatch ⟨hterm0, heq⟩
      refine ih hdrop
        ⟨htracks hseen, fun hterm0 => (hreset hterm0).2, hunseen, fun m hm hne => ?_, hzero'⟩
      rcases Nat.lt_or_eq_of_le hm with hlt | rfl
      · exact h.unended m (by omega) hne
      · grind

end

/-! ## The result -/

theorem reading_zero {target terminator stream : List UInt8} {targetLen termLen : Nat}
    (htarget : targetLen ≤ target.length) (hterm : termLen ≤ terminator.length)
    (hpos : 0 < targetLen) : Reading target targetLen terminator termLen stream 0 0 0 := by
  have hne {pattern : List UInt8} {len : Nat} (hlen : len ≤ pattern.length) (h0 : 0 < len) :
      pattern.take len ≠ [] := by
    refine ne_nil_of_length_pos ?_
    rw [pattern_length hlen]
    exact h0
  have hunseen {skip m : Nat} {p : List UInt8} (hp : p ≠ []) (hm : m ≤ 0) :
      ¬ Seen skip p stream m := by
    rintro ⟨q, -, hq, -⟩
    have hlen := length_pos_of_ne_nil hp
    omega
  exact ⟨tracks_zero (hne htarget hpos), fun h0 => tracks_zero (hne hterm h0),
    fun m hm => hunseen (hne htarget hpos) hm, fun m hm h0 => hunseen h0 hm, not_mem_nil⟩

theorem found_empty (tie : Bool) (terminator stream : List UInt8) :
    Found tie [] terminator stream 0 := by
  refine ⟨⟨0, rfl, List.nil_prefix⟩, fun m hm => absurd hm (Nat.not_lt_zero m), ?_⟩
  rintro m hne ⟨q, hq, -⟩
  have hlen := length_pos_of_ne_nil hne
  exact Or.inl (by omega)

/-- **`findUntil`** finds the first occurrence of the target that ends before one of the terminator
does, and has read the stream up to its end, if and only if the target's first byte is a NUL just
where it is empty, and readings that do not overlap are enough. -/
theorem findUntil_iff (tie : Bool) (target terminator stream : List UInt8) (targetLen termLen : Nat)
    (htarget : targetLen ≤ target.length) (hterm : termLen ≤ terminator.length) :
    (∀ n, findUntil target targetLen terminator termLen stream = (true, n) ↔
      Found tie (target.take targetLen) (terminator.take termLen) stream n) ↔
    (target.getD 0 0 = 0 ↔ targetLen = 0) ∧
      (targetLen = 0 ∨
        Reliable tie (target.take targetLen) (terminator.take termLen) stream) := by
  by_cases hzero : target.getD 0 0 = 0
  · have hresult : findUntil target targetLen terminator termLen stream = (true, 0) := if_pos hzero
    rw [hresult]
    by_cases hempty : targetLen = 0
    · refine iff_of_true (fun n => ?_) ⟨iff_of_true hzero hempty, Or.inl hempty⟩
      have hfound : Found tie (target.take targetLen) (terminator.take termLen) stream 0 := by
        rw [hempty, take_zero]
        exact found_empty tie _ stream
      exact ⟨fun heq => (Prod.mk.inj heq).2 ▸ hfound, fun hn => by rw [hfound.unique hn]⟩
    · refine iff_of_false (fun h => ?_) fun hcondition => hempty (hcondition.1.mp hzero)
      obtain ⟨q, hq, -⟩ := ((h 0).mp rfl).completes
      rw [pattern_length htarget] at hq
      omega
  · have hresult : findUntil target targetLen terminator termLen stream =
        findLoop target targetLen terminator termLen stream 0 0 0 := if_neg hzero
    rw [hresult]
    by_cases hempty : targetLen = 0
    · refine iff_of_false (fun h => ?_) fun hcondition => hzero (hcondition.1.mpr hempty)
      have hloop := (h 0).mpr (by
        rw [hempty, take_zero]
        exact found_empty tie _ stream)
      exact absurd (findLoop_lt hloop) (Nat.lt_irrefl 0)
    · have hreading := @reading_zero target terminator stream targetLen termLen htarget hterm
        (Nat.pos_of_ne_zero hempty)
      have hloop := findLoop_iff htarget hterm (Nat.pos_of_ne_zero hempty) rfl hreading
      simp only [drop_zero] at hloop
      simp only [hloop, sighted_iff_found, hzero, hempty, iff_self, true_and, false_or]

/-- `b` is found in `ab`, with no terminator. -/
theorem findUntil_ab :
    findUntil [98, 0] 1 [0] 0 [97, 98] = (true, 2) ∧ Found true [98] [] [97, 98] 2 := by
  have hplace : ∀ q, [98] <+: ([97, 98] : List UInt8).drop q → q = 1 := by
    intro q hpattern
    match q with
    | 0 => exact absurd hpattern (by decide)
    | 1 => rfl
    | q + 2 =>
      grind
  have hcompletes : ∀ n, Completes [98] ([97, 98] : List UInt8) n → n = 2 := by
    rintro n ⟨q, hq, hpattern⟩
    rw [← hq, hplace q hpattern]
    rfl
  have hfound : Found true [98] [] [97, 98] 2 :=
    ⟨⟨1, rfl, by decide⟩, fun m hm h => absurd (hcompletes m h) (Nat.ne_of_lt hm),
      fun m hne => absurd rfl hne⟩
  have hstart : Start 0 [98] ([97, 98] : List UInt8) 1 := by
    refine start_iff.mpr fun r hr _ => ?_
    obtain rfl : r = 0 := by omega
    decide
  have hreliable : Reliable true [98] [] [97, 98] := by
    refine ⟨fun n h => ?_, fun hnone n _ => absurd hfound (hnone 2)⟩
    rw [hcompletes n h.completes]
    exact ⟨⟨1, hstart, rfl, by decide⟩, by decide⟩
  have h := (findUntil_iff true [98, 0] [0] [97, 98] 1 0 (by decide) (by decide)).mpr
    ⟨by decide, Or.inr hreliable⟩ 2
  exact ⟨rfl, h.mp rfl⟩

/-- `aab` in `aaab` is passed over. -/
theorem findUntil_false :
    ¬ ∃ tie : Bool, ∀ (target terminator stream : List UInt8) (n : Nat),
      findUntil (target ++ [0]) target.length (terminator ++ [0]) terminator.length stream =
        (true, n) ↔ Found tie target terminator stream n := by
  rintro ⟨tie, h⟩
  have hfound : Found tie [97, 97, 98] [] [97, 97, 97, 98] 4 := by
    refine ⟨⟨1, rfl, by decide⟩, ?_, fun m hne => absurd rfl hne⟩
    rintro m hm ⟨q, hq, hpattern⟩
    have hzero : q = 0 := by grind
    subst hzero
    revert hpattern
    decide
  have hresult := (h [97, 97, 98] [] [97, 97, 97, 98] 4).mpr hfound
  revert hresult
  decide

end StreamFind
