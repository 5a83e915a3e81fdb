import Mathlib.Data.List.Infix

/-!
# Matching with one index

A pattern is looked for in a text with a single index, how much of it the symbols just read agree
with.  On a mismatch the index starts again, so the text is cut into readings that do not overlap,
and an occurrence is seen if a reading starts where it does.  The symbol of the mismatch belongs to
the next reading, or is skipped.
-/

namespace Restart

variable {α : Type}

/-- An occurrence of the pattern that ends at `n`. -/
def Completes (p s : List α) (n : Nat) : Prop := ∃ q, q + p.length = n ∧ p <+: s.drop q

theorem Completes.le {p s : List α} {n : Nat} (h : Completes p s n) (hne : p ≠ []) :
    n ≤ s.length := by
  obtain ⟨q, rfl, hpattern⟩ := h
  have hlen := hpattern.length_le
  have hpos := List.length_pos_of_ne_nil hne
  rw [List.length_drop] at hlen
  omega

theorem getElem?_reading {s : List α} {n i : Nat} {a : α} (hle : i ≤ n) (hs : s[n]? = some a) :
    (s.drop (n - i))[i]? = some a := by
  have hplace : n - i + i = n := by omega
  rw [List.getElem?_drop, hplace, hs]

variable [DecidableEq α]

/-- How far a pattern and a text agree. -/
def agree : List α → List α → Nat
  | a :: p, b :: s => if a = b then agree p s + 1 else 0
  | _, _ => 0

/-- The places where a reading starts: no reading before runs past them. -/
def Start (skip : Nat) (p s : List α) (q : Nat) : Prop :=
  ∀ r, r < q → Start skip p s r → r + agree p (s.drop r) + skip ≤ q
termination_by q

/-- An occurrence that a reading starts with, and that ends at `n`. -/
def Seen (skip : Nat) (p s : List α) (n : Nat) : Prop :=
  ∃ q, Start skip p s q ∧ q + p.length = n ∧ p <+: s.drop q

/-- The reading that `n` symbols leave off in has got `i` symbols of the pattern. -/
structure Tracks (skip : Nat) (p s : List α) (n i : Nat) : Prop where
  le : i ≤ n
  lt : i < p.length
  start : Start skip p s (n - i)
  shared : i ≤ agree p (s.drop (n - i))

/-! ## Agreement -/

theorem agree_succ {p s : List α} {i : Nat} {a : α} (h : i ≤ agree p s) (hp : p[i]? = some a)
    (hs : s[i]? = some a) : i + 1 ≤ agree p s := by
  induction p generalizing s i with
  | nil => cases hp
  | cons b p ih =>
    cases s with
    | nil => cases hs
    | cons c s =>
      cases i with
      | zero =>
        rw [List.getElem?_cons_zero, Option.some.injEq] at hp hs
        rw [agree, if_pos (hp.trans hs.symm)]
        omega
      | succ i =>
        rw [agree] at h ⊢
        split at h
        · rename_i hbc
          rw [if_pos hbc]
          exact Nat.succ_le_succ (ih (Nat.le_of_succ_le_succ h) hp hs)
        · cases h

theorem agree_eq {p s : List α} {i : Nat} (h : i ≤ agree p s) (hne : p[i]? ≠ s[i]?) :
    agree p s = i := by
  induction p generalizing s i with
  | nil => exact (Nat.le_zero.mp h).symm
  | cons b p ih =>
    cases s with
    | nil => exact (Nat.le_zero.mp h).symm
    | cons c s =>
      rw [agree] at h ⊢
      cases i with
      | zero =>
        grind
      | succ i =>
        split at h
        · rename_i hbc
          rw [if_pos hbc, ih (Nat.le_of_succ_le_succ h) hne]
        · cases h

theorem agree_of_prefix {p s : List α} (h : p <+: s) : agree p s = p.length := by
  induction p generalizing s with
  | nil => rfl
  | cons a p ih =>
    obtain ⟨rest, rfl⟩ := h
    rw [List.cons_append, agree, if_pos rfl, ih (List.prefix_append p rest), List.length_cons]

theorem prefix_of_agree {p s : List α} (h : p.length ≤ agree p s) : p <+: s := by
  induction p generalizing s with
  | nil => exact List.nil_prefix
  | cons a p ih =>
    cases s with
    | nil => cases h
    | cons b s =>
      rw [agree] at h
      split at h
      · rename_i hab
        exact List.cons_prefix_cons.mpr ⟨hab, ih (Nat.le_of_succ_le_succ h)⟩
      · cases h

/-! ## Readings -/

section

variable {skip n i : Nat} {p s : List α} {a : α}

theorem start_iff {q : Nat} :
    Start skip p s q ↔ ∀ r, r < q → Start skip p s r → r + agree p (s.drop r) + skip ≤ q := by
  rw [Start]

theorem start_zero : Start skip p s 0 := start_iff.mpr fun r hr => absurd hr (Nat.not_lt_zero r)

theorem Seen.completes (h : Seen skip p s n) : Completes p s n := by
  obtain ⟨q, -, hq, hpattern⟩ := h
  exact ⟨q, hq, hpattern⟩

theorem tracks_zero (hne : p ≠ []) : Tracks skip p s 0 0 where
  le := Nat.le_refl 0
  lt := List.length_pos_of_ne_nil hne
  start := start_zero
  shared := Nat.zero_le _

theorem Tracks.not_start (h : Tracks skip p s n i) {r : Nat} (hlow : n - i < r)
    (hhigh : r < n + skip) : ¬ Start skip p s r := by
  intro hr
  have hstart := start_iff.mp hr (n - i) hlow h.start
  have hagree := h.shared
  have hle := h.le
  omega

/-- **A match** goes on with the reading. -/
theorem Tracks.goOn (h : Tracks skip p s n i) (hs : s[n]? = some a) (hp : p[i]? = some a)
    (hlen : i + 1 < p.length) : Tracks skip p s (n + 1) (i + 1) where
  le := Nat.succ_le_succ h.le
  lt := hlen
  start := by
    rw [Nat.add_sub_add_right]
    exact h.start
  shared := by
    rw [Nat.add_sub_add_right]
    exact agree_succ h.shared hp (getElem?_reading h.le hs)

theorem Tracks.mismatch (h : Tracks skip p s n i) (hs : s[n]? = some a) (hp : p[i]? ≠ some a) :
    agree p (s.drop (n - i)) = i :=
  agree_eq h.shared fun heq => hp (heq.trans (getElem?_reading h.le hs))

theorem Tracks.start_next (h : Tracks skip p s n i) (hs : s[n]? = some a) (hp : p[i]? ≠ some a) :
    Start skip p s (n + skip) := by
  refine start_iff.mpr fun r hr hstart => ?_
  have hagree := h.mismatch hs hp
  have hle := h.le
  rcases Nat.lt_trichotomy r (n - i) with hlow | heq | hhigh
  · have hbefore := start_iff.mp h.start r hlow hstart
    omega
  · rw [heq, hagree]
    omega
  · exact absurd hstart (h.not_start hhigh hr)

/-- **A mismatch that is skipped.** -/
theorem Tracks.reset (h : Tracks 1 p s n i) (hs : s[n]? = some a) (hp : p[i]? ≠ some a) :
    Tracks 1 p s (n + 1) 0 where
  le := Nat.zero_le _
  lt := Nat.lt_of_le_of_lt (Nat.zero_le i) h.lt
  start := h.start_next hs hp
  shared := Nat.zero_le _

/-- **A mismatch that the next reading starts with.** -/
theorem Tracks.retry (h : Tracks 0 p s n i) (hs : s[n]? = some a) (hp : p[i]? ≠ some a) :
    Tracks 0 p s n 0 where
  le := Nat.zero_le _
  lt := Nat.lt_of_le_of_lt (Nat.zero_le i) h.lt
  start := h.start_next hs hp
  shared := Nat.zero_le _

theorem Tracks.step (h : Tracks 0 p s n 0) (hs : s[n]? = some a) (hp : p[0]? ≠ some a) :
    Tracks 0 p s (n + 1) 0 where
  le := Nat.zero_le _
  lt := h.lt
  start := by
    refine start_iff.mpr fun r hr hstart => ?_
    have hagree := h.mismatch hs hp
    rcases Nat.lt_or_ge r n with hlow | hhigh
    · have hbefore := start_iff.mp h.start r hlow hstart
      omega
    · have heq : r = n := by omega
      subst heq
      rw [Nat.sub_zero] at hagree
      omega
  shared := Nat.zero_le _

/-- **An occurrence is seen** with its last symbol. -/
theorem Tracks.seen_iff (h : Tracks skip p s n i) (hs : s[n]? = some a) :
    Seen skip p s (n + 1) ↔ i + 1 = p.length ∧ p[i]? = some a := by
  have hle := h.le
  have hlt := h.lt
  constructor
  · rintro ⟨q, hstart, hlen, hpattern⟩
    have hfull := agree_of_prefix hpattern
    rcases Nat.lt_trichotomy q (n - i) with hlow | rfl | hhigh
    · have hbefore := start_iff.mp h.start q hlow hstart
      omega
    · refine ⟨by omega, ?_⟩
      obtain ⟨rest, hrest⟩ := hpattern
      have hget := getElem?_reading hle hs
      rw [← hrest, List.getElem?_append_left hlt] at hget
      exact hget
    · omega
  · rintro ⟨hlen, hp⟩
    refine ⟨n - i, h.start, by omega, prefix_of_agree ?_⟩
    rw [← hlen]
    exact agree_succ h.shared hp (getElem?_reading hle hs)

end

end Restart
