import RalioFirmware.Umm.Realloc

/-!
# Sessions

What the callers of the allocator may rely on, over all that they do: the pieces they hold, with
what they last wrote into them, are an account of the heap that no call breaks.
-/

namespace Umm

open List

/-- What a caller holds: its first block, how many there are, and the half words in them. -/
structure Piece where
  block : Nat
  blocks : Nat
  holds : Nat → Nat

namespace Piece

def ptr (x : Piece) : Nat := data x.block

/-- The half words of data. -/
def room (x : Piece) : Nat := 4 * x.blocks - 2

/-- The piece that a pointer is given for. -/
def given (h : Heap) (ptr size : Nat) : Piece :=
  ⟨blockOf ptr, Umm.blocks size, fun i => h.mem (ptr / 2 + i)⟩

/-- A piece of another size, with what the one before held. -/
def resized (x y : Piece) : Piece :=
  { y with holds := fun i => if i < min x.room y.room then x.holds i else y.holds i }

def run (x : Piece) : Nat × Nat := (x.block, x.block + x.blocks)

end Piece

/-- One call of a caller who keeps to the rules: what is freed, resized or written is held. -/
inductive Step : Heap → List Piece → Heap → List Piece → Prop
  | malloc {h h' ps size ptr} (heq : h.malloc size = (some ptr, h')) :
      Step h ps h' (.given h' ptr size :: ps)
  | refuse {h h' ps size} (heq : h.malloc size = (none, h')) : Step h ps h' ps
  | freeNull {h ps} : Step h ps (h.free none) ps
  | free {h ps x rest} (hp : ps.Perm (x :: rest)) : Step h ps (h.free (some x.ptr)) rest
  | reallocNull {h h' ps size ptr} (heq : h.realloc none size = (some ptr, h')) :
      Step h ps h' (.given h' ptr size :: ps)
  | reallocZero {h h' ps x rest} (hp : ps.Perm (x :: rest))
      (heq : h.realloc (some x.ptr) 0 = (none, h')) : Step h ps h' rest
  | realloc {h h' ps x rest size ptr} (hp : ps.Perm (x :: rest))
      (heq : h.realloc (some x.ptr) size = (some ptr, h')) :
      Step h ps h' (x.resized (.given h' ptr size) :: rest)
  | keep {h h' ps x rest size} (hp : ps.Perm (x :: rest)) (hsize : size ≠ 0)
      (heq : h.realloc (some x.ptr) size = (none, h')) : Step h ps h' ps
  | write {h ps x rest i v} (hp : ps.Perm (x :: rest)) (hi : i < x.room) :
      Step h ps { h with mem := Function.update h.mem (x.ptr / 2 + i) v }
        ({ x with holds := Function.update x.holds i v } :: rest)

/-- What a heap of `n` blocks may come to, and what its callers hold then. -/
inductive Session (n : Nat) : Heap → List Piece → Prop
  | init : Session n (.init n) []
  | step {h h' ps ps'} (hs : Session n h ps) (hstep : Step h ps h' ps') : Session n h' ps'

/-- The pieces account for a heap of `n` blocks. -/
structure Sound (n : Nat) (h : Heap) (ps : List Piece) : Prop where
  last : h.last = n - 1
  table : h.Table (ps.map Piece.run)
  holds : ∀ x ∈ ps, ∀ i < x.room, h.mem (x.ptr / 2 + i) = x.holds i

namespace Heap

variable {h h' : Heap} {ps rest : List Piece} {t : List (Nat × Nat)}

theorem get_init {n : Nat} (hn : 3 ≤ n ∧ n ≤ 32768) (f : Field) (a : Nat) :
    (init n).get f a = if f = .PBLOCK then if a = n - 1 then 1 else 0
      else if a = 0 then 1 else if f = .NBLOCK ∧ a = 1 then n - 1 + UMM_FREELIST_MASK else 0 := by
  obtain ⟨hor, hlt⟩ := @or_mask (n - 1) (by omega)
  have hlast : ∀ g : Nat → Nat, last ⟨n, g, n - 2, 0⟩ = n - 1 := fun _ => rfl
  have hzero : ∀ f a, get ⟨n, fun _ => 0, n - 2, 0⟩ f a = 0 := fun _ _ => rfl
  simp only [init, get_set, last_set, hlast, hzero, hor, Nat.mod_eq_of_lt hlt]
  cases f <;> grind

/-- **A heap starts as one free run.** -/
theorem init_table {n : Nat} (hn : 3 ≤ n ∧ n ≤ 32768) : (init n).Table [] := by
  have hlast : (init n).last = n - 1 := rfl
  have hread := get_init hn
  have hfirst : (init n).Adjoins (· ∈ [1]) 0 1 := by
    refine ⟨by decide, ?_, ?_⟩
    · simp [hread, tag]
    · rw [hread, if_pos rfl, if_neg (by omega)]
  have hsecond : (init n).Adjoins (· ∈ [1]) 1 (n - 1) := by
    refine ⟨by omega, ?_, ?_⟩
    · simp [hread, tag]
    · simp [hread]
  have hends : (init n).get .NBLOCK (n - 1) = 0 := by
    have hne : n - 1 ≠ 0 ∧ n - 1 ≠ 1 := by omega
    simp only [hread, hne, if_false, and_false, reduceCtorEq]
  have hring : (init n).Rings 0 1 ∧ (init n).Rings 1 0 := by
    refine ⟨⟨?_, ?_⟩, ⟨?_, ?_⟩⟩ <;> simp [hread]
  refine ⟨[1], [1], ⟨⟨⟨hfirst, hsecond⟩, hends, hlast ▸ by omega⟩, rfl, ⟨hring, by decide⟩,
    fun _ => id⟩, ⟨by simp, fun _ => ?_⟩, by simp [used], ?_⟩
  · rw [mem_singleton]
    omega
  · show n - 2 + 0 + 1 = n - 1
    omega

/-- With nothing in use there is one free run. -/
theorem Shape.empty {bs fs : List Nat} (hs : h.Shape [] bs fs) (hlast : 1 < h.last) :
    bs = [1] ∧ fs = [1] := by
  have hnil := perm_nil.mp hs.table.symm
  have hfree : ∀ b ∈ bs, b ∈ fs := fun b hb => by
    by_contra hnot
    obtain ⟨xs, ys, rfl⟩ := append_of_mem hb
    have hmem : (b, Between.behind h.last ys) ∈ used h.last fs (xs ++ b :: ys) :=
      mem_used.mpr ⟨xs, ys, rfl, hnot, rfl⟩
    rw [hnil] at hmem
    exact not_mem_nil hmem
  have hfirst := hs.repr.first
  match bs, hs, hfree with
  | [], _, _ => exact absurd hfirst hlast.ne'
  | [b], hs, hfree =>
    obtain rfl : b = 1 := hfirst
    refine ⟨rfl, ?_⟩
    have hnodup := (nodup_cons.mp hs.repr.ring.nodup).2
    refine perm_singleton.mp ((perm_ext_iff_of_nodup hnodup (nodup_singleton 1)).mpr fun b => ?_)
    exact ⟨hs.repr.sub b, hfree b⟩
  | b :: y :: l, hs, hfree => exact absurd (hfree y (by simp)) (hs.apart.2.1 (hfree b (by simp)))

theorem Table.refuse (ht : h.Table t) (k : Nat) : { h with oom_count := k }.Table t := by
  obtain ⟨bs, fs, hs⟩ := ht
  exact ⟨bs, fs, hs.repr.rewrite rfl fun _ _ _ => rfl, hs.apart, hs.table, hs.count⟩

end Heap

namespace Sound

open Heap

variable {h h' : Heap} {ps ps' rest : List Piece} {x : Piece} {n size ptr : Nat}

theorem perm (hs : Sound n h ps) (hp : ps.Perm ps') : Sound n h ps' :=
  ⟨hs.last, hs.table.perm (hp.symm.map _), fun y hy => hs.holds y (hp.mem_iff.mpr hy)⟩

theorem held (hs : Sound n h ps) (hsub : ∀ y ∈ rest, y ∈ ps)
    (hk : Keeps (rest.map Piece.run) h h') :
    ∀ y ∈ rest, ∀ i < y.room, h'.mem (y.ptr / 2 + i) = y.holds i := by
  intro y hy i hi
  refine (hk.mem (mem_map_of_mem hy) (Nat.le_add_right _ _) ?_).trans
    (hs.holds y (hsub y hy) i hi)
  simp only [Piece.room, Piece.run, data] at hi ⊢
  omega

theorem cons (hlast : h'.last = n - 1) (ht : h'.Table ((x :: ps).map Piece.run))
    (hheld : ∀ y ∈ ps, ∀ i < y.room, h'.mem (y.ptr / 2 + i) = y.holds i)
    (hx : ∀ i < x.room, h'.mem (x.ptr / 2 + i) = x.holds i) : Sound n h' (x :: ps) := by
  refine ⟨hlast, ht, fun y hy => ?_⟩
  rcases mem_cons.mp hy with rfl | hy
  · exact hx
  · exact hheld y hy

theorem given_data {c : Nat} : Piece.given h (data c) size =
    ⟨c, blocks size, fun i => h.mem (data c / 2 + i)⟩ := by
  rw [Piece.given, blockOf_data]

theorem malloc (hs : Sound n h ps) (heq : h.malloc size = (some ptr, h')) :
    Sound n h' (.given h' ptr size :: ps) := by
  rw [Heap.malloc] at heq
  split at heq
  · cases heq
  · rcases hs.table.malloc size with ⟨hnone, -⟩ | ⟨c, e, h₁, hsome, -, -, -, ht, hk⟩
    · cases hnone.symm.trans heq
    · cases hsome.symm.trans heq
      rw [given_data]
      exact cons (hk.last.trans hs.last) ht (hs.held (fun _ => id) hk) fun i _ => rfl

theorem refuse (hs : Sound n h ps) (heq : h.malloc size = (none, h')) : Sound n h' ps := by
  rw [Heap.malloc] at heq
  split at heq
  · cases heq
    exact hs
  · rcases hs.table.malloc size with ⟨hnone, -⟩ | ⟨c, e, h₁, hsome, -, -, -, ht, hk⟩
    · cases hnone.symm.trans heq
      exact ⟨hs.last, hs.table.refuse _, hs.holds⟩
    · cases hsome.symm.trans heq

theorem free (hs : Sound n h (x :: rest)) : Sound n (h.freeCore x.ptr) rest := by
  obtain ⟨ht, hk⟩ := hs.table.free
  exact ⟨hk.last.trans hs.last, ht, hs.held (fun y hy => mem_cons_of_mem x hy) hk⟩

theorem realloc (hs : Sound n h (x :: rest)) (heq : h.reallocCore x.ptr size = (some ptr, h')) :
    Sound n h' (x.resized (.given h' ptr size) :: rest) := by
  rcases hs.table.realloc size with ⟨c, h₁, hsome, ht, hk, hm⟩ | ⟨hnone, -⟩
  · cases hsome.symm.trans heq
    rw [given_data]
    refine cons (hk.last.trans hs.last) ht (hs.held (fun y hy => mem_cons_of_mem x hy) hk)
      fun i hi => ?_
    simp only [Piece.resized, Piece.ptr]
    split
    · rename_i hin
      have hmoved := hm i (by simpa [Piece.room] using hin)
      exact hmoved.trans (hs.holds x mem_cons_self i (by omega))
    · rfl
  · cases hnone.symm.trans heq

theorem keep (hs : Sound n h (x :: rest)) (heq : h.reallocCore x.ptr size = (none, h')) :
    Sound n h' (x :: rest) := by
  rcases hs.table.realloc size with ⟨c, h₁, hsome, -⟩ | ⟨hnone, -⟩
  · cases hsome.symm.trans heq
  · cases hnone.symm.trans heq
    exact ⟨hs.last, hs.table.refuse _, hs.holds⟩

theorem write {i v : Nat} (hs : Sound n h (x :: rest)) (hi : i < x.room) :
    Sound n { h with mem := Function.update h.mem (x.ptr / 2 + i) v }
      ({ x with holds := Function.update x.holds i v } :: rest) := by
  obtain ⟨ht, hk⟩ := @Table.write h { h with mem := Function.update h.mem (x.ptr / 2 + i) v }
    (rest.map Piece.run) x.block (x.block + x.blocks) hs.table rfl rfl fun j hj =>
      Function.update_of_ne (by
        simp only [Piece.room, Piece.ptr, data] at hi hj ⊢
        omega) _ _
  refine cons (hk.last.trans hs.last) ht (hs.held (fun y hy => mem_cons_of_mem x hy) hk)
    fun j hj => ?_
  have hplace : x.ptr / 2 + j = x.ptr / 2 + i ↔ j = i := by omega
  have hold := hs.holds x mem_cons_self j hj
  simp only [Function.update_apply, Piece.ptr] at hplace hold ⊢
  simp only [hplace, hold]

/-- **Every call leaves the pieces an account of the heap.** -/
theorem step (hs : Sound n h ps) (hstep : Step h ps h' ps') : Sound n h' ps' := by
  cases hstep with
  | malloc heq => exact hs.malloc heq
  | refuse heq => exact hs.refuse heq
  | freeNull => exact hs
  | free hp => exact (hs.perm hp).free
  | reallocNull heq => exact hs.malloc heq
  | reallocZero hp heq =>
    cases heq
    exact (hs.perm hp).free
  | @realloc _ _ _ _ size _ hp heq =>
    have hsize : size ≠ 0 := fun hzero => by
      subst hzero
      cases heq
    rw [Heap.realloc, if_neg hsize] at heq
    exact (hs.perm hp).realloc heq
  | keep hp hsize heq =>
    rw [Heap.realloc, if_neg hsize] at heq
    exact ((hs.perm hp).keep heq).perm hp.symm
  | write hp hi => exact (hs.perm hp).write hi

end Sound

namespace Session

variable {n : Nat} {h : Heap} {ps : List Piece}

theorem sound (hn : 3 ≤ n ∧ n ≤ 32768) (hs : Session n h ps) : Sound n h ps := by
  induction hs with
  | init => exact ⟨rfl, Heap.init_table hn, fun x hx => (not_mem_nil hx).elim⟩
  | step hs hstep ih => exact ih.step hstep

theorem bounds (hn : 3 ≤ n ∧ n ≤ 32768) (hs : Session n h ps) {x : Piece} (hx : x ∈ ps) :
    1 ≤ x.block ∧ 0 < x.blocks ∧ x.block + x.blocks < n := by
  obtain ⟨us, vs, rfl⟩ := append_of_mem hx
  have hsound := (hs.sound hn).perm perm_middle
  have hb := hsound.table.bounds
  rw [hsound.last] at hb
  omega

theorem sum_runs : total (ps.map Piece.run) = (ps.map Piece.blocks).sum := by
  simp only [total, map_map]
  refine congrArg sum (map_congr_left fun x _ => ?_)
  exact Nat.add_sub_cancel_left x.block x.blocks

/-- Eight blocks, after a caller got three of them. -/
def eight : Heap := ((Heap.init 8).malloc 20).2

def piece : Piece := .given eight 12 20

theorem eight_session : Session 8 eight [piece] := .step .init (.malloc (Prod.ext (by decide) rfl))

/-- **No two pieces overlap, and the blocks that no piece has are counted.** -/
theorem account (hn : 3 ≤ n ∧ n ≤ 32768) (hs : Session n h ps) :
    (∀ x ∈ ps, 1 ≤ x.block ∧ 0 < x.blocks ∧ x.block + x.blocks < n) ∧
      ps.Pairwise (fun x y => x.block + x.blocks ≤ y.block ∨ y.block + y.blocks ≤ x.block) ∧
      h.free_blocks + (ps.map Piece.blocks).sum + 2 = n := by
  have hsound := hs.sound hn
  refine ⟨fun x hx => hs.bounds hn hx, pairwise_map.mp hsound.table.disjoint, ?_⟩
  obtain ⟨bs, fs, hshape⟩ := hsound.table
  have hcount := hshape.count
  rw [sum_runs, hsound.last] at hcount
  omega

theorem account_eight : eight.free_blocks + piece.blocks + 2 = 8 :=
  (account (by decide) eight_session).2.2

/-- **A call fails where nothing is large enough**, and otherwise takes the best fit. -/
theorem malloc_exact {size : Nat} (hn : 3 ≤ n ∧ n ≤ 32768) (hs : Session n h ps)
    (hsize : size ≠ 0) :
    ((h.malloc size).1 = none ↔ ∀ a, 1 ≤ a → a + blocks size < n →
        ¬Clear (ps.map Piece.run) a (a + blocks size)) ∧
      ∀ ptr, (h.malloc size).1 = some ptr → ∃ c e, ptr = data c ∧
        Gap (n - 1) (ps.map Piece.run) c e ∧ c + blocks size ≤ e ∧
        ∀ a b, Gap (n - 1) (ps.map Piece.run) a b → a + blocks size ≤ b → e - c ≤ b - a := by
  have hsound := hs.sound hn
  have hmalloc := hsound.table.malloc size
  rw [Heap.malloc, if_neg hsize]
  rw [hsound.last] at hmalloc
  rcases hmalloc with ⟨heq, hnone⟩ | ⟨c, e, h', heq, hgap, hfits, hbest, -, -⟩
  · rw [heq]
    exact ⟨iff_of_true rfl fun a ha hlt => hnone a ha (by omega), fun _ hsome => nomatch hsome⟩
  · rw [heq]
    refine ⟨iff_of_false (fun hsome => nomatch hsome) fun hno => ?_, fun ptr hptr => ?_⟩
    · have hhigh := hgap.high
      refine hno c hgap.low (by omega) fun q hq => (hgap.clear q hq).imp_right fun hle => ?_
      omega
    · cases hptr
      exact ⟨c, e, rfl, hgap, hfits, hbest⟩

theorem malloc_exact_eight : (eight.malloc 100).1 = none ↔ ∀ a, 1 ≤ a → a + blocks 100 < 8 →
    ¬Clear [piece.run] a (a + blocks 100) :=
  (malloc_exact (by decide) eight_session (by decide)).1

/-- **Another size is refused where nothing is large enough**, and then nothing changes. -/
theorem realloc_refused {size : Nat} {x : Piece} (hn : 3 ≤ n ∧ n ≤ 32768) (hs : Session n h ps)
    (hx : x ∈ ps) (hsize : size ≠ 0) (hnone : (h.realloc (some x.ptr) size).1 = none) :
    (h.realloc (some x.ptr) size).2 = { h with oom_count := (h.oom_count + 1) % 2 ^ 32 } ∧
      x.blocks < blocks size ∧ ∀ a, 1 ≤ a → a + blocks size < n →
        ¬Clear (ps.map Piece.run) a (a + blocks size) := by
  obtain ⟨us, vs, rfl⟩ := append_of_mem hx
  have hsound := (hs.sound hn).perm perm_middle
  rw [Heap.realloc, if_neg hsize] at hnone ⊢
  rcases hsound.table.realloc size with ⟨c, h', hsome, -⟩ | ⟨heq, hlt, hno⟩
  · cases (congrArg Prod.fst hsome).symm.trans hnone
  · rw [hsound.last] at hno
    refine ⟨congrArg Prod.snd heq, by simpa using hlt, fun a ha hlt' hclear => ?_⟩
    refine hno a ha (by omega) fun q hq => hclear q ?_
    exact (perm_middle.map Piece.run).mem_iff.mpr hq

theorem realloc_refused_eight : (eight.realloc (some piece.ptr) 100).2 =
    { eight with oom_count := (eight.oom_count + 1) % 2 ^ 32 } :=
  (realloc_refused (by decide) eight_session mem_cons_self (by decide) (by decide)).1

/-- **When everything is freed the heap is as it was at first.** -/
theorem all_freed (hn : 3 ≤ n ∧ n ≤ 32768) (hs : Session n h []) :
    (∀ a ∈ [0, 1, n - 1], h.get .NBLOCK a = (Heap.init n).get .NBLOCK a) ∧
      (∀ a ∈ [1, n - 1], h.get .PBLOCK a = (Heap.init n).get .PBLOCK a) ∧
      (∀ a ∈ [0, 1], h.get .NFREE a = (Heap.init n).get .NFREE a ∧
        h.get .PFREE a = (Heap.init n).get .PFREE a) ∧
      h.free_blocks = (Heap.init n).free_blocks := by
  have hsound := hs.sound hn
  have hlast := hsound.last
  obtain ⟨bs, fs, hshape⟩ := hsound.table
  obtain ⟨rfl, rfl⟩ := hshape.empty (by omega)
  obtain ⟨⟨hfirst, hsecond⟩, hends, -⟩ := hshape.repr.chain
  obtain ⟨⟨hout, hback⟩, -⟩ := hshape.repr.ring
  have hcount := hshape.count
  have hread := Heap.get_init hn
  have hne : n - 1 ≠ 0 ∧ n - 1 ≠ 1 := by omega
  rw [hlast] at hsecond hends hcount
  refine ⟨?_, ?_, ?_, show h.free_blocks = n - 2 from ?_⟩
  · simp [hread, hne, hends, hfirst.next, hsecond.next, tag]
  · simp [hread, hne.2.symm, hfirst.prev, hsecond.prev]
  · simp [hread, hout.next, hout.prev, hback.next, hback.prev]
  · simp only [total, map_nil, sum_nil] at hcount
    omega

theorem all_freed_eight : (eight.free (some piece.ptr)).free_blocks = 6 :=
  (all_freed (by decide) (.step eight_session (.free (Perm.refl _)))).2.2.2

end Session

end Umm
