import Mathlib.Data.List.Perm.Subperm
import RalioFirmware.Umm.Table

/-!
# The best fit

`umm_malloc_core` looks at the whole free list and takes the smallest block that is large enough.
No two free runs are neighbours, so whatever is clear of the table lies in one of them: a call fails
only where there is no room for it anywhere.
-/

namespace Umm

open Between List

/-- No run of a table has a block from `a` to `b`. -/
def Clear (t : List (Nat × Nat)) (a b : Nat) : Prop := ∀ q ∈ t, q.2 ≤ a ∨ b ≤ q.1

/-- All of the room between two runs of a table. -/
structure Gap (last : Nat) (t : List (Nat × Nat)) (a b : Nat) : Prop where
  low : 1 ≤ a
  lt : a < b
  high : b ≤ last
  clear : Clear t a b
  most : ∀ a' b', 1 ≤ a' → a' ≤ a → b ≤ b' → b' ≤ last → Clear t a' b' → a' = a ∧ b' = b

theorem blocks_pos {size : Nat} : 0 < blocks size := by
  unfold blocks INT16_MAX
  split
  · decide
  · dsimp only
    split <;> omega

namespace Heap

variable {h h' : Heap} {bs fs xs ys : List Nat} {t : List (Nat × Nat)} {a b c k : Nat}

/-! ## What is clear of the table -/

theorem Repr.cover (hh : h.Repr bs fs) (ha : 1 ≤ a) (hlt : a < h.last) :
    ∃ xs x ys, bs = xs ++ x :: ys ∧ x ≤ a ∧ a < behind h.last ys := by
  have hfirst := hh.first
  have hsorted := hh.chain.sorted
  generalize h.last = e at *
  suffices hmain : ∀ bs : List Nat, behind e bs ≤ a →
      ∃ xs x ys, bs = xs ++ x :: ys ∧ x ≤ a ∧ a < behind e ys from hmain bs (hfirst ▸ ha)
  intro bs
  induction bs with
  | nil => exact fun hle => absurd hlt (Nat.not_lt.mpr hle)
  | cons x l ih =>
    intro hle
    rcases Nat.lt_or_ge a (behind e l) with hnext | hnext
    · exact ⟨[], x, l, rfl, hle, hnext⟩
    · obtain ⟨xs, y, ys, rfl, hrest⟩ := ih hnext
      exact ⟨x :: xs, y, ys, rfl, hrest⟩

/-- **What is clear of the table lies in one free run.** -/
theorem Shape.clear (hs : h.Shape t bs fs) (hc : Clear t a b) (ha : 1 ≤ a) (hab : a < b)
    (hb : b ≤ h.last) :
    ∃ xs x ys, bs = xs ++ x :: ys ∧ x ∈ fs ∧ x ≤ a ∧ b ≤ behind h.last ys := by
  obtain ⟨xs, x, ys, rfl, hxa, hay⟩ := hs.repr.cover ha (hab.trans_le hb)
  have hused : ∀ q, q ∈ used h.last fs (xs ++ x :: ys) → q.2 ≤ a ∨ b ≤ q.1 :=
    fun q hq => hc q (hs.table.mem_iff.mpr hq)
  have hx : x ∈ fs := by
    by_contra hnot
    have hside := hused (x, behind h.last ys) (mem_used.mpr ⟨xs, ys, rfl, hnot, rfl⟩)
    dsimp only at hside
    omega
  refine ⟨xs, x, ys, rfl, hx, hxa, Nat.not_lt.mp fun hyb => ?_⟩
  cases ys with
  | nil => exact absurd hyb (Nat.not_lt.mpr hb)
  | cons y zs =>
    have hy : y ∉ fs := (linked_append.mp hs.apart).2.2.1 hx
    have hside := hused (y, behind h.last zs) (mem_used.mpr ⟨xs ++ [x], zs, by simp, hy, rfl⟩)
    have hlt := (@Chain.places h _ _ (xs ++ [x]) zs [] y (by simpa using hs.repr.chain)).2.2.2.1
    rw [behind_cons] at hay hyb
    dsimp only at hside
    omega

theorem Chain.order {F : Nat → Prop} [DecidablePred F] (hc : h.Chain F (xs ++ a :: ys))
    (hmem : b ∈ xs ++ a :: ys) (hlt : a < b) : behind h.last ys ≤ b := by
  obtain ⟨hxs, -, hys, -, -⟩ := @Chain.places h F _ xs ys [] a hc
  refine hys b (mem_append_left _ ?_)
  rcases mem_append.mp hmem with hmem | hmem
  · have hlow := hxs b (mem_cons_of_mem 0 hmem)
    omega
  · exact (mem_cons.mp hmem).resolve_left hlt.ne'

theorem Shape.clear_free (hs : h.Shape t (xs ++ c :: ys) fs) (hc : c ∈ fs) :
    Clear t c (behind h.last ys) := by
  intro q hq
  obtain ⟨us, vs, heq, hnot, hend⟩ := mem_used.mp (hs.table.mem_iff.mp hq)
  have hchain := hs.repr.chain
  have hne : q.1 ≠ c := fun he => hnot (he ▸ hc)
  rcases Nat.lt_or_gt_of_ne hne with hlt | hlt
  · have hin : c ∈ us ++ q.1 :: vs := heq ▸ mem_append_cons_self
    exact Or.inl (hend ▸ Chain.order (heq ▸ hchain) hin hlt)
  · exact Or.inr (hchain.order (heq ▸ mem_append_cons_self) hlt)

theorem Shape.gap_iff (hs : h.Shape t bs fs) :
    Gap h.last t a b ↔ ∃ xs ys, bs = xs ++ a :: ys ∧ a ∈ fs ∧ b = behind h.last ys := by
  constructor
  · intro hg
    obtain ⟨xs, x, ys, rfl, hx, hxa, hby⟩ := hs.clear hg.clear hg.low hg.lt hg.high
    have hplaces := @Chain.places h _ _ xs ys [] x hs.repr.chain
    have hpos := hplaces.1 0 mem_cons_self
    obtain ⟨rfl, hb⟩ := hg.most x _ hpos hxa hby hplaces.2.2.2.2 (hs.clear_free hx)
    exact ⟨xs, ys, rfl, hx, hb.symm⟩
  · rintro ⟨xs, ys, rfl, ha, rfl⟩
    have hplaces := @Chain.places h _ _ xs ys [] a hs.repr.chain
    refine ⟨hplaces.1 0 mem_cons_self, hplaces.2.2.2.1, hplaces.2.2.2.2, hs.clear_free ha, ?_⟩
    intro a' b' hpos haa hbb hb' hc
    obtain ⟨us, x, vs, heq, hx, hxa, hbv⟩ := hs.clear hc hpos (by omega) hb'
    have hchain := hs.repr.chain
    have heqx : x = a := by
      refine (hxa.trans haa).antisymm (Nat.not_lt.mp fun hlt => ?_)
      have hin : a ∈ us ++ x :: vs := heq ▸ mem_append_cons_self
      have hle := Chain.order (heq ▸ hchain) hin hlt
      omega
    subst heqx
    have hends := hchain.reads.2.1.symm.trans (Chain.reads (heq ▸ hchain)).2.1
    omega

/-! ## The search -/

/-- The blocks that a free run has. -/
def size (h : Heap) (b : Nat) : Nat := span b (h.nextBlock b)

/-- What the search knows of the blocks it has seen. -/
structure Best (h : Heap) (k : Nat) (seen : List Nat) (s : Scan) : Prop where
  none : s.bestSize = 0x7FFF → ∀ b ∈ seen, h.size b < k
  some : s.bestSize ≠ 0x7FFF → s.bestBlock ∈ seen ∧ h.size s.bestBlock = s.bestSize ∧
    k ≤ s.bestSize ∧ ∀ b ∈ seen, k ≤ h.size b → s.bestSize ≤ h.size b
  seen : s.blockSize = 0 ∨ ∃ b ∈ seen, h.size b = s.blockSize

theorem look_cf {s : Scan} : (h.look k s).cf = h.get .NFREE s.cf := by
  unfold Heap.look
  dsimp only
  split <;> rfl

theorem Best.look {seen : List Nat} {s : Scan} (hb : Best h k seen s)
    (hsize : h.size s.cf < 0x7FFF) : Best h k (seen ++ [s.cf]) (h.look k s) := by
  obtain ⟨hnone, hsome, -⟩ := hb
  refine ⟨?_, ?_, Or.inr ⟨s.cf, by simp, rfl⟩⟩
  · grind [Heap.look, size]
  · grind [Heap.look, size]

/-- **The search has seen the whole list** when it ends. -/
theorem Best.scan {seen rest : List Nat} {fuel : Nat} {s : Scan} (hb : Best h k seen s)
    (hl : Linked h.Rings 0 0 (seen ++ rest)) (hcf : s.cf = behind 0 rest) (hnot : 0 ∉ rest)
    (hsize : ∀ b ∈ rest, h.size b < 0x7FFF) (hfuel : rest.length ≤ fuel) :
    Best h k (seen ++ rest) (h.scan k fuel s) := by
  induction rest generalizing seen fuel s with
  | nil =>
    rw [append_nil]
    rw [behind_nil] at hcf
    cases fuel with
    | zero => exact hb
    | succ fuel =>
      rw [Heap.scan, if_pos hcf]
      exact hb
  | cons b rest ih =>
    cases fuel with
    | zero => exact absurd hfuel (Nat.not_succ_le_zero _)
    | succ fuel =>
      rw [behind_cons] at hcf
      have hne : s.cf ≠ 0 := fun hzero => hnot (hcf ▸ hzero ▸ mem_cons_self)
      rw [Heap.scan, if_neg hne]
      have hnext : h.get .NFREE b = behind 0 rest := (linked_append.mp hl).2.2.first.next
      have hlook := hb.look (hcf ▸ hsize b mem_cons_self)
      rw [append_cons seen b] at hl ⊢
      exact ih (hcf ▸ hlook) hl (by rw [look_cf, hcf, hnext])
        (fun hmem => hnot (mem_cons_of_mem b hmem)) (fun b' hb' => hsize b' (mem_cons_of_mem b hb'))
        (Nat.le_of_succ_le_succ hfuel)

theorem Repr.size_eq (hh : h.Repr (xs ++ c :: ys) fs) :
    h.size c = behind h.last ys - c ∧ h.size c < 0x7FFF := by
  have hplaces := @Chain.places h _ _ xs ys [] c hh.chain
  have hpos := hplaces.1 0 mem_cons_self
  have hroom := hh.chain.room
  have hsize : h.size c = behind h.last ys - c := by
    rw [size, hh.chain.reads.2.1, span_of_le hplaces.2.2.2.1.le (by omega)]
  exact ⟨hsize, by omega⟩

/-- There are no more of the runs than blocks. -/
theorem length_le_last {l : List Nat} (hnodup : l.Nodup) (hlt : ∀ b ∈ l, b < h.last) :
    l.length ≤ h.last := by
  have hsub : l ⊆ range h.last := fun b hb => mem_range.mpr (hlt b hb)
  have hlen := (subperm_of_subset hnodup hsub).length_le
  rwa [length_range] at hlen

theorem Repr.lengths (hh : h.Repr bs fs) : bs.length ≤ h.last ∧ fs.length ≤ h.last := by
  have hsorted := (pairwise_cons.mp hh.chain.sorted).2
  refine ⟨length_le_last (nodup_cons.mp hh.chain.nodups.1).2 fun b hb => ?_,
    length_le_last (nodup_cons.mp hh.ring.nodup).2 fun b hb => hh.lt (mem_cons_of_mem 0 hb)⟩
  exact (pairwise_append.mp hsorted).2.2 b hb _ (mem_singleton_self _)

theorem Repr.searched (hh : h.Repr bs fs) :
    Best h k fs (h.scan k h.numblocks ⟨h.get .NFREE 0, h.get .NFREE 0, 0x7FFF, 0⟩) := by
  obtain ⟨hzero, hnodup⟩ := nodup_cons.mp hh.ring.nodup
  have hlen := hh.lengths.2.trans (Nat.sub_le _ _)
  have hstart : Best h k [] ⟨h.get .NFREE 0, h.get .NFREE 0, 0x7FFF, 0⟩ :=
    ⟨fun _ _ hb => (not_mem_nil hb).elim, fun hne => absurd rfl hne, Or.inl rfl⟩
  refine hstart.scan hh.ring.linked hh.ring.linked.first.next hzero (fun b hb => ?_) hlen
  obtain ⟨xs, ys, rfl⟩ := append_of_mem (hh.sub b hb)
  exact hh.size_eq.2

/-- The block that is taken, or that none is large enough. -/
theorem Repr.picked (hh : h.Repr bs fs) (n : Nat) (hk : 0 < blocks n) :
    (h.mallocCore n = (none, { h with oom_count := (h.oom_count + 1) % 2 ^ 32 }) ∧
      ∀ b ∈ fs, h.size b < blocks n) ∨
    ∃ c ∈ fs, blocks n ≤ h.size c ∧ (∀ b ∈ fs, blocks n ≤ h.size b → h.size c ≤ h.size b) ∧
      h.mallocCore n = (some (data c), (if h.size c = blocks n then h.disconnect c
        else h.carve c (blocks n)).freeBlocksUpdate (-blocks n)) := by
  obtain ⟨hnone, hsome, hseen⟩ := @Repr.searched h bs fs (blocks n) hh
  generalize hs : h.scan (blocks n) h.numblocks ⟨h.get .NFREE 0, h.get .NFREE 0, 0x7FFF, 0⟩ = s
    at hnone hsome hseen
  by_cases hbest : s.bestSize = 0x7FFF
  · have hsmall : s.blockSize < blocks n := by
      rcases hseen with hzero | ⟨b, hb, heq⟩
      · omega
      · exact heq ▸ hnone hbest b hb
    refine Or.inl ⟨?_, hnone hbest⟩
    simp only [mallocCore, hs, hbest, ne_eq, not_true_eq_false, if_false]
    exact if_neg fun hand => Nat.not_le.mpr hsmall hand.2
  · obtain ⟨hmem, hsize, hle, hleast⟩ := hsome hbest
    refine Or.inr ⟨s.bestBlock, hmem, hsize ▸ hle, hsize ▸ hleast, ?_⟩
    obtain ⟨xs, ys, rfl⟩ := append_of_mem (hh.sub _ hmem)
    have hnext : h.nextBlock s.bestBlock ≠ 0 := by
      rw [hh.chain.reads.2.1]
      have hlt := hh.chain.adjoins.1.lt
      omega
    simp only [mallocCore, hs, hbest, ne_eq, not_false_eq_true, if_true, hsize]
    exact if_pos ⟨hnext, hle⟩

/-- What the front of a free run being taken makes of the heap. -/
theorem Shape.taken (hs : h.Shape t (xs ++ c :: ys) fs) (hc : c ∈ fs) (hk : 0 < k)
    (hle : k ≤ h.size c) :
    ∃ bs' fs', Turns h (xs ++ c :: ys) fs
        (if h.size c = k then h.disconnect c else h.carve c k) bs' fs' ∧
      Apart h.last fs' bs' ∧ ((c, c + k) :: t).Perm (used h.last fs' bs') := by
  obtain ⟨hxs, -, -, hlt, hend⟩ := @Chain.places h _ _ xs ys [] c hs.repr.chain
  obtain ⟨hsize, -⟩ := hs.repr.size_eq
  obtain ⟨l, r, rfl⟩ := append_of_mem hc
  have hnodup := hs.repr.ring.nodup
  have htable := hs.table
  rw [used_append, used_cons_of_mem hc, behind_cons] at htable
  split
  · have hend : c + k = behind h.last ys := by omega
    have hnot : c ∉ l ++ r := by grind
    refine ⟨_, _, hs.repr.disconnect, ?_, (htable.cons _).trans (.trans ?_ (used_run hnot).symm)⟩
    · refine @Chain.apart_exchange h _ xs [c] [c] ys _ hs.repr.chain hs.apart
        ⟨fun _ => hnot, fun hin => absurd hin hnot⟩ (by grind)
    · have hused := @Chain.used_beside h _ xs ys c [] (l ++ r) c h.last hs.repr.chain (by grind)
      rw [hend, hused.1, hused.2]
  · have hin : c + k < behind h.last ys := by omega
    have hfresh := hs.repr.chain.fresh hk hin
    have hnot : c ∉ l ++ (c + k) :: r := by grind
    have hother : ∀ b ∈ xs ++ ys, b ≠ c ∧ b ≠ c + k := by
      have hruns := hs.repr.chain.nodups.1
      grind
    refine ⟨_, _, hs.repr.carve hk hin, ?_, (htable.cons _).trans (.trans ?_ (used_run hnot).symm)⟩
    · refine @Chain.apart_exchange h _ xs [c] [c, c + k] ys _ hs.repr.chain hs.apart
        ⟨fun _ => hnot, fun hin => absurd hin hnot, fun _ => ?_⟩ ?_
      · have hapart := (linked_append.mp hs.apart).2.2.first hc
        have hne : behind h.last ys ≠ c := hlt.ne'
        grind
      · have hzero := hxs 0 mem_cons_self
        have hne : h.last ≠ c ∧ h.last ≠ c + k := by omega
        grind
    · have hused := @Chain.used_beside h _ xs ys c [] (l ++ (c + k) :: r) c h.last hs.repr.chain
        (by grind)
      rw [behind_cons, used_cons_of_mem mem_append_cons_self, hused.1, hused.2]

/-- **A call takes the front of the smallest gap** it fits into, or there is none. -/
theorem Table.malloc (hs : h.Table t) (n : Nat) :
    (h.mallocCore n = (none, { h with oom_count := (h.oom_count + 1) % 2 ^ 32 }) ∧
      ∀ a, 1 ≤ a → a + blocks n ≤ h.last → ¬Clear t a (a + blocks n)) ∨
    ∃ c e h', h.mallocCore n = (some (data c), h') ∧ Gap h.last t c e ∧ c + blocks n ≤ e ∧
      (∀ a b, Gap h.last t a b → a + blocks n ≤ b → e - c ≤ b - a) ∧
      h'.Table ((c, c + blocks n) :: t) ∧ Keeps t h h' := by
  obtain ⟨bs, fs, hs⟩ := hs
  have hk := @blocks_pos n
  rcases hs.repr.picked n hk with ⟨heq, hsmall⟩ | ⟨c, hc, hle, hleast, heq⟩
  · refine Or.inl ⟨heq, fun a ha hend hclear => ?_⟩
    obtain ⟨xs, x, ys, rfl, hx, hxa, hay⟩ := hs.clear hclear ha (by omega) hend
    have hlt := hsmall x hx
    rw [hs.repr.size_eq.1] at hlt
    omega
  · obtain ⟨xs, ys, rfl⟩ := append_of_mem (hs.repr.sub c hc)
    obtain ⟨bs', fs', hturns, hapart, hperm⟩ := hs.taken hc hk hle
    have hsize := hs.repr.size_eq.1
    refine Or.inr ⟨c, behind h.last ys, _, heq, hs.gap_iff.mpr ⟨xs, ys, rfl, hc, rfl⟩, by omega,
      fun a b hg hab => ?_, ⟨bs', fs', hturns.repr.update, ?_, ?_, ?_⟩, ?_⟩
    · obtain ⟨us, vs, hsame, ha, rfl⟩ := hs.gap_iff.mp hg
      have hb := (Repr.size_eq (hsame ▸ hs.repr)).1
      have hsmall := hleast a ha (by omega)
      omega
    · exact hturns.last ▸ hapart
    · exact hturns.last ▸ hperm
    · have hle' := Shape.total_le hturns.repr (hturns.last ▸ hperm)
      refine count_update (t := t) ?_ hle' hturns.repr.chain.room ?_
      · rw [hturns.count, hturns.last, hs.count]
      · simp only [total, map_cons, sum_cons]
        omega
    · exact (hturns.keeps hs.repr (fun q hq => hs.table.mem_iff.mp hq)
        fun q hq => hperm.mem_iff.mp (mem_cons_of_mem _ hq)).update

end Heap

end Umm
