import RalioFirmware.Umm.BestFit

/-!
# Another size

`umm_realloc` takes the room in front of a run first, then what is behind it, and only then another
run.  Whichever it is, what the run held is moved before anything can be written over it.
-/

namespace Umm

open Between List

namespace Heap

variable {h h' : Heap} {bs fs xs ys : List Nat} {t t' : List (Nat × Nat)} {c k m n : Nat}

theorem Table.perm (hs : h.Table t) (hp : t'.Perm t) : h.Table t' := by
  obtain ⟨bs, fs, hs⟩ := hs
  exact ⟨bs, fs, hs.repr, hs.apart, hp.trans hs.table, total_perm hp ▸ hs.count⟩

theorem Table.bounds (hs : h.Table ((c, n) :: t)) :
    1 ≤ c ∧ c < n ∧ n ≤ h.last ∧ h.last < 32768 ∧ h.get .NBLOCK c = n := by
  obtain ⟨bs, fs, hs⟩ := hs
  obtain ⟨xs, ys, rfl, rfl, hc, -⟩ := hs.run
  obtain ⟨hxs, -, -, hlt, hle⟩ := @Chain.places h _ _ xs ys [] c hs.repr.chain
  have hnext := hs.repr.chain.reads.1
  rw [tag_neg hc, Nat.add_zero] at hnext
  exact ⟨hxs 0 mem_cons_self, hlt, hle, hs.repr.chain.room, hnext⟩

/-- **No two runs of a table overlap.** -/
theorem Table.disjoint (hs : h.Table t) : t.Pairwise (fun p q => p.2 ≤ q.1 ∨ q.2 ≤ p.1) := by
  obtain ⟨bs, fs, hs⟩ := hs
  have hused := (@used_pairwise h.last fs bs (pairwise_cons.mp hs.repr.chain.sorted).2).1
  exact (hs.table.pairwise_iff Or.symm).mpr (hused.imp Or.inl)

/-! ## What a run holds is written -/

theorem Repr.rewrite (hh : h.Repr bs fs) (hlast : h'.last = h.last)
    (hsame : ∀ f a, Links h.last bs fs f a → h'.get f a = h.get f a) : h'.Repr bs fs := by
  have hchain : ∀ f a, f ≠ .NFREE → f ≠ .PFREE → a ∈ 0 :: (bs ++ [h.last]) →
      h'.get f a = h.get f a := fun f a hf hf' ha => hsame f a ⟨ha, by simp [hf, hf']⟩
  have hring : ∀ f, ∀ a ∈ 0 :: fs, h'.get f a = h.get f a := fun f a ha =>
    hsame f a ⟨by have hin := hh.sub a; grind, fun _ => ha⟩
  refine ⟨⟨?_, ?_, hlast ▸ hh.chain.room⟩, hlast ▸ hh.first, ⟨?_, hh.ring.nodup⟩, hh.sub⟩
  · rw [hlast]
    refine hh.chain.linked.imp fun a ha b hb hab => ⟨hab.lt, ?_, ?_⟩
    · rw [hchain _ a (by decide) (by decide) (by grind), hab.next]
    · rw [hchain _ b (by decide) (by decide) (by grind), hab.prev]
  · rw [hlast, hchain _ _ (by decide) (by decide) (by grind), hh.chain.ends]
  · refine hh.ring.linked.imp fun a ha b hb hab => ⟨?_, ?_⟩
    · rw [hring _ a ha, hab.next]
    · rw [hring _ b (by grind), hab.prev]

theorem place_inside {q : Nat × Nat} {f : Field} {a : Nat} :
    Inside q f a ↔ data q.1 / 2 ≤ 4 * a + f.place ∧ 4 * a + f.place < 4 * q.2 := by
  unfold Inside data
  cases f <;> simp [Field.place] <;> omega

/-- **What one run holds is written**, and nothing else. -/
theorem Table.write (hs : h.Table ((c, n) :: t)) (hnum : h'.numblocks = h.numblocks)
    (hcount : h'.free_blocks = h.free_blocks)
    (hout : ∀ i, i < data c / 2 ∨ 4 * n ≤ i → h'.mem i = h.mem i) :
    h'.Table ((c, n) :: t) ∧ Keeps t h h' := by
  have hdisjoint := (pairwise_cons.mp hs.disjoint).1
  obtain ⟨bs, fs, hs⟩ := hs
  have hlast : h'.last = h.last := congrArg (· - 1) hnum
  have hin : ∀ f a, ¬Inside (c, n) f a → h'.get f a = h.get f a := fun f a hnot =>
    hout _ (by rw [place_inside] at hnot; dsimp only at hnot; omega)
  refine ⟨⟨bs, fs, hs.repr.rewrite hlast fun f a hl => hin f a fun hi => ?_, hlast ▸ hs.apart,
    hlast ▸ hs.table, by rw [hcount, hlast, hs.count]⟩, hlast,
    fun q hq f a hi => hin f a fun hi' => ?_⟩
  · exact hs.repr.not_links (hs.table.mem_iff.mp mem_cons_self) hi hl
  · have hside := hdisjoint q hq
    obtain ⟨hlow, hhigh, -⟩ := hi
    obtain ⟨hlow', hhigh', -⟩ := hi'
    dsimp only at hside hlow' hhigh'
    omega

/-- What runs hold, half word by half word. -/
theorem Keeps.mem {q : Nat × Nat} {i : Nat} (hk : Keeps t h h') (hq : q ∈ t)
    (hlow : data q.1 / 2 ≤ i) (hhigh : i < 4 * q.2) : h'.mem i = h.mem i := by
  obtain ⟨f, hf⟩ : ∃ f : Field, f.place = i % 4 := by
    rcases (by omega : i % 4 = 0 ∨ i % 4 = 1 ∨ i % 4 = 2 ∨ i % 4 = 3) with hr | hr | hr | hr
    exacts [⟨.NBLOCK, hr.symm⟩, ⟨.PBLOCK, hr.symm⟩, ⟨.NFREE, hr.symm⟩, ⟨.PFREE, hr.symm⟩]
  have hi : 4 * (i / 4) + f.place = i := by omega
  have hkept := hk.held q hq f (i / 4) (place_inside.mpr (by omega))
  rwa [get, get, hi] at hkept

theorem Keeps.mem_data {i : Nat} (hk : Keeps ((c, n) :: t) h h') (hi : i < 4 * (n - c) - 2) :
    h'.mem (data c / 2 + i) = h.mem (data c / 2 + i) := by
  refine hk.mem mem_cons_self (Nat.le_add_right _ _) ?_
  unfold data
  dsimp only
  omega

/-- A run is cut to what is asked for. -/
theorem Table.settle (hs : h.Table ((c, n) :: t)) (hk : 0 < k) (hle : c + k ≤ n) :
    (if n - c > k then h.trim c k else h).Table ((c, c + k) :: t) ∧
      Keeps ((c, c + k) :: t) h (if n - c > k then h.trim c k else h) := by
  split
  · exact hs.trim hk (by omega)
  · have heq : n = c + k := by omega
    exact ⟨heq ▸ hs, rfl, fun _ _ _ _ _ => rfl⟩

/-- What a run of `n` blocks held is, in another one of `k`. -/
def Moved (h h' : Heap) (c n c' k : Nat) : Prop :=
  ∀ i < min (4 * n - 2) (4 * k - 2), h'.mem (data c' / 2 + i) = h.mem (data c / 2 + i)

theorem Moved.of_keeps {h'' : Heap} {c' : Nat} (hk : Keeps ((c', c' + k) :: t) h' h'')
    (hm : ∀ i < 4 * n - 2, h'.mem (data c' / 2 + i) = h.mem (data c / 2 + i)) :
    Moved h h'' c n c' k := by
  intro i hi
  exact (hk.mem_data (by omega)).trans (hm i (by omega))

/-- **What another run held is moved** into a run. -/
theorem Table.moved {src len : Nat} (hs : h.Table ((c, n) :: t))
    (hlen : data c / 2 + len ≤ 4 * n) :
    (h.move (data c / 2) src len).Table ((c, n) :: t) ∧ Keeps t h (h.move (data c / 2) src len) ∧
      ∀ i < len, (h.move (data c / 2) src len).mem (data c / 2 + i) = h.mem (src + i) := by
  obtain ⟨htable, hkeep⟩ :=
    @Table.write h (h.move (data c / 2) src len) t c n hs rfl rfl fun i hi => if_neg (by omega)
  refine ⟨htable, hkeep, fun i hi => ?_⟩
  have hin : data c / 2 ≤ data c / 2 + i ∧ data c / 2 + i < data c / 2 + len := by omega
  simp only [move, if_pos hin, Nat.add_sub_cancel_left]

/-- **A call for another size** leaves what the run holds, as much as fits, to its caller. -/
theorem Table.realloc (hs : h.Table ((c, n) :: t)) (size : Nat) :
    (∃ c' h', h.reallocCore (data c) size = (some (data c'), h') ∧
      h'.Table ((c', c' + blocks size) :: t) ∧ Keeps t h h' ∧
      Moved h h' c (n - c) c' (blocks size)) ∨
    (h.reallocCore (data c) size = (none, { h with oom_count := (h.oom_count + 1) % 2 ^ 32 }) ∧
      n - c < blocks size ∧
      ∀ a, 1 ≤ a → a + blocks size ≤ h.last → ¬Clear ((c, n) :: t) a (a + blocks size)) := by
  obtain ⟨hpos, hlt, hle, hroom, hnext⟩ := hs.bounds
  have hk := @blocks_pos size
  have hspan := span_of_le hlt.le (by omega : n < 65536)
  have hsub : ∀ q ∈ t, q ∈ (c, n) :: t := fun q hq => mem_cons_of_mem _ hq
  unfold reallocCore
  simp only [blockOf_data, hnext, hspan]
  generalize hp : h.get .PBLOCK c = p
  generalize he : (if h.isFree n then span n (h.nextBlock n) else 0) = e
  generalize hv : (if h.isFree p then span p c else 0) = v
  split
  · rename_i hfit
    have hfree : h.isFree p := by
      by_contra hnot
      exact hfit.1 (hv.symm.trans (if_neg hnot))
    obtain ⟨hback, hpc, hdown, hkeep, hsame⟩ := hs.down hp hfree
    rw [if_pos hfree, span_of_le hpc.le (by omega)] at hv
    have hsame' : (((h.disconnect p).assimilateDown c 0).1.freeBlocksUpdate (-v)).get .NBLOCK n =
        h.get .NBLOCK n := hsame n (by omega)
    rw [hback]
    rw [hv] at hdown hkeep
    generalize ((h.disconnect p).assimilateDown c 0).1.freeBlocksUpdate (-v) = h₁ at *
    have hheld : ∀ i < 4 * (n - c) - 2, h₁.mem (data c / 2 + i) = h.mem (data c / 2 + i) :=
      fun i hi => hkeep.mem_data hi
    split
    · obtain ⟨hmoved, hkeep₁, hmem⟩ := @Table.moved _ _ _ _ (data c / 2) ((n - c) * 4 - 2) hdown
        (by unfold data; omega)
      obtain ⟨hsettled, hkeep₂⟩ := hmoved.settle hk (by omega : p + blocks size ≤ n)
      rw [show n - p = n - c + v by omega] at hsettled hkeep₂
      exact Or.inl ⟨p, _, rfl, hsettled, ((hkeep.sub hsub).trans hkeep₁).trans
        (hkeep₂.sub fun q hq => mem_cons_of_mem _ hq), Moved.of_keeps hkeep₂ fun i hi =>
          (hmem i (by omega)).trans (hheld i hi)⟩
    · have he₁ : e = if h₁.isFree n then span n (h₁.nextBlock n) else 0 := by
        simp only [isFree, nextBlock, hsame'] at he ⊢
        exact he.symm
      obtain ⟨hgrown, hkeep₁⟩ := hdown.grow e he₁
      obtain ⟨hsettled, hkeep₂⟩ := hgrown.settle hk (by omega : p + blocks size ≤ n + e)
      rw [show n + e - p = n - c + v + e by omega] at hsettled hkeep₂
      obtain ⟨hmoved, hkeep₃, hmem⟩ := @Table.moved _ _ _ _ (data c / 2) ((n - c) * 4 - 2) hsettled
        (by unfold data; omega)
      refine Or.inl ⟨p, _, by rw [if_neg (Nat.lt_irrefl _)], hmoved,
        (((hkeep.sub hsub).trans (hkeep₁.sub fun q hq => mem_cons_of_mem _ hq)).trans
          (hkeep₂.sub fun q hq => mem_cons_of_mem _ hq)).trans hkeep₃, fun i hi => ?_⟩
      have hlow : data p / 2 ≤ data c / 2 + i ∧ data c / 2 + i < 4 * n ∧ n < p + blocks size := by
        unfold data
        omega
      have hmem₁ := @Keeps.mem _ _ _ _ (data c / 2 + i) hkeep₁ mem_cons_self hlow.1 hlow.2.1
      have hmem₂ := @Keeps.mem _ _ _ _ (data c / 2 + i) hkeep₂ mem_cons_self hlow.1 (by
        dsimp only
        omega)
      rw [hmem i (by omega), hmem₂, hmem₁, hheld i (by omega)]
  split
  · obtain ⟨hsettled, hkeep⟩ := hs.settle hk (by omega : c + blocks size ≤ n)
    exact Or.inl ⟨c, _, rfl, hsettled, hkeep.sub fun q hq => mem_cons_of_mem _ hq,
      Moved.of_keeps hkeep fun _ _ => rfl⟩
  split
  · obtain ⟨hgrown, hkeep⟩ := hs.grow e he.symm
    obtain ⟨hsettled, hkeep'⟩ := hgrown.settle hk (by omega : c + blocks size ≤ n + e)
    rw [show n + e - c = n - c + e by omega] at hsettled hkeep'
    refine Or.inl ⟨c, _, rfl, hsettled, (hkeep.sub hsub).trans (hkeep'.sub fun q hq =>
      mem_cons_of_mem _ hq), Moved.of_keeps hkeep' fun i hi => ?_⟩
    exact hkeep.mem_data hi
  · rename_i hgrow
    rcases hs.malloc size with ⟨heq, hno⟩ | ⟨c', e', h₁, heq, -, -, -, htable, hkeep⟩
    · rw [heq]
      exact Or.inr ⟨rfl, by omega, hno⟩
    · rw [heq]
      dsimp only
      obtain ⟨hmoved, hkeep₁, hmem⟩ := @Table.moved _ _ _ _ (data c / 2) ((n - c) * 4 - 2) htable
        (by unfold data; omega)
      obtain ⟨hfreed, hkeep₂⟩ := Table.free (hmoved.perm (Perm.swap ..))
      refine Or.inl ⟨c', _, rfl, hfreed, ((hkeep.trans hkeep₁).sub hsub).trans
        (hkeep₂.sub fun q hq => mem_cons_of_mem _ hq), Moved.of_keeps hkeep₂ fun i hi => ?_⟩
      exact (hmem i (by omega)).trans (hkeep.mem_data hi)

end Heap

end Umm
