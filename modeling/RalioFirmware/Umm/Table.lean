import RalioFirmware.Umm.Blocks

/-!
# The table of allocations

What of a heap matters to its callers: the runs that are in use, from their first block to the one
behind them.  Each call changes the table by one run at most, and what the other runs hold is left
alone.
-/

namespace Umm

open Between List

/-- The runs of a list that are in use. -/
def used (e : Nat) (fs : List Nat) : List Nat → List (Nat × Nat)
  | [] => []
  | x :: l => if x ∈ fs then used e fs l else (x, behind e l) :: used e fs l

/-- The blocks of some runs. -/
def total (t : List (Nat × Nat)) : Nat := (t.map fun q => q.2 - q.1).sum

/-- Of two neighbours one is in use. -/
def Apart (e : Nat) (fs bs : List Nat) : Prop := Linked (fun a b => a ∈ fs → b ∉ fs) e 0 bs

section

variable {e c : Nat} {fs gs bs l m xs ys : List Nat} {q : Nat × Nat} {t t' : List (Nat × Nat)}

theorem used_append : used e fs (l ++ m) = used (behind e m) fs l ++ used e fs m := by
  induction l with
  | nil => rfl
  | cons x l ih =>
    by_cases hx : x ∈ fs
    · simp [used, hx, ih]
    · simp [used, hx, ih]

theorem used_cons_of_mem (h : c ∈ fs) : used e fs (c :: l) = used e fs l := if_pos h

theorem used_cons_of_not (h : c ∉ fs) : used e fs (c :: l) = (c, behind e l) :: used e fs l :=
  if_neg h

theorem used_congr (h : ∀ b ∈ l, b ∈ fs ↔ b ∈ gs) : used e fs l = used e gs l := by
  induction l with
  | nil => rfl
  | cons x l ih =>
    simp only [used, h x mem_cons_self, ih fun b hb => h b (mem_cons_of_mem x hb)]

theorem mem_used : q ∈ used e fs bs ↔
    ∃ xs ys, bs = xs ++ q.1 :: ys ∧ q.1 ∉ fs ∧ q.2 = behind e ys := by
  constructor
  · intro hq
    induction bs with
    | nil => cases hq
    | cons x l ih =>
      have hcases : q = (x, behind e l) ∧ x ∉ fs ∨ q ∈ used e fs l := by
        rw [used] at hq
        grind
      rcases hcases with ⟨rfl, hx⟩ | hq
      · exact ⟨[], l, rfl, hx, rfl⟩
      · obtain ⟨xs, ys, rfl, hrest⟩ := ih hq
        exact ⟨x :: xs, ys, rfl, hrest⟩
  · rintro ⟨xs, ys, rfl, hnot, hend⟩
    rw [used_append, used_cons_of_not hnot, ← hend]
    exact mem_append_right _ mem_cons_self

theorem used_run (h : c ∉ fs) :
    (used e fs (xs ++ c :: ys)).Perm ((c, behind e ys) :: (used c fs xs ++ used e fs ys)) := by
  rw [used_append, used_cons_of_not h]
  exact perm_middle

theorem total_used (h : (bs ++ [e]).Pairwise (· < ·)) :
    total (used e fs bs) + behind e bs ≤ e := by
  induction bs with
  | nil => exact (Nat.zero_add e).le
  | cons x l ih =>
    obtain ⟨hx, hl⟩ := pairwise_cons.mp h
    have hrest := ih hl
    have hlt := hx _ behind_mem
    rw [used]
    split
    · simp only [behind_cons]
      omega
    · simp only [total, map_cons, sum_cons, behind_cons] at hrest ⊢
      omega

/-- No run reaches into another. -/
theorem used_pairwise (h : (bs ++ [e]).Pairwise (· < ·)) :
    (used e fs bs).Pairwise (fun p q => p.2 ≤ q.1) ∧ ∀ q ∈ used e fs bs, behind e bs ≤ q.1 := by
  induction bs with
  | nil => exact ⟨Pairwise.nil, fun q hq => (not_mem_nil hq).elim⟩
  | cons x l ih =>
    obtain ⟨hx, hl⟩ := pairwise_cons.mp h
    obtain ⟨hpair, hlow⟩ := ih hl
    have hlt : x < behind e l := hx _ behind_mem
    rw [used, behind_cons]
    split
    · exact ⟨hpair, fun q hq => hlt.le.trans (hlow q hq)⟩
    · refine ⟨pairwise_cons.mpr ⟨hlow, hpair⟩, fun q hq => ?_⟩
      rcases mem_cons.mp hq with rfl | hq
      · exact Nat.le_refl _
      · exact hlt.le.trans (hlow q hq)

theorem total_perm (h : t.Perm t') : total t = total t' := (h.map _).sum_nat

end

namespace Heap

variable {h h' : Heap} {bs fs bs' fs' xs ys : List Nat} {t t' : List (Nat × Nat)} {c k n : Nat}

/-- A number that a run holds: it is not in the header. -/
def Inside (q : Nat × Nat) (f : Field) (a : Nat) : Prop :=
  q.1 ≤ a ∧ a < q.2 ∧ (a = q.1 → f = .NFREE ∨ f = .PFREE)

/-- What the runs of a table hold is the same in two heaps of one size. -/
structure Keeps (t : List (Nat × Nat)) (h h' : Heap) : Prop where
  last : h'.last = h.last
  held : ∀ q ∈ t, ∀ f a, Inside q f a → h'.get f a = h.get f a

/-- The heap is in order, and the runs in use are those of the table. -/
structure Shape (h : Heap) (t : List (Nat × Nat)) (bs fs : List Nat) : Prop where
  repr : h.Repr bs fs
  apart : Apart h.last fs bs
  table : t.Perm (used h.last fs bs)
  count : h.free_blocks + total t + 1 = h.last

def Table (h : Heap) (t : List (Nat × Nat)) : Prop := ∃ bs fs, h.Shape t bs fs

theorem Repr.not_links {q : Nat × Nat} {f : Field} {a : Nat} (hh : h.Repr bs fs)
    (hq : q ∈ used h.last fs bs) (hin : Inside q f a) : ¬Links h.last bs fs f a := by
  obtain ⟨xs, ys, rfl, hnot, hend⟩ := mem_used.mp hq
  obtain ⟨hxs, -, hys, hlt, -⟩ := @Chain.places h _ _ xs ys [] q.1 hh.chain
  rintro ⟨hmem, hfree⟩
  obtain ⟨hle, hlt', hfirst⟩ := hin
  have hhead : a = q.1 := by
    have hside : a ∈ 0 :: xs ∨ a = q.1 ∨ a ∈ ys ++ [h.last] := by grind
    rcases hside with hmem | hhead | hmem
    · exact absurd (hxs a hmem) (by omega)
    · exact hhead
    · exact absurd (hys a hmem) (by omega)
  have hpos := hxs 0 mem_cons_self
  rcases mem_cons.mp (hfree (hfirst hhead)) with rfl | hmem
  · omega
  · exact hnot (hhead ▸ hmem)

theorem Turns.keeps (ht : Turns h bs fs h' bs' fs') (hh : h.Repr bs fs)
    (hold : ∀ q ∈ t, q ∈ used h.last fs bs) (hnew : ∀ q ∈ t, q ∈ used h.last fs' bs') :
    Keeps t h h' := by
  refine ⟨ht.last, fun q hq f a hin => ?_⟩
  refine ht.kept f a (hh.not_links (hold q hq) hin) ?_
  have hlinks := ht.repr.not_links (ht.last.symm ▸ hnew q hq) hin
  rwa [ht.last] at hlinks

theorem Turns.trans {h'' : Heap} {bs'' fs'' : List Nat} (ht : Turns h bs fs h' bs' fs')
    (ht' : Turns h' bs' fs' h'' bs'' fs'')
    (hsub : ∀ f a, Links h.last bs' fs' f a → Links h.last bs fs f a) :
    Turns h bs fs h'' bs'' fs'' := by
  refine ⟨ht'.repr, ht'.last.trans ht.last, ht'.count.trans ht.count, fun f a hold hnew => ?_⟩
  have hmid := mt (hsub f a) hold
  have hkept := ht'.kept f a (ht.last ▸ hmid) (ht.last ▸ hnew)
  exact hkept.trans (ht.kept f a hold hmid)

/-- A step that makes no new links keeps what every run holds. -/
theorem Turns.keeps_of_sub (ht : Turns h bs fs h' bs' fs') (hh : h.Repr bs fs)
    (hsub : ∀ f a, Links h.last bs' fs' f a → Links h.last bs fs f a)
    (hold : ∀ q ∈ t, q ∈ used h.last fs bs) : Keeps t h h' := by
  refine ⟨ht.last, fun q hq f a hin => ?_⟩
  have hnot := hh.not_links (hold q hq) hin
  exact ht.kept f a hnot (mt (hsub f a) hnot)

theorem Keeps.trans {h'' : Heap} (hk : Keeps t h h') (hk' : Keeps t h' h'') : Keeps t h h'' :=
  ⟨hk'.last.trans hk.last, fun q hq f a hin =>
    (hk'.held q hq f a hin).trans (hk.held q hq f a hin)⟩

theorem Keeps.sub (hk : Keeps t h h') (hsub : ∀ q ∈ t', q ∈ t) : Keeps t' h h' :=
  ⟨hk.last, fun q hq => hk.held q (hsub q hq)⟩

theorem Keeps.update {d : Int} (hk : Keeps t h h') : Keeps t h (h'.freeBlocksUpdate d) :=
  ⟨hk.last, hk.held⟩

/-- A run of the table, and the rest of them. -/
theorem Shape.run (hs : h.Shape ((c, n) :: t) bs fs) :
    ∃ xs ys, bs = xs ++ c :: ys ∧ n = behind h.last ys ∧ c ∉ fs ∧
      t.Perm (used c fs xs ++ used h.last fs ys) := by
  obtain ⟨xs, ys, rfl, hnot, rfl⟩ := mem_used.mp (hs.table.mem_iff.mp mem_cons_self)
  exact ⟨xs, ys, rfl, rfl, hnot, (perm_cons _).mp (hs.table.trans (used_run hnot))⟩

theorem count_update {d : Int} (hcount : h.free_blocks + total t + 1 = h.last)
    (hle : total t' + 1 ≤ h.last) (hroom : h.last < 32768) (hd : (total t : Int) = total t' + d) :
    (h.freeBlocksUpdate d).free_blocks + total t' + 1 = h.last := by
  simp only [freeBlocksUpdate]
  omega

/-! ## The run behind is taken in -/

theorem Chain.apart_exchange {l m m' r gs : List Nat} (hc : h.Chain (· ∈ fs) (l ++ (m ++ r)))
    (ha : Apart h.last fs (l ++ (m ++ r)))
    (hmid : Linked (fun a b => a ∈ gs → b ∉ gs) (behind h.last r) (before 0 l) m')
    (hsame : ∀ b ∈ 0 :: (l ++ r ++ [h.last]), b ∉ m → (b ∈ gs ↔ b ∈ fs)) :
    Apart h.last gs (l ++ (m' ++ r)) := by
  obtain ⟨hs, he⟩ := hc.nodups
  refine Linked.splice ha hs he hmid fun a ha' _ ham b hb' _ hbm hab hfree hmem => ?_
  have ha'' := mem_append_left [h.last] ha'
  exact hab ((hsame a ha'' ham).mp hfree) ((hsame b (mem_cons_of_mem 0 hb') hbm).mp hmem)

/-- What is in use on both sides of a stretch does not depend on what is free in it. -/
theorem Chain.used_beside {m gs : List Nat} {d e : Nat}
    (hc : h.Chain (· ∈ fs) (xs ++ c :: (m ++ ys)))
    (hsame : ∀ b ∈ xs ++ ys, b ≠ c → b ∉ m → (b ∈ gs ↔ b ∈ fs)) :
    used d gs xs = used d fs xs ∧ used e gs ys = used e fs ys := by
  have hnodup := (nodup_cons.mp hc.nodups.1).2
  exact ⟨used_congr fun b hb => hsame b (mem_append_left _ hb) (by grind) (by grind),
    used_congr fun b hb => hsame b (mem_append_right _ hb) (by grind) (by grind)⟩

/-- What `umm_assimilate_up` makes of a run: nothing free is left behind it. -/
structure Joined (h : Heap) (xs ys fs : List Nat) (c : Nat) (h' : Heap) (zs gs : List Nat) :
    Prop where
  turns : Turns h (xs ++ c :: ys) fs h' (xs ++ c :: zs) gs
  not_mem : c ∉ gs
  next : behind h.last zs ∉ gs
  apart : Apart h.last gs (xs ++ c :: zs)
  used_front : used c gs xs = used c fs xs
  used_back : used h.last gs zs = used h.last fs ys
  sub : ∀ f a, Links h.last (xs ++ c :: zs) gs f a → Links h.last (xs ++ c :: ys) fs f a

theorem Joined.used_run {zs gs : List Nat} (hj : Joined h xs ys fs c h' zs gs) :
    (used h.last gs (xs ++ c :: zs)).Perm
      ((c, behind h.last zs) :: (used c fs xs ++ used h.last fs ys)) := by
  have hperm := @Umm.used_run h.last c gs xs zs hj.not_mem
  rwa [hj.used_front, hj.used_back] at hperm

theorem Repr.joined (hh : h.Repr (xs ++ c :: ys) fs) (hc : c ∉ fs)
    (ha : Apart h.last fs (xs ++ c :: ys)) :
    ∃ zs gs, Joined h xs ys fs c (h.assimilateUp c) zs gs ∧
      behind h.last zs = behind h.last ys + if h.isFree (behind h.last ys) then
        span (behind h.last ys) (h.nextBlock (behind h.last ys)) else 0 := by
  have hfree := hh.isFree_iff (b := behind h.last ys) (by
    have hmem : behind h.last ys ∈ ys ++ [h.last] := behind_mem
    grind)
  by_cases hn : behind h.last ys ∈ fs
  · cases ys with
    | nil => exact absurd (hh.lt (mem_cons_of_mem 0 hn)) (Nat.lt_irrefl _)
    | cons n zs =>
      obtain ⟨l, r, rfl⟩ := append_of_mem (show n ∈ fs from hn)
      have hturns := hh.assimilateUp hc
      have hnodup := hh.ring.nodup
      have hused := @Chain.used_beside h _ xs zs c [n] (l ++ r) c h.last hh.chain (by grind)
      obtain ⟨-, hmid, -, -, hle⟩ := @Chain.places h _ _ xs zs [n] c hh.chain
      have hcn := hmid n mem_cons_self
      have hroom := hh.chain.room
      have hchain := hh.chain
      have hfirst := (linked_append.mp ha).2.2.2.first
      rw [append_cons xs c] at hchain ha
      have hnew : c ∉ l ++ r := by grind
      refine ⟨zs, l ++ r, ⟨hturns, hnew, fun hz => hfirst hn (by grind), ?_, ?_, ?_, ?_⟩, ?_⟩
      · rw [append_cons xs c]
        refine @Chain.apart_exchange h _ (xs ++ [c]) [n] [] zs _ hchain ha ?_ (by grind)
        rw [linked_nil, before_append]
        exact fun hmem => absurd hmem hnew
      · exact hused.1
      · rw [used_cons_of_mem (show n ∈ l ++ n :: r from hn)]
        exact hused.2
      · grind [Links]
      · rw [if_pos (hfree.mpr hn), behind_cons, hchain.reads.2.1, span_of_le hcn.2.le (by omega)]
        omega
  · rw [if_neg fun hf => hn (hfree.mp hf), hh.assimilateUp_of_not hc hn]
    exact ⟨ys, fs, ⟨⟨hh, rfl, rfl, fun _ _ _ _ => rfl⟩, hc, hn, ha, rfl, rfl, fun _ _ => id⟩, rfl⟩

/-! ## A run is freed -/

theorem blockOf_data (c : Nat) : blockOf (data c) = c := by
  unfold blockOf data
  omega

theorem Repr.update {d : Int} (hh : h.Repr bs fs) : (h.freeBlocksUpdate d).Repr bs fs :=
  ⟨hh.chain.congr rfl fun _ _ _ _ => rfl, hh.first, hh.ring.congr fun _ _ _ _ => rfl, hh.sub⟩

theorem Shape.total_le (hh : h.Repr bs fs) (ht : t.Perm (used h.last fs bs)) :
    total t + 1 ≤ h.last := by
  have hle := @total_used h.last fs bs (pairwise_cons.mp hh.chain.sorted).2
  have hpos := (pairwise_cons.mp hh.chain.sorted).1 _ behind_mem
  rw [total_perm ht]
  omega

/-- A run behind which nothing is free goes to the free run in front of it, or to the free list. -/
theorem Repr.released (hh : h.Repr (xs ++ c :: ys) fs) (hc : c ∉ fs) (hn : behind h.last ys ∉ fs)
    (ha : Apart h.last fs (xs ++ c :: ys)) :
    ∃ bs' fs', Turns h (xs ++ c :: ys) fs (if h.isFree (h.get .PBLOCK c) then
        (h.assimilateDown c UMM_FREELIST_MASK).1 else h.addToFreeList c) bs' fs' ∧
      Apart h.last fs' bs' ∧ used h.last fs' bs' = used c fs xs ++ used h.last fs ys := by
  obtain ⟨hxs, -, hys, hlt, -⟩ := @Chain.places h _ _ xs ys [] c hh.chain
  have hpmem : before 0 xs ∈ 0 :: xs := before_mem
  have hfree := @Repr.isFree_iff h _ fs (before 0 xs) hh (by grind)
  have hpos := hxs 0 mem_cons_self
  rw [hh.chain.adjoins.2]
  by_cases hp : before 0 xs ∈ fs
  · rw [if_pos (hfree.mpr hp)]
    have hne : before 0 xs ≠ 0 := fun hzero => (nodup_cons.mp hh.ring.nodup).1 (hzero ▸ hp)
    obtain ⟨ws, hws⟩ := before_eq hne
    generalize before 0 xs = p at *
    subst hws
    have hchain := hh.chain
    rw [append_assoc] at hh
    have hturns := (@Repr.assimilateDown h fs ws ys c p hh hc).1
    rw [tag_pos hp] at hturns
    refine ⟨_, _, by rwa [append_assoc], ?_, ?_⟩
    · rw [append_cons ws p]
      refine @Chain.apart_exchange h fs (ws ++ [p]) [c] [] ys fs hchain ha ?_ fun b _ _ => Iff.rfl
      rw [linked_nil]
      exact fun _ => hn
    · rw [used_append, used_append, used_cons_of_mem hp, used_cons_of_mem hp]
      simp [used]
  · rw [if_neg fun hf => hp (hfree.mp hf)]
    refine ⟨_, _, hh.addToFreeList hc, ?_, ?_⟩
    · have hsame : ∀ b ∈ 0 :: (xs ++ ys ++ [h.last]), b ∉ [c] → (b ∈ c :: fs ↔ b ∈ fs) :=
        fun b _ hb => mem_cons.trans (or_iff_right fun heq => hb (mem_singleton.mpr heq))
      refine @Chain.apart_exchange h fs xs [c] [c] ys _ hh.chain ha ⟨fun hmem => ?_, fun _ => ?_⟩
        hsame
      · have hlow := hxs _ hpmem
        exact absurd ((mem_cons.mp hmem).resolve_left (by omega)) hp
      · exact fun hmem => hn ((mem_cons.mp hmem).resolve_left (by omega))
    · rw [used_append, used_cons_of_mem mem_cons_self, behind_cons]
      have hused := @Chain.used_beside h fs xs ys c [] (c :: fs) c h.last hh.chain (by grind)
      rw [hused.1, hused.2]

/-- **A run is freed**: it leaves the table. -/
theorem Table.free (hs : h.Table ((c, n) :: t)) :
    (h.freeCore (data c)).Table t ∧ Keeps t h (h.freeCore (data c)) := by
  obtain ⟨bs, fs, hs⟩ := hs
  obtain ⟨xs, ys, rfl, hn, hc, hperm⟩ := hs.run
  have hnext := hs.repr.chain.reads.1
  rw [tag_neg hc, Nat.add_zero, ← hn] at hnext
  let h₀ := h.freeBlocksUpdate ((n : Int) - c)
  obtain ⟨zs, gs, hj, -⟩ := @Repr.joined h₀ fs xs ys c hs.repr.update hc hs.apart
  obtain ⟨bs', fs', hturns, hapart, hused⟩ := hj.turns.repr.released hj.not_mem
    (by rw [hj.turns.last]; exact hj.next) (by rw [hj.turns.last]; exact hj.apart)
  have hfree : h.freeCore (data c) =
      if (h₀.assimilateUp c).isFree ((h₀.assimilateUp c).get .PBLOCK c) then
        ((h₀.assimilateUp c).assimilateDown c UMM_FREELIST_MASK).1
      else (h₀.assimilateUp c).addToFreeList c := by
    simp only [freeCore, blockOf_data, hnext, h₀]
  rw [← hfree] at hturns
  have hlast : (h.freeCore (data c)).last = h.last := hturns.last.trans hj.turns.last
  rw [hj.turns.last, hj.used_front, hj.used_back] at hused
  have hleft : t.Perm (used h.last fs' bs') := hperm.trans (.of_eq hused.symm)
  have hcount : (h.freeCore (data c)).free_blocks = h₀.free_blocks :=
    hturns.count.trans hj.turns.count
  have hlt : c < n := hn ▸ hs.repr.chain.adjoins.1.lt
  refine ⟨⟨bs', fs', hturns.repr, ?_, hlast ▸ hleft, ?_⟩, ?_⟩
  · rw [hlast]
    exact hj.turns.last ▸ hapart
  · rw [hcount, hlast]
    refine count_update hs.count (Shape.total_le hturns.repr (hlast ▸ hleft) |>.trans hlast.le)
      hs.repr.chain.room ?_
    simp only [total, map_cons, sum_cons]
    omega
  · have hin : ∀ q ∈ t, q ∈ (c, behind h.last zs) :: (used c fs xs ++ used h.last fs ys) :=
      fun q hq => mem_cons_of_mem _ (hperm.mem_iff.mp hq)
    have hup : Keeps t h₀ (h₀.assimilateUp c) :=
      hj.turns.keeps_of_sub hs.repr.update hj.sub fun q hq =>
        (used_run hc).mem_iff.mpr (mem_cons_of_mem _ (hperm.mem_iff.mp hq))
    have hall : Keeps t h₀ (h.freeCore (data c)) :=
      hup.trans (hturns.keeps hj.turns.repr (fun q hq => ?_) fun q hq => ?_)
    · exact ⟨hall.last, hall.held⟩
    · rw [hj.turns.last]
      exact hj.used_run.mem_iff.mpr (hin q hq)
    · rw [hj.turns.last]
      exact hleft.mem_iff.mp hq

/-! ## A run grows -/

/-- **A run takes in what is free behind it.** -/
theorem Table.grow (hs : h.Table ((c, n) :: t)) (e : Nat)
    (he : e = if h.isFree n then span n (h.nextBlock n) else 0) :
    ((h.assimilateUp c).freeBlocksUpdate (-e)).Table ((c, n + e) :: t) ∧
      Keeps ((c, n) :: t) h ((h.assimilateUp c).freeBlocksUpdate (-e)) := by
  obtain ⟨bs, fs, hs⟩ := hs
  obtain ⟨xs, ys, rfl, hn, hc, hperm⟩ := hs.run
  obtain ⟨zs, gs, hj, hz⟩ := hs.repr.joined hc hs.apart
  rw [← hn, ← he] at hz
  have hlast := hj.turns.last
  have hnext := hs.repr.chain.reads.1
  have hlt : c < n := hn ▸ hs.repr.chain.adjoins.1.lt
  have hnew : ((c, n + e) :: t).Perm (used h.last gs (xs ++ c :: zs)) := by
    rw [← hz]
    exact (hperm.cons _).trans hj.used_run.symm
  have hle := Shape.total_le hj.turns.repr (hlast ▸ hnew)
  have hcount := hs.count
  refine ⟨⟨_, gs, hj.turns.repr.update, hlast ▸ hj.apart, hlast ▸ hnew, ?_⟩, ?_⟩
  · refine count_update (t := (c, n) :: t) (by rw [hj.turns.count, hlast, hcount]) hle
      hj.turns.repr.chain.room ?_
    simp only [total, map_cons, sum_cons]
    omega
  · exact (hj.turns.keeps_of_sub hs.repr hj.sub fun q hq => hs.table.mem_iff.mp hq).update

theorem Repr.down {p : Nat} {l r : List Nat} (hh : h.Repr (xs ++ p :: c :: ys) (l ++ p :: r))
    (hc : c ∉ l ++ p :: r) :
    Turns h (xs ++ p :: c :: ys) (l ++ p :: r) ((h.disconnect p).assimilateDown c 0).1
        (xs ++ p :: ys) (l ++ r) ∧ ((h.disconnect p).assimilateDown c 0).2 = p := by
  have hturns := hh.disconnect
  have hnodup := hh.ring.nodup
  obtain ⟨hdown, hback⟩ := hturns.repr.assimilateDown (by grind : c ∉ l ++ r)
  rw [tag_neg (by grind : p ∉ l ++ r)] at hdown hback
  exact ⟨hturns.trans hdown (by grind [Links]), hback⟩

/-- **A run takes in what is free in front of it.** -/
theorem Table.down {p : Nat} (hs : h.Table ((c, n) :: t)) (hp : h.get .PBLOCK c = p)
    (hfree : h.isFree p) :
    ((h.disconnect p).assimilateDown c 0).2 = p ∧ p < c ∧
      (((h.disconnect p).assimilateDown c 0).1.freeBlocksUpdate (-(c - p : Nat))).Table
        ((p, n) :: t) ∧
      Keeps ((c, n) :: t) h
        (((h.disconnect p).assimilateDown c 0).1.freeBlocksUpdate (-(c - p : Nat))) ∧
      ∀ a, a ≠ p → ((h.disconnect p).assimilateDown c 0).1.get .NBLOCK a = h.get .NBLOCK a := by
  obtain ⟨bs, fs, hs⟩ := hs
  obtain ⟨xs, ys, rfl, hn, hc, hperm⟩ := hs.run
  have hpmem : before 0 xs ∈ 0 :: xs := before_mem
  have hpx := hs.repr.chain.adjoins.2.symm.trans hp
  have hmem : p ∈ fs := (hs.repr.isFree_iff (by grind)).mp hfree
  have hnodup := hs.repr.ring.nodup
  obtain ⟨ws, hws⟩ := before_eq (show before 0 xs ≠ 0 by grind)
  rw [hpx] at hws
  subst hws
  clear hpx hpmem
  obtain ⟨l, r, rfl⟩ := append_of_mem hmem
  rw [append_assoc] at hs
  obtain ⟨hturns, hback⟩ := hs.repr.down hc
  have hcp := (@Chain.places h _ _ ws ys [c] p hs.repr.chain).2.1 c mem_cons_self
  have hnot : p ∉ l ++ r := by grind
  have hbeside := @Chain.used_beside h _ ws ys p [c] (l ++ r) p h.last hs.repr.chain (by grind)
  have hused : ((p, n) :: t).Perm (used h.last (l ++ r) (ws ++ p :: ys)) := by
    refine (hperm.cons _).trans (.trans (.of_eq ?_) (used_run hnot).symm)
    rw [used_append, used_cons_of_mem mem_append_cons_self, hn, hbeside.1, hbeside.2]
    simp [used]
  have hlast := hturns.last
  have hcount := hs.count
  refine ⟨hback, hcp.1, ⟨_, l ++ r, hturns.repr.update, ?_, hlast ▸ hused, ?_⟩, ?_, fun a ha => ?_⟩
  · refine @Chain.apart_exchange h _ ws [p, c] [p] ys _ hs.repr.chain hs.apart ⟨fun _ => hnot, ?_⟩
      (by grind)
    exact fun hin => absurd hin hnot
  · refine count_update (t := (c, n) :: t) (by rw [hturns.count, hlast, hcount])
      (Shape.total_le hturns.repr (hlast ▸ hused)) hturns.repr.chain.room ?_
    simp only [total, map_cons, sum_cons]
    omega
  · exact (hturns.keeps_of_sub hs.repr (by grind [Links]) fun q hq => hs.table.mem_iff.mp hq).update
  · simp [assimilateDown, disconnect, get_set, hp, ha]

/-! ## A run is split -/

theorem Table.split (hs : h.Table ((c, n) :: t)) (hk : 0 < k) (hlt : c + k < n) :
    (h.splitBlock c k 0).Table ((c + k, n) :: (c, c + k) :: t) ∧
      Keeps ((c, c + k) :: t) h (h.splitBlock c k 0) := by
  obtain ⟨bs, fs, hs⟩ := hs
  obtain ⟨xs, ys, rfl, rfl, hc, hperm⟩ := hs.run
  have hturns := hs.repr.split hc hk hlt
  have hnew : c + k ∉ fs := fun hmem => hs.repr.chain.fresh hk hlt (hs.repr.sub _ hmem)
  have hused : ((c + k, behind h.last ys) :: (c, c + k) :: t).Perm
      (used h.last fs (xs ++ c :: (c + k) :: ys)) := by
    refine Perm.trans ?_ (used_run hc).symm
    rw [used_cons_of_not hnew, behind_cons]
    exact (Perm.swap ..).trans (((hperm.cons _).trans perm_middle.symm).cons _)
  refine ⟨⟨_, fs, hturns.repr, ?_, hused, ?_⟩, rfl, fun q hq f a hin => hturns.kept f a ?_ ?_⟩
  · have ha := hs.apart
    have hchain := hs.repr.chain
    rw [append_cons xs c] at ha hchain ⊢
    refine @Chain.apart_exchange h fs (xs ++ [c]) [] [c + k] ys fs hchain ha ⟨fun _ => hnew, ?_⟩
      fun _ _ _ => Iff.rfl
    exact fun hmem => absurd hmem hnew
  · have hcount := hs.count
    simp only [total, map_cons, sum_cons] at hcount ⊢
    rw [hturns.count, hturns.last]
    omega
  · rcases mem_cons.mp hq with rfl | hq
    · exact hs.repr.not_links (hs.table.mem_iff.mp mem_cons_self)
        ⟨hin.1, hin.2.1.trans hlt, hin.2.2⟩
    · exact hs.repr.not_links (hs.table.mem_iff.mp (mem_cons_of_mem _ hq)) hin
  · exact hturns.repr.not_links (hused.mem_iff.mp (mem_cons_of_mem _ hq)) hin

/-- **A run gives up what is behind its first blocks.** -/
theorem Table.trim (hs : h.Table ((c, n) :: t)) (hk : 0 < k) (hlt : c + k < n) :
    (h.trim c k).Table ((c, c + k) :: t) ∧ Keeps ((c, c + k) :: t) h (h.trim c k) := by
  obtain ⟨hsplit, hkeep⟩ := hs.split hk hlt
  obtain ⟨hfreed, hkeep'⟩ := hsplit.free
  exact ⟨hfreed, hkeep.trans hkeep'⟩

end Heap

end Umm
