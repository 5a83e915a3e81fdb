import Mathlib.Data.Nat.Bitwise
import RalioFirmware.Basis.Between
import RalioFirmware.Umm.Malloc

/-!
# The blocks of the heap

What the numbers in the blocks are to say: the runs of the heap one behind another, and the free
ones in a ring through the first block.  Each step of the allocator exchanges a stretch of the one
list or the other.
-/

namespace Umm

open Between List

/-! ## Numbers with a mark -/

def tag (p : Prop) [Decidable p] : Nat := if p then UMM_FREELIST_MASK else 0

section

variable {n : Nat} {p : Prop} [Decidable p]

theorem tag_cases : p ∧ tag p = 32768 ∨ ¬p ∧ tag p = 0 := by
  by_cases hp : p
  · exact Or.inl ⟨hp, if_pos hp⟩
  · exact Or.inr ⟨hp, if_neg hp⟩

theorem tag_pos (hp : p) : tag p = UMM_FREELIST_MASK := if_pos hp

theorem tag_neg (hp : ¬p) : tag p = 0 := if_neg hp

theorem tagged_blockno (hn : n < 32768) : (n + tag p) &&& UMM_BLOCKNO_MASK = n := by
  have hmod : (n + tag p) &&& (2 ^ 15 - 1) = (n + tag p) % 2 ^ 15 :=
    Nat.and_two_pow_sub_one_eq_mod _ 15
  refine hmod.trans ?_
  rcases @tag_cases p _ with ⟨-, htag⟩ | ⟨-, htag⟩
  · omega
  · omega

theorem tagged_mark (hn : n < 32768) : (n + tag p) &&& UMM_FREELIST_MASK = tag p := by
  have hand : (n + tag p) &&& UMM_FREELIST_MASK = ((n + tag p).testBit 15).toNat * 2 ^ 15 :=
    Nat.and_two_pow (n + tag p) 15
  rw [hand, Nat.testBit_eq_decide_div_mod_eq]
  rcases @tag_cases p _ with ⟨hp, htag⟩ | ⟨hp, htag⟩
  · have hbit : (n + tag p) / 2 ^ 15 % 2 = 1 := by omega
    rw [hbit, htag]
    rfl
  · have hbit : (n + tag p) / 2 ^ 15 % 2 = 0 := by omega
    rw [hbit, htag]
    rfl

theorem tagged_free (hn : n < 32768) : (n + tag p) &&& UMM_FREELIST_MASK ≠ 0 ↔ p := by
  rw [tagged_mark hn]
  by_cases hp : p
  · rw [tag_pos hp]
    exact iff_of_true (by decide) hp
  · rw [tag_neg hp]
    exact iff_of_false (by decide) hp

theorem or_tag (hn : n < 32768) : n ||| tag p = n + tag p := by
  rcases @tag_cases p _ with ⟨-, htag⟩ | ⟨-, htag⟩
  · rw [htag, Nat.or_comm]
    exact (Nat.two_pow_add_eq_or_of_lt (show n < 2 ^ 15 from hn) 1).symm.trans (Nat.add_comm _ _)
  · rw [htag, Nat.or_zero, Nat.add_zero]

theorem or_mask (hn : n < 32768) :
    n ||| UMM_FREELIST_MASK = n + UMM_FREELIST_MASK ∧ n + UMM_FREELIST_MASK < 65536 := by
  have hor := @or_tag n True _ hn
  rw [tag_pos trivial] at hor
  exact ⟨hor, Nat.add_lt_add_right hn _⟩

theorem span_of_le {c n : Nat} (hle : c ≤ n) (hn : n < 65536) : span c n = n - c := by
  unfold span
  omega

end

theorem Field.place_inj {f g : Field} {b c : Nat} :
    4 * b + f.place = 4 * c + g.place ↔ f = g ∧ b = c := by
  constructor
  · intro h
    cases f <;> cases g <;> simp only [Field.place] at h <;>
      first | exact ⟨rfl, by omega⟩ | (exfalso; omega)
  · rintro ⟨rfl, rfl⟩
    rfl

namespace Heap

variable {h h' : Heap} {F F' : Nat → Prop} [DecidablePred F] [DecidablePred F']
variable {bs fs xs ys m m' l r : List Nat} {a b c k : Nat}

theorem get_set {f g : Field} {v : Nat} :
    (h.set f b v).get g c = if g = f ∧ c = b then v % 65536 else h.get g c := by
  simp only [get, set, Function.update_apply, Field.place_inj]

@[simp] theorem last_set {f : Field} {v : Nat} : (h.set f b v).last = h.last := rfl

/-! ## One run behind another -/

/-- The run at `a` reaches to `b`. -/
structure Adjoins (h : Heap) (F : Nat → Prop) [DecidablePred F] (a b : Nat) : Prop where
  lt : a < b
  next : h.get .NBLOCK a = b + tag (F a)
  prev : h.get .PBLOCK b = a

/-- The runs of the heap are `bs`, and those of `F` are marked. -/
structure Chain (h : Heap) (F : Nat → Prop) [DecidablePred F] (bs : List Nat) : Prop where
  linked : Linked (h.Adjoins F) h.last 0 bs
  ends : h.get .NBLOCK h.last = 0
  room : h.last < 32768

theorem pairwise_of_linked {e s : Nat} (hl : Linked (h.Adjoins F) e s bs) :
    (s :: (bs ++ [e])).Pairwise (· < ·) := by
  induction bs generalizing s with
  | nil => simpa using hl.lt
  | cons x l ih =>
    have hrest := ih hl.2
    refine pairwise_cons.mpr ⟨fun y hy => ?_, hrest⟩
    rcases mem_cons.mp hy with rfl | hy
    · exact hl.1.lt
    · exact hl.1.lt.trans ((pairwise_cons.mp hrest).1 y hy)

theorem Chain.sorted (hc : h.Chain F bs) : (0 :: (bs ++ [h.last])).Pairwise (· < ·) :=
  pairwise_of_linked hc.linked

theorem Chain.nodups (hc : h.Chain F bs) : (0 :: bs).Nodup ∧ (bs ++ [h.last]).Nodup := by
  have hs : (0 :: bs ++ [h.last]).Pairwise (· < ·) := hc.sorted
  exact ⟨(pairwise_append.mp hs).1.imp Nat.ne_of_lt,
    (pairwise_cons.mp hc.sorted).2.imp Nat.ne_of_lt⟩

theorem Chain.le (hc : h.Chain F bs) (hb : b ∈ bs ++ [h.last]) : b ≤ h.last := by
  rcases mem_append.mp hb with hb | hb
  · have hs := (pairwise_cons.mp hc.sorted).2
    exact Nat.le_of_lt ((pairwise_append.mp hs).2.2 b hb _ (mem_singleton_self _))
  · exact (mem_singleton.mp hb).le

theorem Chain.adjoins (hc : h.Chain F (xs ++ c :: ys)) :
    h.Adjoins F c (behind h.last ys) ∧ h.get .PBLOCK c = before 0 xs := by
  obtain ⟨-, hprev, hrest⟩ := linked_append.mp hc.linked
  exact ⟨hrest.first, hprev.prev⟩

/-- The places of the runs around a stretch. -/
theorem Chain.places (hc : h.Chain F (xs ++ c :: (m ++ ys))) :
    (∀ a ∈ 0 :: xs, a < c) ∧ (∀ a ∈ m, c < a ∧ a < behind h.last ys) ∧
      (∀ a ∈ ys ++ [h.last], behind h.last ys ≤ a) ∧ c < behind h.last ys ∧
      behind h.last ys ≤ h.last := by
  have hs : (0 :: xs ++ c :: (m ++ (ys ++ [h.last]))).Pairwise (· < ·) := by simpa using hc.sorted
  obtain ⟨-, hrest, hcross⟩ := pairwise_append.mp hs
  obtain ⟨hcm, hmy⟩ := pairwise_cons.mp hrest
  obtain ⟨-, hy, hmid⟩ := pairwise_append.mp hmy
  have hmem : behind h.last ys ∈ ys ++ [h.last] := behind_mem
  have hfirst : ∀ a ∈ ys ++ [h.last], behind h.last ys ≤ a := fun a ha =>
    (behind_first hy a ha).elim (fun heq => heq.ge) Nat.le_of_lt
  exact ⟨fun a ha => hcross a ha c mem_cons_self,
    fun a ha => ⟨hcm a (mem_append_left _ ha), hmid a ha _ hmem⟩, hfirst,
    hcm _ (mem_append_right _ hmem), hfirst _ (mem_append_right _ mem_cons_self)⟩

theorem Chain.reads (hc : h.Chain F (xs ++ c :: ys)) :
    h.get .NBLOCK c = behind h.last ys + tag (F c) ∧ h.nextBlock c = behind h.last ys ∧
      (h.isFree c ↔ F c) := by
  have hnext := hc.adjoins.1.next
  have hplaces := (@Chain.places h F _ xs ys [] c hc).2.2.2.2
  have hroom := hc.room
  refine ⟨hnext, ?_, ?_⟩
  · rw [nextBlock, hnext]
    exact tagged_blockno (by omega)
  · rw [isFree, hnext]
    exact tagged_free (by omega)

/-- **What is behind a run is exchanged.** -/
theorem Chain.exchange (hc : h.Chain F (xs ++ c :: (m ++ ys))) (hlast : h'.last = h.last)
    (hmid : Linked (h'.Adjoins F') (behind h.last ys) c m')
    (hnext : ∀ a, a ≠ c → a ∉ m → a ∉ m' → h'.get .NBLOCK a = h.get .NBLOCK a ∧ (F' a ↔ F a))
    (hprev : ∀ b, b ≠ behind h.last ys → b ∉ m' → h'.get .PBLOCK b = h.get .PBLOCK b) :
    h'.Chain F' (xs ++ c :: (m' ++ ys)) := by
  obtain ⟨hxs, hm, hys, hlt, hle⟩ := hc.places
  have hm' : ∀ a ∈ m', c < a ∧ a < behind h.last ys := by
    obtain ⟨hfirst, hrest⟩ := pairwise_cons.mp (pairwise_of_linked hmid)
    obtain ⟨-, -, hcross⟩ := pairwise_append.mp hrest
    exact fun a ha =>
      ⟨hfirst a (mem_append_left _ ha), hcross a ha _ (mem_singleton_self _)⟩
  have hfresh : ∀ a ∈ 0 :: (xs ++ [c] ++ ys) ++ [h.last], a ∉ m' := by
    intro a ha hmem
    have hin := hm' a hmem
    have hside : a ≤ c ∨ behind h.last ys ≤ a := by grind
    omega
  have hlinked := hc.linked
  obtain ⟨hs, he⟩ := hc.nodups
  rw [append_cons xs c] at hlinked hs he ⊢
  refine ⟨?_, ?_, hlast ▸ hc.room⟩
  · rw [hlast]
    refine hlinked.splice hs he (by simpa using hmid) fun a ha hac hacm b hb hbn hbm hab => ?_
    have hfresha := hfresh a (mem_append_left _ ha)
    obtain ⟨hkeep, hiff⟩ := hnext a (by simpa using hac) hacm hfresha
    have hfreshb := hfresh b (by grind)
    exact ⟨hab.lt, by rw [hkeep, hab.next]; simp only [tag, hiff],
      by rw [hprev b hbn hfreshb, hab.prev]⟩
  · have hne : h.last ≠ c := by omega
    have hnm : h.last ∉ m := fun hmem => by
      have := hm _ hmem
      omega
    rw [hlast, (hnext h.last hne hnm (hfresh _ (by simp))).1, hc.ends]

/-! ## The free blocks -/

/-- Of two free blocks the one leads to the other, and back. -/
structure Rings (h : Heap) (a b : Nat) : Prop where
  next : h.get .NFREE a = b
  prev : h.get .PFREE b = a

/-- The free list is `fs`. -/
structure Ring (h : Heap) (fs : List Nat) : Prop where
  linked : Linked h.Rings 0 0 fs
  nodup : (0 :: fs).Nodup

theorem Ring.rings (hr : h.Ring (l ++ c :: r)) :
    h.get .PFREE c = before 0 l ∧ h.get .NFREE c = behind 0 r := by
  obtain ⟨-, hprev, hrest⟩ := linked_append.mp hr.linked
  exact ⟨hprev.prev, hrest.first.next⟩

theorem Ring.congr (hr : h.Ring fs) (hsame : ∀ f a, f ≠ .NBLOCK → f ≠ .PBLOCK →
    h'.get f a = h.get f a) : h'.Ring fs := by
  refine ⟨hr.linked.imp fun a _ b _ hab => ⟨?_, ?_⟩, hr.nodup⟩
  · rw [hsame _ _ (by decide) (by decide), hab.next]
  · rw [hsame _ _ (by decide) (by decide), hab.prev]

/-- **A stretch of the free list is exchanged.** -/
theorem Ring.exchange (hr : h.Ring (l ++ (m ++ r))) (hnodup : (0 :: (l ++ (m' ++ r))).Nodup)
    (hmid : Linked h'.Rings (behind 0 r) (before 0 l) m')
    (hnext : ∀ a, a ≠ before 0 l → a ∉ m' → h'.get .NFREE a = h.get .NFREE a)
    (hprev : ∀ b, b ≠ behind 0 r → b ∉ m' → h'.get .PFREE b = h.get .PFREE b) :
    h'.Ring (l ++ (m' ++ r)) := by
  have hback : (l ++ (m ++ r) ++ [0]).Nodup := by
    have hn := hr.nodup
    grind
  refine ⟨hr.linked.splice hr.nodup hback hmid fun a ha hne _ b hb hbn _ hab => ?_, hnodup⟩
  have hfresh : a ∉ m' ∧ b ∉ m' := by grind
  exact ⟨by rw [hnext a hne hfresh.1, hab.next], by rw [hprev b hbn hfresh.2, hab.prev]⟩

/-! ## The steps -/

theorem get_splitBlock {n mask : Nat} (hn : h.nextBlock c = n) (hk : 0 < k) (hlt : c + k < n)
    (hroom : n < 32768) (hmask : n ||| mask < 65536) (f : Field) (a : Nat) :
    (h.splitBlock c k mask).get f a =
      if f = .NBLOCK ∧ a = c then c + k else if f = .PBLOCK ∧ a = n then c + k
      else if f = .PBLOCK ∧ a = c + k then c else if f = .NBLOCK ∧ a = c + k then n ||| mask
      else h.get f a := by
  have hne : c ≠ c + k := by omega
  unfold nextBlock at hn
  simp only [splitBlock, nextBlock, get_set, hne, hn, Nat.mod_eq_of_lt hmask]
  grind

/-- **A run is split.** -/
theorem Chain.split (hc : h.Chain F (xs ++ c :: ys)) (hk : 0 < k) (hlt : c + k < behind h.last ys)
    (hunmarked : ¬F' c) (hsame : ∀ a, a ≠ c → a ≠ c + k → (F' a ↔ F a)) :
    (h.splitBlock c k (tag (F' (c + k)))).Chain F' (xs ++ c :: (c + k) :: ys) := by
  obtain ⟨-, hn, -⟩ := hc.reads
  have hplaces := (@Chain.places h F _ xs ys [] c hc).2.2.2.2
  have hroom := hc.room
  have hor := @or_tag (behind h.last ys) (F' (c + k)) _ (by omega)
  have htag := @tag_cases (F' (c + k)) _
  have hread := @get_splitBlock h c k _ (tag (F' (c + k))) hn hk hlt (by omega) (by omega)
  have hne : c + k ≠ behind h.last ys := by omega
  refine @exchange h _ F F' _ _ xs ys [] [c + k] c hc rfl ⟨⟨?_, ?_, ?_⟩, ⟨?_, ?_, ?_⟩⟩ ?_ ?_
  · omega
  · simp [hread, tag_neg hunmarked]
  · simp [hread, hne]
  · exact hlt
  · simp [hread, hor, hk.ne']
  · simp [hread]
  · intro a hac _ hak
    rw [mem_singleton] at hak
    exact ⟨by simp [hread, hac, hak], hsame a hac hak⟩
  · intro b hbn hbk
    rw [mem_singleton] at hbk
    simp [hread, hbn, hbk]

theorem Chain.congr (hc : h.Chain F bs) (hlast : h'.last = h.last)
    (hsame : ∀ f a, f ≠ .NFREE → f ≠ .PFREE → h'.get f a = h.get f a) : h'.Chain F bs := by
  refine ⟨?_, ?_, hlast ▸ hc.room⟩
  · rw [hlast]
    refine hc.linked.imp fun a _ b _ hab => ⟨hab.lt, ?_, ?_⟩
    · rw [hsame _ _ (by decide) (by decide), hab.next]
    · rw [hsame _ _ (by decide) (by decide), hab.prev]
  · rw [hlast, hsame _ _ (by decide) (by decide), hc.ends]

/-- **A mark is set or cleared.** -/
theorem Chain.mark (hc : h.Chain F (xs ++ c :: ys)) (hlast : h'.last = h.last)
    (hmarked : h'.get .NBLOCK c = behind h.last ys + tag (F' c))
    (hnext : ∀ a, a ≠ c → h'.get .NBLOCK a = h.get .NBLOCK a ∧ (F' a ↔ F a))
    (hprev : ∀ b, h'.get .PBLOCK b = h.get .PBLOCK b) : h'.Chain F' (xs ++ c :: ys) := by
  have hadj := hc.adjoins.1
  refine @exchange h h' F F' _ _ xs ys [] [] c hc hlast ⟨hadj.lt, hmarked, ?_⟩
    (fun a hac _ _ => hnext a hac) fun b _ _ => hprev b
  rw [hprev, hadj.prev]

/-- The heap has the runs `bs`, of which `fs` are free, in the order of the free list. -/
structure Repr (h : Heap) (bs fs : List Nat) : Prop where
  chain : h.Chain (· ∈ fs) bs
  first : behind h.last bs = 1
  ring : h.Ring fs
  sub : ∀ b ∈ fs, b ∈ bs

/-- A number that tells where a run or a free block is. -/
def Links (e : Nat) (bs fs : List Nat) (f : Field) (a : Nat) : Prop :=
  a ∈ 0 :: (bs ++ [e]) ∧ (f = .NFREE ∨ f = .PFREE → a ∈ 0 :: fs)

/-- A step of the allocator: no number but those that are links before or after it is written. -/
structure Turns (h : Heap) (bs fs : List Nat) (h' : Heap) (bs' fs' : List Nat) : Prop where
  repr : h'.Repr bs' fs'
  last : h'.last = h.last
  count : h'.free_blocks = h.free_blocks
  kept : ∀ f a, ¬Links h.last bs fs f a → ¬Links h.last bs' fs' f a → h'.get f a = h.get f a

theorem Repr.lt (hh : h.Repr bs fs) (hb : b ∈ 0 :: fs) : b < h.last := by
  have hs := hh.chain.sorted
  rw [← cons_append] at hs
  refine (pairwise_append.mp hs).2.2 b ?_ _ (mem_singleton_self _)
  rcases mem_cons.mp hb with rfl | hb
  · exact mem_cons_self
  · exact mem_cons_of_mem _ (hh.sub b hb)

/-- A block of the free list leads to others, and back to others. -/
theorem Repr.neighbours (hh : h.Repr bs (l ++ c :: r)) :
    h.get .PFREE c = before 0 l ∧ h.get .NFREE c = behind 0 r ∧
      ∀ a ∈ [before 0 l, behind 0 r], a ≠ c ∧ a ∈ 0 :: (l ++ r) ∧ a < h.last := by
  obtain ⟨hp, hq⟩ := hh.ring.rings
  have hnodup := hh.ring.nodup
  have hpmem : before 0 l ∈ 0 :: l := before_mem
  have hqmem : behind 0 r ∈ r ++ [0] := behind_mem
  refine ⟨hp, hq, fun a ha => ?_⟩
  have hmem : a ∈ 0 :: (l ++ r) := by grind
  exact ⟨by grind, hmem, hh.lt (by grind)⟩

theorem get_disconnect {n p q : Nat} (hn : h.nextBlock c = n) (hp : h.get .PFREE c = p)
    (hq : h.get .NFREE c = q) (hpc : p ≠ c) (hqc : q ≠ c) (hlt : n < 65536 ∧ p < 65536 ∧ q < 65536)
    (f : Field) (a : Nat) : (h.disconnect c).get f a =
      if f = .NBLOCK ∧ a = c then n else if f = .PFREE ∧ a = q then p
      else if f = .NFREE ∧ a = p then q else h.get f a := by
  unfold nextBlock at hn
  have hpc' := hpc.symm
  have hqc' := hqc.symm
  simp only [disconnect, nextBlock, get_set, hp, hq, hpc']
  grind

@[simp] theorem last_disconnect : (h.disconnect c).last = h.last := rfl

/-- **A block leaves the free list.** -/
theorem Repr.disconnect (hh : h.Repr bs (l ++ c :: r)) :
    Turns h bs (l ++ c :: r) (h.disconnect c) bs (l ++ r) := by
  have hroom := hh.chain.room
  obtain ⟨hp, hq, hnear⟩ := hh.neighbours
  obtain ⟨hpc, hpmem, hplt⟩ := hnear _ mem_cons_self
  obtain ⟨hqc, hqmem, hqlt⟩ := hnear _ (mem_cons_of_mem _ mem_cons_self)
  have hnodup := hh.ring.nodup
  obtain ⟨xs, ys, rfl⟩ := append_of_mem (hh.sub c (by simp))
  obtain ⟨-, hn, -⟩ := hh.chain.reads
  have hle := (@Chain.places h _ _ xs ys [] c hh.chain).2.2.2.2
  have hread := get_disconnect hn hp hq hpc hqc (by omega)
  refine ⟨⟨hh.chain.mark rfl ?_ (fun a hac => ⟨?_, ?_⟩) fun b => ?_, hh.first, ?_, fun b hb => ?_⟩,
    rfl, rfl,
    fun f a hold _ => ?_⟩
  · have hnot : c ∉ l ++ r := by grind
    rw [hread, if_pos ⟨rfl, rfl⟩, tag_neg hnot, Nat.add_zero]
  · simp [hread, hac]
  · grind
  · simp [hread]
  · refine @Ring.exchange h _ [c] [] l r hh.ring (by grind) ⟨?_, ?_⟩ ?_ ?_
    · simp [hread]
    · simp [hread]
    · intro a ha _
      simp [hread, ha]
    · intro b hb _
      simp [hread, hb]
  · exact hh.sub b (by grind)
  · rw [hread]
    have hp := hh.sub (before 0 l)
    have hq := hh.sub (behind 0 r)
    grind [Links]

theorem get_addToFreeList {q : Nat} (hq : h.get .NFREE 0 = q) (hlt : c < 65536 ∧ q < 65536)
    (f : Field) (a : Nat) :
    (h.addToFreeList c).get f a =
      if f = .NBLOCK ∧ a = c then (h.get .NBLOCK c ||| UMM_FREELIST_MASK) % 65536
      else if f = .NFREE ∧ a = 0 then c else if f = .PFREE ∧ a = c then 0
      else if f = .NFREE ∧ a = c then q else if f = .PFREE ∧ a = q then c else h.get f a := by
  simp only [addToFreeList, get_set, hq]
  grind

/-- **A block enters the free list.** -/
theorem Repr.addToFreeList (hh : h.Repr (xs ++ c :: ys) fs) (hc : c ∉ fs) :
    Turns h (xs ++ c :: ys) fs (h.addToFreeList c) (xs ++ c :: ys) (c :: fs) := by
  have hroom := hh.chain.room
  obtain ⟨hxs, -, -, hlt, hle⟩ := @Chain.places h _ _ xs ys [] c hh.chain
  obtain ⟨hnext, -, -⟩ := hh.chain.reads
  have hpos := hxs 0 mem_cons_self
  have hmem : behind 0 fs ∈ fs ++ [0] := behind_mem
  have hqlt : behind 0 fs < h.last := hh.lt (by grind)
  have hq : h.get .NFREE 0 = behind 0 fs := hh.ring.linked.first.next
  have hqc : behind 0 fs ≠ c := by grind
  have hread := @get_addToFreeList h c _ hq (by omega)
  have hnodup := hh.ring.nodup
  refine ⟨⟨hh.chain.mark rfl ?_ (fun a hac => ⟨?_, ?_⟩) fun b => ?_, hh.first, ?_, fun b hb => ?_⟩,
    rfl, rfl,
    fun f a hold hnew => ?_⟩
  · obtain ⟨hor, hmask⟩ := or_mask (hle.trans_lt hroom)
    rw [hread, if_pos ⟨rfl, rfl⟩, hnext, tag_neg hc, Nat.add_zero, hor, Nat.mod_eq_of_lt hmask,
      tag_pos mem_cons_self]
  · simp [hread, hac]
  · grind
  · simp [hread]
  · refine @Ring.exchange h _ [] [c] [] fs hh.ring (by grind) ⟨⟨?_, ?_⟩, ?_, ?_⟩ ?_ ?_
    · simp [hread]
    · simp [hread]
    · simp [hread, hpos.ne']
    · simp [hread, hqc]
    · intro a ha hac
      rw [mem_singleton] at hac
      simp [hread, show a ≠ 0 from ha, hac]
    · intro b hb hbc
      rw [mem_singleton] at hbc
      simp [hread, hbc, show b ≠ behind 0 fs from hb]
  · grind [hh.sub b]
  · rw [hread]
    have hq := hh.sub (behind 0 fs)
    grind [Links]

theorem get_assimilateDown {n p mask : Nat} (hn : h.get .NBLOCK c = n) (hp : h.get .PBLOCK c = p)
    (hpc : p ≠ c) (hlt : n ||| mask < 65536 ∧ p < 65536) (f : Field) (a : Nat) :
    (h.assimilateDown c mask).1.get f a =
      if f = .NBLOCK ∧ a = p then n ||| mask else if f = .PBLOCK ∧ a = n then p
      else h.get f a := by
  have hpc' := hpc.symm
  simp only [assimilateDown, get_set, hn, hp, hpc']
  grind

/-- **A run is joined** to the one in front of it. -/
theorem Repr.assimilateDown {p : Nat} (hh : h.Repr (xs ++ p :: c :: ys) fs) (hc : c ∉ fs) :
    Turns h (xs ++ p :: c :: ys) fs (h.assimilateDown c (tag (p ∈ fs))).1 (xs ++ p :: ys) fs ∧
      (h.assimilateDown c (tag (p ∈ fs))).2 = p := by
  have hroom := hh.chain.room
  obtain ⟨-, hmid, -, hlt, hle⟩ := @Chain.places h _ _ xs ys [c] p hh.chain
  have hmid := hmid c (mem_singleton_self c)
  have hchain := hh.chain
  rw [append_cons] at hchain
  obtain ⟨hnext, -, -⟩ := hchain.reads
  have hprev : h.get .PBLOCK c = p := by simpa using hchain.adjoins.2
  rw [tag_neg hc, Nat.add_zero] at hnext
  have hor := @or_tag (behind h.last ys) (p ∈ fs) _ (by omega)
  have htag := @tag_cases (p ∈ fs) _
  have hread := @get_assimilateDown h c _ _ (tag (p ∈ fs)) hnext hprev (by omega) (by omega)
  have hnp : c ≠ behind h.last ys := by omega
  refine ⟨⟨⟨?_, by simpa using hh.first, ?_, fun b hb => ?_⟩, rfl, rfl,
    fun f a hold hnew => ?_⟩, ?_⟩
  · refine @Chain.exchange h _ _ _ _ _ xs ys [c] [] p hh.chain rfl ⟨hlt, ?_, ?_⟩ ?_ ?_
    · rw [hread, if_pos ⟨rfl, rfl⟩, hor]
    · simp [hread]
    · intro a hap _ _
      exact ⟨by simp [hread, hap], Iff.rfl⟩
    · intro b hb _
      simp [hread, hb]
  · refine hh.ring.congr fun f a hf hf' => ?_
    simp [hread, hf, hf']
  · have hin := hh.sub b hb
    grind
  · rw [hread]
    have hmem : behind h.last ys ∈ ys ++ [h.last] := behind_mem
    grind [Links]
  · have hpc : c ≠ p := by omega
    simp [Heap.assimilateDown, get_set, hprev, hpc, hnext, hnp]

theorem Repr.isFree_iff (hh : h.Repr bs fs) (hb : b ∈ 0 :: (bs ++ [h.last])) :
    h.isFree b ↔ b ∈ fs := by
  have hroom := hh.chain.room
  rcases mem_cons.mp hb with rfl | hb
  · have hnot : 0 ∉ fs := (nodup_cons.mp hh.ring.nodup).1
    have hnext : h.get .NBLOCK 0 = behind h.last bs + tag (0 ∈ fs) := hh.chain.linked.first.next
    have hle := hh.chain.le behind_mem
    rw [isFree, hnext]
    exact tagged_free (by omega)
  · rcases mem_append.mp hb with hb | hb
    · obtain ⟨xs, ys, rfl⟩ := append_of_mem hb
      exact hh.chain.reads.2.2
    · obtain rfl := mem_singleton.mp hb
      have hnot : h.last ∉ fs := fun hmem => Nat.lt_irrefl _ (hh.lt (mem_cons_of_mem 0 hmem))
      rw [isFree, hh.chain.ends]
      exact iff_of_false (by decide) hnot

theorem Repr.assimilateUp_of_not (hh : h.Repr (xs ++ c :: ys) fs) (hc : c ∉ fs)
    (hn : behind h.last ys ∉ fs) : h.assimilateUp c = h := by
  have hnext := hh.chain.reads.1
  rw [tag_neg hc, Nat.add_zero] at hnext
  have hmem : behind h.last ys ∈ ys ++ [h.last] := behind_mem
  have hfree := @Repr.isFree_iff h _ fs (behind h.last ys) hh (by grind)
  rw [assimilateUp, hnext, if_neg fun hf => hn (hfree.mp hf)]

theorem get_assimilateUp {n e : Nat} (hc : h.get .NBLOCK c = n) (hfree : h.isFree n)
    (hc' : (h.disconnect n).get .NBLOCK c = n) (hn : (h.disconnect n).nextBlock n = e)
    (hlt : c < e ∧ e < 65536) (f : Field) (a : Nat) :
    (h.assimilateUp c).get f a = if f = .NBLOCK ∧ a = c then e else if f = .PBLOCK ∧ a = e then c
      else (h.disconnect n).get f a := by
  unfold nextBlock at hn
  simp only [Heap.assimilateUp, hc, if_pos hfree, nextBlock, get_set, hc', hn]
  grind

/-- **A free run is joined** to the one in front of it. -/
theorem Repr.assimilateUp {n : Nat} (hh : h.Repr (xs ++ c :: n :: ys) (l ++ n :: r))
    (hc : c ∉ l ++ n :: r) :
    Turns h (xs ++ c :: n :: ys) (l ++ n :: r) (h.assimilateUp c) (xs ++ c :: ys) (l ++ r) := by
  have hroom := hh.chain.room
  have hnext := hh.chain.reads.1
  rw [tag_neg hc, Nat.add_zero, behind_cons] at hnext
  have hfree := (@Repr.isFree_iff h _ _ n hh (by simp)).mpr (by simp)
  obtain ⟨hh', -, -, hkept⟩ := hh.disconnect
  obtain ⟨-, hmid, -, hlt, hle⟩ := @Chain.places _ _ _ xs ys [n] c hh'.chain
  have hnc := hmid n (mem_singleton_self n)
  have hchain := hh'.chain
  rw [append_cons] at hchain
  obtain ⟨-, hn, -⟩ := hchain.reads
  have hc' : c ∉ l ++ r := by grind
  have hcn := hh'.chain.reads.1
  rw [tag_neg hc', Nat.add_zero, behind_cons] at hcn
  rw [last_disconnect] at hn hlt hle hnc
  have hlast : (h.assimilateUp c).last = h.last ∧
      (h.assimilateUp c).free_blocks = h.free_blocks := by
    rw [Heap.assimilateUp, if_pos (hnext ▸ hfree)]
    exact ⟨rfl, rfl⟩
  have hread := get_assimilateUp hnext hfree hcn hn (by omega)
  refine ⟨⟨?_, ?_, ?_, fun b hb => ?_⟩, hlast.1, hlast.2, fun f a hold hnew => ?_⟩
  · refine @Chain.exchange _ _ _ _ _ _ xs ys [n] [] c hh'.chain hlast.1 ⟨hlt, ?_, ?_⟩ ?_ ?_
    · rw [hread, if_pos ⟨rfl, rfl⟩, tag_neg hc', Nat.add_zero]
      rfl
    · simp [hread]
    · intro a hac _ _
      exact ⟨by simp [hread, hac], Iff.rfl⟩
    · intro b hb _
      rw [last_disconnect] at hb
      simp [hread, hb]
  · have hfirst := hh.first
    simp only [behind_append, behind_cons] at hfirst ⊢
    exact hfirst
  · refine hh'.ring.congr fun f a hf hf' => ?_
    simp [hread, hf, hf']
  · have hin := hh'.sub b hb
    have hnodup := hh.ring.nodup
    grind
  · have hmem : behind h.last ys ∈ ys ++ [h.last] := behind_mem
    rw [hread, ← hkept f a hold (by grind [Links])]
    grind [Links]

/-- No run starts inside another. -/
theorem Chain.fresh (hc : h.Chain F (xs ++ c :: ys)) (hk : 0 < k) (hlt : c + k < behind h.last ys) :
    c + k ∉ xs ++ c :: ys := by
  obtain ⟨hxs, -, hys, -, -⟩ := @Chain.places h F _ xs ys [] c hc
  intro hmem
  rcases mem_append.mp hmem with hmem | hmem
  · have hlow := hxs _ (mem_cons_of_mem 0 hmem)
    omega
  · rcases mem_cons.mp hmem with heq | hmem
    · omega
    · have hhigh := hys _ (mem_append_left _ hmem)
      omega

/-- **A run in use is split.** -/
theorem Repr.split (hh : h.Repr (xs ++ c :: ys) fs) (hc : c ∉ fs) (hk : 0 < k)
    (hlt : c + k < behind h.last ys) :
    Turns h (xs ++ c :: ys) fs (h.splitBlock c k 0) (xs ++ c :: (c + k) :: ys) fs := by
  have hroom := hh.chain.room
  obtain ⟨-, hn, -⟩ := hh.chain.reads
  have hle := (@Chain.places h _ _ xs ys [] c hh.chain).2.2.2.2
  have hnew : c + k ∉ fs := fun hmem => hh.chain.fresh hk hlt (hh.sub _ hmem)
  have hsplit := @Chain.split h _ (· ∈ fs) _ _ xs ys c k hh.chain hk hlt hc fun _ _ _ => Iff.rfl
  rw [tag_neg hnew] at hsplit
  have hread := get_splitBlock hn hk hlt (by omega)
    (show behind h.last ys ||| 0 < 65536 by rw [Nat.or_zero]; omega)
  refine ⟨⟨hsplit, by simpa using hh.first, hh.ring.congr fun f a hf hf' => ?_, fun b hb => ?_⟩,
    rfl, rfl, fun f a hold hnew => ?_⟩
  · simp [hread, hf, hf']
  · have hin := hh.sub b hb
    grind
  · have hmem : behind h.last ys ∈ ys ++ [h.last] := behind_mem
    rw [hread]
    grind [Links]

theorem get_carve {n p q : Nat} (hn : h.nextBlock c = n) (hp : h.get .PFREE c = p)
    (hq : h.get .NFREE c = q) (hpc : p ≠ c) (hk : 0 < k) (hlt : c + k < n)
    (hmask : n ||| UMM_FREELIST_MASK < 65536) (hroom : n < 32768 ∧ p < 32768 ∧ q < 32768)
    (f : Field) (a : Nat) : (h.carve c k).get f a =
      if f = .NFREE ∧ a = c + k then q else if f = .PFREE ∧ a = q then c + k
      else if f = .PFREE ∧ a = c + k then p else if f = .NFREE ∧ a = p then c + k
      else (h.splitBlock c k UMM_FREELIST_MASK).get f a := by
  have hread := get_splitBlock hn hk hlt hroom.1 hmask
  have hp' : (h.splitBlock c k UMM_FREELIST_MASK).get .PFREE c = p := by simp [hread, hp]
  have hq' : (h.splitBlock c k UMM_FREELIST_MASK).get .NFREE c = q := by simp [hread, hq]
  simp only [carve, get_set, hp', hq']
  grind

/-- **The front of a free run is taken.** -/
theorem Repr.carve (hh : h.Repr (xs ++ c :: ys) (l ++ c :: r)) (hk : 0 < k)
    (hlt : c + k < behind h.last ys) :
    Turns h (xs ++ c :: ys) (l ++ c :: r) (h.carve c k) (xs ++ c :: (c + k) :: ys)
      (l ++ (c + k) :: r) := by
  have hroom := hh.chain.room
  obtain ⟨hp, hq, hnear⟩ := hh.neighbours
  obtain ⟨hpc, hpmem, hplt⟩ := hnear _ mem_cons_self
  obtain ⟨hqc, hqmem, hqlt⟩ := hnear _ (mem_cons_of_mem _ mem_cons_self)
  have hnodup := hh.ring.nodup
  obtain ⟨-, hn, -⟩ := hh.chain.reads
  obtain ⟨hxs, -, hys, -, hle⟩ := @Chain.places h _ _ xs ys [] c hh.chain
  have hfresh := hh.chain.fresh hk hlt
  have hfreshl : ∀ a ∈ l ++ c :: r, a ≠ c + k := fun a ha heq => hfresh (heq ▸ hh.sub a ha)
  obtain ⟨hor, hmask⟩ := or_mask (hle.trans_lt hroom)
  have hsplits := get_splitBlock hn hk hlt (by omega) (hor ▸ hmask)
  have hread := get_carve hn hp hq hpc hk hlt (hor ▸ hmask) (by omega)
  have hc : c ∉ l ++ (c + k) :: r := by grind
  have hsplit := @Chain.split h _ (· ∈ l ++ (c + k) :: r) _ _ xs ys c k hh.chain hk hlt hc
    (by grind)
  rw [tag_pos (by simp)] at hsplit
  refine ⟨⟨hsplit.congr rfl fun f a hf hf' => ?_, by simpa using hh.first, ?_, fun b hb => ?_⟩,
    rfl, rfl,
    fun f a hold hnew => ?_⟩
  · simp [hread, hf, hf']
  · have hne : before 0 l ≠ c + k ∧ behind 0 r ≠ c + k := by grind
    refine @Ring.exchange h _ [c] [c + k] l r hh.ring (by grind) ⟨⟨?_, ?_⟩, ?_, ?_⟩ ?_ ?_
    · simp [hread, hne.1]
    · simp [hread, hne.2.symm]
    · simp [hread]
    · simp [hread]
    · intro a ha hak
      rw [mem_singleton] at hak
      simp [hread, hsplits, ha, hak]
    · intro b hb hbk
      rw [mem_singleton] at hbk
      simp [hread, hsplits, hb, hbk]
  · have hin := hh.sub b
    grind
  · have hp := hh.sub (before 0 l)
    have hq := hh.sub (behind 0 r)
    have hmem : behind h.last ys ∈ ys ++ [h.last] := behind_mem
    rw [hread, hsplits]
    grind [Links]

end Heap

end Umm
