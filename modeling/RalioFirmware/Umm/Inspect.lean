import RalioFirmware.Umm.Sessions

/-!
# Looking at the heap

`umm_info` goes through the runs and adds up what there is, and `umm_integrity_check` goes through
the free list and then through the runs, with marks in the numbers that lead back.
-/

namespace Umm

open Between List

/-- `UMM_HEAP_INFO`. -/
structure Info where
  totalEntries : Nat
  usedEntries : Nat
  freeEntries : Nat
  totalBlocks : Nat
  usedBlocks : Nat
  freeBlocks : Nat
  freeBlocksSquared : Nat
  maxFreeContiguousBlocks : Nat

def Info.clear : Info := ⟨0, 0, 0, 0, 0, 0, 0, 0⟩

/-- One run is added: its sums stay below 32 bits. -/
def Info.add (i : Info) (isFree : Bool) (curBlocks : Nat) : Info :=
  let i := { i with totalEntries := i.totalEntries + 1, totalBlocks := i.totalBlocks + curBlocks }
  if isFree then
    { i with
      freeEntries := i.freeEntries + 1
      freeBlocks := i.freeBlocks + curBlocks
      freeBlocksSquared := i.freeBlocksSquared + curBlocks * curBlocks
      maxFreeContiguousBlocks :=
        if i.maxFreeContiguousBlocks < curBlocks then curBlocks else i.maxFreeContiguousBlocks }
  else { i with usedEntries := i.usedEntries + 1, usedBlocks := i.usedBlocks + curBlocks }

namespace Heap

/-- The loop of `umm_info`; the fuel is the number of blocks. -/
def infoLoop (h : Heap) (ptr : Option Nat) : Nat → Nat → Info → Option Nat × Info
  | 0, _, i => (none, i)
  | fuel + 1, blockNo, i =>
    if h.nextBlock blockNo = 0 then (none, i)
    else
      let curBlocks := (((h.nextBlock blockNo : Int) - blockNo) % 2 ^ 32).toNat
      let i := i.add (h.isFree blockNo) curBlocks
      if h.isFree blockNo ∧ ptr = some (8 * blockNo) then (ptr, i)
      else infoLoop h ptr fuel (h.nextBlock blockNo) i

/-- `umm_info`, and the pointer if it is a free run's. -/
def info (h : Heap) (ptr : Option Nat) : Option Nat × Info :=
  h.infoLoop ptr h.numblocks (h.nextBlock 0) .clear

/-- The loop of `umm_integrity_check` over the free list. -/
def checkFree : Nat → Nat → Heap → Bool × Heap
  | 0, _, h => (false, h)
  | fuel + 1, prev, h =>
    let cur := h.get .NFREE prev
    if cur ≥ h.numblocks then (false, h)
    else if cur = 0 then (true, h)
    else if h.get .PFREE cur ≠ prev then (false, h)
    else checkFree fuel cur (h.set .PBLOCK cur (h.get .PBLOCK cur ||| UMM_FREELIST_MASK))

/-- The loop of `umm_integrity_check` over the runs. -/
def checkRuns : Nat → Nat → Heap → Bool × Heap
  | 0, _, h => (false, h)
  | fuel + 1, prev, h =>
    let cur := h.nextBlock prev
    if cur ≥ h.numblocks then (false, h)
    else if cur = 0 then (true, h)
    else if h.get .NBLOCK cur &&& UMM_FREELIST_MASK ≠ h.get .PBLOCK cur &&& UMM_FREELIST_MASK then
      (false, h)
    else if cur ≤ prev then (false, h)
    else
      let h := h.set .PBLOCK cur (h.get .PBLOCK cur &&& UMM_BLOCKNO_MASK)
      if h.get .PBLOCK cur ≠ prev then (false, h) else checkRuns fuel cur h

/-- `umm_integrity_check`. -/
def integrityCheck (h : Heap) : Bool × Heap :=
  match checkFree (h.numblocks + 1) 0 h with
  | (true, h) => checkRuns (h.numblocks + 1) 0 h
  | (false, h) => (false, h)

variable {h : Heap} {bs fs xs ys : List Nat} {t : List (Nat × Nat)} {ps : List Piece} {n : Nat}
variable {i : Info}

/-! ## The figures -/

/-- What the runs of a list add up to. -/
def tally (e : Nat) (fs : List Nat) : List Nat → Info → Info
  | [], i => i
  | x :: l, i => tally e fs l (i.add (x ∈ fs) (behind e l - x))

theorem Repr.infoLoop {fuel : Nat} (hh : h.Repr (xs ++ ys) fs) (hfuel : ys.length ≤ fuel) :
    h.infoLoop none fuel (behind h.last ys) i = (none, tally h.last fs ys i) := by
  induction ys generalizing xs fuel i with
  | nil =>
    cases fuel with
    | zero => rfl
    | succ fuel =>
      have hends : h.nextBlock h.last = 0 := by
        rw [nextBlock, hh.chain.ends]
        rfl
      rw [Heap.infoLoop, behind_nil, if_pos hends]
      rfl
  | cons x l ih =>
    cases fuel with
    | zero => exact absurd hfuel (Nat.not_succ_le_zero _)
    | succ fuel =>
      obtain ⟨-, hnext, hfree⟩ := hh.chain.reads
      obtain ⟨hsize, -⟩ := hh.size_eq
      have hlt := hh.chain.adjoins.1.lt
      have hroom := hh.chain.room
      have hle := (@Chain.places h _ _ xs l [] x hh.chain).2.2.2.2
      have hcur : (((behind h.last l : Nat) - x : Int) % 2 ^ 32).toNat = behind h.last l - x := by
        omega
      rw [append_cons] at hh
      rw [Heap.infoLoop, behind_cons, hnext, if_neg (by omega), hcur, if_neg (by simp)]
      simp only [hfree]
      exact ih hh (Nat.le_of_succ_le_succ hfuel)

theorem tally_used {e : Nat} {l : List Nat} :
    (tally e fs l i).usedEntries = i.usedEntries + (used e fs l).length ∧
      (tally e fs l i).usedBlocks = i.usedBlocks + total (used e fs l) := by
  induction l generalizing i with
  | nil => exact ⟨rfl, rfl⟩
  | cons x l ih =>
    obtain ⟨hentries, hblocks⟩ := @ih (i.add (x ∈ fs) (behind e l - x))
    rw [tally, hentries, hblocks]
    by_cases hx : x ∈ fs
    · simp [Info.add, used, hx]
    · simp only [Info.add, used, hx, decide_false, if_false, Bool.false_eq_true, total, map_cons,
        sum_cons, length_cons]
      omega

theorem tally_total {e : Nat} {l : List Nat} (hl : (l ++ [e]).Pairwise (· < ·)) :
    (tally e fs l i).totalBlocks + behind e l = i.totalBlocks + e ∧
      (tally e fs l i).freeBlocks + (tally e fs l i).usedBlocks + i.totalBlocks =
        (tally e fs l i).totalBlocks + i.freeBlocks + i.usedBlocks := by
  induction l generalizing i with
  | nil => exact ⟨rfl, by simp only [tally]; omega⟩
  | cons x l ih =>
    obtain ⟨hx, hl⟩ := pairwise_cons.mp hl
    have hlt := hx _ behind_mem
    have hrest := @ih (i.add (x ∈ fs) (behind e l - x)) hl
    rw [tally, behind_cons]
    revert hrest
    generalize tally e fs l _ = j
    by_cases hmem : x ∈ fs
    · simp only [Info.add, hmem, decide_true, if_true]
      omega
    · simp only [Info.add, hmem, decide_false, if_false, Bool.false_eq_true]
      omega

theorem Repr.tally_max {k : Nat} (hh : h.Repr (xs ++ ys) fs) :
    (tally h.last fs ys i).maxFreeContiguousBlocks < k ↔
      i.maxFreeContiguousBlocks < k ∧ ∀ b ∈ ys, b ∈ fs → h.size b < k := by
  induction ys generalizing xs i with
  | nil => simp [tally]
  | cons x l ih =>
    obtain ⟨hsize, -⟩ := hh.size_eq
    rw [append_cons] at hh
    rw [tally, ih hh, forall_mem_cons, hsize, ← and_assoc]
    refine and_congr_left' ?_
    by_cases hmem : x ∈ fs
    · simp only [Info.add, hmem, decide_true, if_true, forall_const]
      split <;> omega
    · simp [Info.add, hmem]

/-! ## The marks of the check -/

/-- The heap while the numbers that lead back from some runs are marked. -/
def marks (h : Heap) (P : Nat → Prop) [DecidablePred P] : Heap :=
  { h with
    mem := fun i => if i % 4 = 1 ∧ P (i / 4) then h.mem i ||| UMM_FREELIST_MASK else h.mem i }

section

variable {P Q : Nat → Prop} [DecidablePred P] [DecidablePred Q] {f : Field} {c v : Nat}

theorem get_marks : (h.marks P).get f c =
    if f = .PBLOCK ∧ P c then h.get f c ||| UMM_FREELIST_MASK else h.get f c := by
  have hplace : (4 * c + f.place) % 4 = 1 ↔ f = .PBLOCK := by cases f <;> simp [Field.place]
  have hblock : (4 * c + f.place) / 4 = c := by cases f <;> simp only [Field.place] <;> omega
  simp only [get, marks, hplace, hblock]

theorem marks_congr (hsame : ∀ b, P b ↔ Q b) : h.marks P = h.marks Q := by
  simp only [marks, hsame]

theorem marks_none (hno : ∀ b, ¬P b) : h.marks P = h := by
  simp only [marks, hno, and_false, if_false]

theorem set_marks (hv : v % 65536 = (h.marks Q).get .PBLOCK c) (hsame : ∀ b, b ≠ c → (Q b ↔ P b)) :
    (h.marks P).set .PBLOCK c v = h.marks Q := by
  suffices hmem : Function.update (h.marks P).mem (4 * c + 1) (v % 65536) = (h.marks Q).mem by
    rw [Heap.set, Field.place, hmem]
    rfl
  funext i
  by_cases hi : i = 4 * c + 1
  · rw [hi, Function.update_self, hv]
    rfl
  · have hkeep : i % 4 = 1 ∧ P (i / 4) ↔ i % 4 = 1 ∧ Q (i / 4) :=
      and_congr_right fun hmod => (hsame (i / 4) (by omega)).symm
    rw [Function.update_of_ne hi]
    simp only [marks, hkeep]

/-- Over the free list every run of it is marked. -/
theorem Ring.checkFree {l r : List Nat} {fuel : Nat} (hr : h.Ring (l ++ r))
    (hlt : ∀ b ∈ 0 :: (l ++ r), b < h.numblocks) (hprev : ∀ b ∈ r, h.get .PBLOCK b < 32768)
    (hfuel : r.length < fuel) :
    Heap.checkFree fuel (before 0 l) (h.marks (· ∈ l)) = (true, h.marks (· ∈ l ++ r)) := by
  induction r generalizing l fuel with
  | nil =>
    obtain ⟨fuel, rfl⟩ := Nat.exists_eq_succ_of_ne_zero (Nat.ne_of_gt hfuel)
    have hcur : (h.marks (· ∈ l)).get .NFREE (before 0 l) = 0 := by
      rw [get_marks, if_neg (by simp)]
      exact (linked_append.mp hr.linked).2.next
    have hroom : ¬0 ≥ (h.marks (· ∈ l)).numblocks := Nat.not_le.mpr (hlt 0 mem_cons_self)
    rw [Heap.checkFree, hcur, if_neg hroom, if_pos rfl]
    simp only [append_nil]
  | cons b r ih =>
    obtain ⟨fuel, rfl⟩ := Nat.exists_eq_succ_of_ne_zero (Nat.ne_of_gt (Nat.zero_lt_of_lt hfuel))
    have hlink := (linked_append.mp hr.linked).2.1
    have hnodup := hr.nodup
    have hb : b ∉ l ∧ b ≠ 0 := by grind
    have hcur : (h.marks (· ∈ l)).get .NFREE (before 0 l) = b := by
      rw [get_marks, if_neg (by simp), hlink.next]
    have hback : (h.marks (· ∈ l)).get .PFREE b = before 0 l := by
      rw [get_marks, if_neg (by simp), hlink.prev]
    have hsmall := hprev b mem_cons_self
    obtain ⟨hor, hmask⟩ := or_mask hsmall
    have hset := @set_marks h (· ∈ l) (· ∈ l ++ [b]) _ _ b
      ((h.marks (· ∈ l)).get .PBLOCK b ||| UMM_FREELIST_MASK) (by
        rw [get_marks, get_marks, if_neg fun hand => hb.1 hand.2, if_pos ⟨rfl, by simp⟩, hor]
        exact Nat.mod_eq_of_lt hmask) (by grind)
    have hroom : ¬b ≥ (h.marks (· ∈ l)).numblocks := Nat.not_le.mpr (hlt b (by simp))
    rw [Heap.checkFree, hcur, if_neg hroom, if_neg hb.2, hback, if_neg (not_not.mpr rfl), hset]
    rw [append_cons] at hr hlt
    have hrest := ih hr hlt (fun c hc => hprev c (mem_cons_of_mem b hc))
      (Nat.lt_of_succ_lt_succ hfuel)
    rw [before_append] at hrest
    simp only [append_cons l b r]
    exact hrest

theorem Repr.tagged {b : Nat} (hh : h.Repr bs fs) (hb : b ∈ bs ++ [h.last]) :
    ∃ m < 32768, h.get .NBLOCK b = m + tag (b ∈ fs) := by
  have hroom := hh.chain.room
  rcases mem_append.mp hb with hb | hb
  · obtain ⟨xs, ys, rfl⟩ := append_of_mem hb
    have hle := (@Chain.places h _ _ xs ys [] b hh.chain).2.2.2.2
    exact ⟨_, by omega, hh.chain.reads.1⟩
  · obtain rfl := mem_singleton.mp hb
    have hnot : h.last ∉ fs := fun hmem => Nat.lt_irrefl _ (hh.lt (mem_cons_of_mem 0 hmem))
    exact ⟨0, by decide, by rw [hh.chain.ends, tag_neg hnot]⟩

/-- One run further: its mark is taken away. -/
theorem Repr.checkRun {fuel : Nat} (hh : h.Repr (xs ++ ys) fs)
    (hP : P (behind h.last ys) ↔ behind h.last ys ∈ fs) (hQ : ¬Q (behind h.last ys))
    (hsame : ∀ b, b ≠ behind h.last ys → (Q b ↔ P b)) :
    Heap.checkRuns (fuel + 1) (before 0 xs) (h.marks P) =
      Heap.checkRuns fuel (behind h.last ys) (h.marks Q) := by
  have hadj := (linked_append.mp hh.chain.linked).2.first
  have hroom := hh.chain.room
  have hmem : behind h.last ys ∈ xs ++ ys ++ [h.last] := by
    have hmem : behind h.last ys ∈ ys ++ [h.last] := behind_mem
    grind
  have hle := hh.chain.le hmem
  obtain ⟨m, hm, hnext⟩ := hh.tagged hmem
  generalize hcur : behind h.last ys = cur at *
  generalize before 0 xs = prev at *
  have hlt := hadj.lt
  have hlast : h.last = h.numblocks - 1 := rfl
  have hcap : ¬cur ≥ (h.marks P).numblocks := by
    show ¬cur ≥ h.numblocks
    omega
  have hor := (@or_mask prev (by omega)).1
  have hread : (h.marks P).nextBlock prev = cur := by
    rw [nextBlock, get_marks, if_neg (by simp), hadj.next]
    exact tagged_blockno (by omega)
  have hn : (h.marks P).get .NBLOCK cur &&& UMM_FREELIST_MASK = tag (cur ∈ fs) := by
    rw [get_marks, if_neg (by simp), hnext]
    exact tagged_mark hm
  have hp : (h.marks P).get .PBLOCK cur = prev + tag (cur ∈ fs) := by
    rw [get_marks, hadj.prev, hor]
    by_cases hfree : cur ∈ fs
    · rw [if_pos ⟨rfl, hP.mpr hfree⟩, tag_pos hfree]
    · rw [if_neg fun hand => hfree (hP.mp hand.2), tag_neg hfree, Nat.add_zero]
  have hq : (h.marks Q).get .PBLOCK cur = prev := by
    rw [get_marks, if_neg fun hand => hQ hand.2, hadj.prev]
  have hset := @set_marks h P Q _ _ cur prev (by rw [hq]; omega) hsame
  rw [Heap.checkRuns, hread, if_neg hcap, if_neg (by omega), hn, hp]
  rw [if_neg (not_not.mpr (tagged_mark (by omega)).symm), if_neg (by omega),
    tagged_blockno (by omega), hset]
  exact if_neg (not_not.mpr hq)

/-- Over the runs every mark is taken away. -/
theorem Repr.checkRuns {fuel : Nat} (hh : h.Repr (xs ++ ys) fs) (hfuel : ys.length + 1 < fuel) :
    Heap.checkRuns fuel (before 0 xs) (h.marks fun b => b ∈ fs ∧ b ∈ ys) = (true, h) := by
  obtain ⟨fuel, rfl⟩ := Nat.exists_eq_succ_of_ne_zero (Nat.ne_of_gt (Nat.zero_lt_of_lt hfuel))
  induction ys generalizing xs fuel with
  | nil =>
    have hlast : h.last ∉ fs := fun hmem => Nat.lt_irrefl _ (hh.lt (mem_cons_of_mem 0 hmem))
    obtain ⟨fuel, rfl⟩ := Nat.exists_eq_succ_of_ne_zero
      (Nat.ne_of_gt (Nat.lt_of_succ_lt_succ hfuel))
    have hstep := @Repr.checkRun h fs xs [] (fun b => b ∈ fs ∧ b ∈ []) (fun _ => False) _ _
      (fuel + 1) hh (by simp [hlast]) id (by simp)
    have hnext : h.nextBlock h.last = 0 := by
      rw [nextBlock, hh.chain.ends]
      rfl
    have hcap : ¬0 ≥ h.numblocks := fun hzero => by
      have hlt : 0 < h.numblocks - 1 := hh.lt mem_cons_self
      omega
    rw [hstep, marks_none fun _ => id, behind_nil, Heap.checkRuns, hnext, if_neg hcap, if_pos rfl]
  | cons b ys ih =>
    have hnodup := hh.chain.nodups.1
    have hstep := @Repr.checkRun h fs xs (b :: ys) (fun c => c ∈ fs ∧ c ∈ b :: ys)
      (fun c => c ∈ fs ∧ c ∈ ys) _ _ fuel hh (by simp) (by rw [behind_cons]; grind)
      (by rw [behind_cons]; grind)
    rw [append_cons] at hh
    have hlen := Nat.lt_of_succ_lt_succ hfuel
    obtain ⟨fuel, rfl⟩ := Nat.exists_eq_succ_of_ne_zero (Nat.ne_of_gt (Nat.zero_lt_of_lt hlen))
    have hrest := ih hh fuel hlen
    rw [before_append] at hrest
    exact hstep.trans hrest

end

end Heap

namespace Session

variable {n : Nat} {h : Heap} {ps : List Piece}

/-- **The check finds nothing**, and leaves the heap as it is. -/
theorem integrityCheck_true (hn : 3 ≤ n ∧ n ≤ 32768) (hs : Session n h ps) :
    h.integrityCheck = (true, h) := by
  obtain ⟨bs, fs, hshape⟩ := (hs.sound hn).table
  have hh := hshape.repr
  have hcap : h.last = h.numblocks - 1 := rfl
  have hroom := hh.chain.room
  have hpos := hh.lt mem_cons_self
  obtain ⟨hlen, hlen'⟩ := hh.lengths
  have hprev : ∀ b ∈ fs, h.get .PBLOCK b < 32768 := fun b hb => by
    obtain ⟨xs, ys, rfl⟩ := append_of_mem (hh.sub b hb)
    have hlt := (@Heap.Chain.places h _ _ xs ys [] b hh.chain).1 _ before_mem
    have hle := hh.lt (mem_cons_of_mem 0 hb)
    rw [hh.chain.adjoins.2]
    omega
  have hfree := @Heap.Ring.checkFree h [] fs (h.numblocks + 1) hh.ring
    (fun b hb => (hh.lt hb).trans_le (Nat.sub_le _ _)) hprev (by omega)
  have hruns := @Heap.Repr.checkRuns h fs [] bs (h.numblocks + 1) hh (by omega)
  have hsame : h.marks (· ∈ [] ++ fs) = h.marks fun b => b ∈ fs ∧ b ∈ bs :=
    Heap.marks_congr fun b => ⟨fun hb => ⟨hb, hh.sub b hb⟩, And.left⟩
  rw [Heap.marks_none fun b => not_mem_nil, hsame] at hfree
  rw [Heap.integrityCheck, show Heap.checkFree (h.numblocks + 1) 0 h = _ from hfree]
  exact hruns

theorem integrityCheck_true_eight : eight.integrityCheck = (true, eight) :=
  integrityCheck_true (by decide) eight_session

/-- **The figures are those of what the callers hold**, and of what they can still get. -/
theorem info_agrees (hn : 3 ≤ n ∧ n ≤ 32768) (hs : Session n h ps) :
    (h.info none).2.usedEntries = ps.length ∧
      (h.info none).2.usedBlocks = (ps.map Piece.blocks).sum ∧
      (h.info none).2.freeBlocks = h.free_blocks ∧ (h.info none).2.totalBlocks + 2 = n ∧
      ∀ size, size ≠ 0 →
        ((h.malloc size).1 = none ↔ (h.info none).2.maxFreeContiguousBlocks < blocks size) := by
  have hsound := hs.sound hn
  obtain ⟨bs, fs, hshape⟩ := hsound.table
  have hsorted := (pairwise_cons.mp hshape.repr.chain.sorted).2
  have hlen : bs.length ≤ h.numblocks := hshape.repr.lengths.1.trans (Nat.sub_le _ _)
  have hroom := hshape.repr.chain.room
  have hinfo : (h.info none).2 = Heap.tally h.last fs bs .clear := by
    have hzero : 0 ∉ fs := (nodup_cons.mp hshape.repr.ring.nodup).1
    have hnext : h.nextBlock 0 = behind h.last bs := by
      rw [Heap.nextBlock, hshape.repr.chain.linked.first.next]
      exact tagged_blockno ((hshape.repr.chain.le behind_mem).trans_lt hroom)
    rw [Heap.info, hnext, @Heap.Repr.infoLoop h fs [] bs _ _ hshape.repr hlen]
  have hused := @Heap.tally_used fs .clear h.last bs
  have htotal := @Heap.tally_total fs .clear h.last bs hsorted
  have hmax := @Heap.Repr.tally_max h fs [] bs .clear
  have hcount := hshape.count
  have hfirst := hshape.repr.first
  have hlast := hsound.last
  have hsum : total (ps.map Piece.run) = (ps.map Piece.blocks).sum := sum_runs
  rw [← total_perm hshape.table, hsum] at hused
  rw [hfirst] at htotal
  rw [hsum] at hcount
  rw [hinfo]
  simp only [Info.clear, Nat.zero_add, Nat.add_zero] at hused htotal hmax ⊢
  refine ⟨?_, ?_, by omega, by omega, fun size hsize => ?_⟩
  · rw [hused.1, ← hshape.table.length_eq, length_map]
  · exact hused.2
  · rw [hmax hshape.repr, Heap.malloc, if_neg hsize]
    rcases hshape.repr.picked size blocks_pos with ⟨heq, hsmall⟩ | ⟨c, hc, hle, -, heq⟩
    · rw [heq]
      exact iff_of_true rfl ⟨blocks_pos, fun b _ hb => hsmall b hb⟩
    · rw [heq]
      refine iff_of_false (Option.some_ne_none _) fun hall => ?_
      exact Nat.not_lt.mpr hle (hall.2 c (hshape.repr.sub c hc) hc)

theorem info_agrees_eight : (eight.info none).2.usedBlocks = piece.blocks :=
  (info_agrees (by decide) eight_session).2.1

end Session

end Umm
