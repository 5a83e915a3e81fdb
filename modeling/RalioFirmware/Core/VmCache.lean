import Mathlib.Data.Fintype.Card
import RalioFirmware.Core.Vm

/-!
# The cache is transparent

What a program loads through the cache is what it would load from a memory of bytes.
A line that is tagged holds what the memory has there; where no line waits to be
written back, the chip has it as well, as soon as the bus is idle.  The list visits
each line once, so that the search comes to all of them and never to a null pointer.
-/

namespace Vm

open Word Bytes Links List Function

def Line.Holds (l : Line) (x : Nat) : Prop := l.addr = ((x / 64 * 64 : Nat) : Int)

instance (l : Line) (x : Nat) : Decidable (l.Holds x) :=
  inferInstanceAs (Decidable (l.addr = _))

namespace Cache

variable {c : Cache} {mem : Nat → UInt8}

/-! ## The invariant -/

/-- The list visits as many lines as there are, each of them once. -/
def Listed (c : Cache) : Prop :=
  ∃ order q, Path c.next (some c.head) order q ∧ order.Nodup ∧ order.length = cacheWays

structure Coherent (c : Cache) (mem : Nat → UInt8) : Prop where
  tagged : ∀ i, (c.lines i).addr = -1 ∨ ∃ n : Nat, (c.lines i).addr = (n * 64 : Nat)
  unique : ∀ i j, (c.lines i).addr = (c.lines j).addr → (c.lines i).addr ≠ -1 → i = j
  dirty : ∀ i, (c.lines i).dirty = true → (c.lines i).addr ≠ -1
  filled : ∀ i, (c.lines i).b.length = 64
  held : ∀ i x, (c.lines i).Holds x → (c.lines i).b[x % 64]? = some (mem x)
  behind : ∀ x, (∀ i, (c.lines i).dirty = true → ¬ (c.lines i).Holds x) →
    c.spi.wait.ram x = mem x

/-! ## The list -/

theorem Listed.all_mem (h : c.Listed) : ∃ order q, Path c.next (some c.head) order q ∧
    order.Nodup ∧ order.length = cacheWays ∧ ∀ i, i ∈ order := by
  obtain ⟨order, q, hpath, hnodup, hlen⟩ := h
  refine ⟨order, q, hpath, hnodup, hlen, fun i => ?_⟩
  have huniv : order.toFinset = Finset.univ := by
    refine Finset.eq_univ_of_card _ ?_
    rw [toFinset_card_of_nodup hnodup, hlen, Fintype.card_fin]
  rw [← mem_toFinset, huniv]
  exact Finset.mem_univ i

theorem Listed.walk_perm (h : c.Listed) :
    (walk c.next cacheWays (some c.head)).Perm (List.finRange cacheWays) := by
  obtain ⟨order, q, hpath, hnodup, hlen, hall⟩ := h.all_mem
  have hwalk := hpath.walk_eq
  rw [hlen] at hwalk
  rw [hwalk]
  exact (perm_ext_iff_of_nodup hnodup (nodup_finRange _)).mpr fun i => by simp [hall i]

theorem install_listed (ram : Nat → UInt8) : (install ram).Listed :=
  ⟨finRange cacheWays, none, ⟨rfl, rfl, rfl, rfl, rfl⟩, nodup_finRange _, rfl⟩

theorem link_next (c : Cache) (i : Fin cacheWays) (r : Option (Fin cacheWays)) :
    (c.link i r).next = update c.next i r := comp_update Line.next c.lines i _

theorem search_spec {addr : Int} {last : Fin cacheWays} {way q : Option (Fin cacheWays)}
    {rest : List (Fin cacheWays)} (h : Path c.next way rest q) :
    (∃ pre l w post, last :: rest = pre ++ l :: w :: post ∧
        c.search addr rest.length last way = .hit l w ∧ (c.lines w).addr = addr) ∨
      (∃ pre l, last :: rest = pre ++ [l] ∧ c.search addr rest.length last way = .miss l ∧
        ∀ w ∈ rest, (c.lines w).addr ≠ addr) := by
  induction rest generalizing last way with
  | nil => exact Or.inr ⟨[], last, rfl, rfl, by simp⟩
  | cons w rest ih =>
    obtain ⟨rfl, hrest⟩ := h
    rw [length_cons, search]
    by_cases htag : (c.lines w).addr = addr
    · rw [if_pos htag]
      exact Or.inl ⟨[], last, w, rest, rfl, rfl, htag⟩
    · rw [if_neg htag]
      obtain ⟨pre, l, v, post, hlist, hfound, hv⟩ | ⟨pre, l, hlist, hmiss, hnone⟩ :=
        @ih w _ hrest
      · exact Or.inl ⟨last :: pre, l, v, post, by rw [hlist]; rfl, hfound, hv⟩
      · grind

variable {pre : List (Fin cacheWays)} {q : Option (Fin cacheWays)}

theorem Listed.moveToFront {post : List (Fin cacheWays)} {l w : Fin cacheWays}
    (hpath : Path c.next (some c.head) (pre ++ l :: w :: post) q)
    (hnodup : (pre ++ l :: w :: post).Nodup)
    (hlen : (pre ++ l :: w :: post).length = cacheWays) :
    ({ (c.link l (c.next w)).link w (some c.head) with head := w } : Cache).Listed := by
  have hperm : (pre ++ l :: w :: post).Perm (w :: (pre ++ l :: post)) := by
    have := @List.perm_middle _ w (pre ++ [l]) post
    rwa [append_assoc, append_assoc] at this
  have hnodup' := hperm.nodup_iff.mp hnodup
  have hl : l ∉ pre ++ post :=
    (nodup_middle.mp (nodup_cons.mp hnodup').2 : (l :: (pre ++ post)).Nodup).notMem
  refine ⟨w :: (pre ++ l :: post), q, ?_, hnodup', by rw [← hperm.length_eq, hlen]⟩
  show Path ((c.link l (c.next w)).link w (some c.head)).next _ _ _
  rw [link_next, link_next]
  exact (hpath.unlink hl).push (nodup_cons.mp hnodup').1

theorem Listed.lastToFront {l : Fin cacheWays} (hpath : Path c.next (some c.head) (pre ++ [l]) q)
    (hnodup : (pre ++ [l]).Nodup) (hlen : (pre ++ [l]).length = cacheWays) :
    Path (update c.next l (some c.head)) (some l) (l :: pre) (some l) ∧
      (l :: pre).Nodup ∧ (l :: pre).length = cacheWays := by
  have hperm := perm_append_singleton l pre
  have hnodup' := hperm.nodup_iff.mp hnodup
  obtain ⟨r, hpre, rfl, -⟩ := path_append.mp hpath
  exact ⟨hpre.push (nodup_cons.mp hnodup').1, hnodup', by rw [← hperm.length_eq, hlen]⟩

/-! ## The bytes -/

theorem link_line (c : Cache) (i : Fin cacheWays) (r : Option (Fin cacheWays))
    (j : Fin cacheWays) :
    ((c.link i r).lines j).addr = (c.lines j).addr ∧
      ((c.link i r).lines j).dirty = (c.lines j).dirty ∧
      ((c.link i r).lines j).b = (c.lines j).b := by
  unfold link
  by_cases hj : j = i
  · subst hj
    simp only [update_self, and_self]
  · simp only [update_of_ne hj, and_self]

theorem Coherent.link (h : c.Coherent mem) (i : Fin cacheWays) (r : Option (Fin cacheWays)) :
    (c.link i r).Coherent mem := by
  have haddr := fun j => (link_line c i r j).1
  have hdirty := fun j => (link_line c i r j).2.1
  have hb := fun j => (link_line c i r j).2.2
  refine { tagged := ?_, unique := ?_, dirty := ?_, filled := ?_, held := ?_, behind := ?_ }
  · intro j
    rw [haddr]
    exact h.tagged j
  · intro j k
    rw [haddr, haddr]
    exact h.unique j k
  · intro j
    rw [haddr, hdirty]
    exact h.dirty j
  · intro j
    rw [hb]
    exact h.filled j
  · intro j x
    rw [Line.Holds, haddr, hb]
    exact h.held j x
  · intro x hx
    refine h.behind x fun j hj => ?_
    have := hx j
    rw [Line.Holds, haddr, hdirty] at this
    exact this hj

theorem Coherent.withHead (h : c.Coherent mem) (i : Fin cacheWays) :
    ({ c with head := i } : Cache).Coherent mem :=
  ⟨h.tagged, h.unique, h.dirty, h.filled, h.held, h.behind⟩

theorem install_coherent (ram : Nat → UInt8) : (install ram).Coherent ram where
  tagged _ := Or.inl rfl
  unique _ _ _ h := absurd rfl h
  dirty _ h := absurd h (by simp [install])
  filled _ := by simp [install, lineBytes]
  held i x h := by
    have : (-1 : Int) = ((x / 64 * 64 : Nat) : Int) := h
    omega
  behind _ _ := rfl

variable {l : Line} {addr : Nat}

theorem holds_iff {x : Nat} (h : l.addr = ((addr / 64 * 64 : Nat) : Int)) :
    l.Holds x ↔ x / 64 = addr / 64 := by
  unfold Line.Holds
  omega

/-! ## Eviction -/

theorem wait_writetransaction (spi : Spi) (addr : Nat) (data : List UInt8) :
    (spi.writetransaction addr data).wait.ram = overwrite spi.wait.ram addr data := rfl

theorem wait_wait (spi : Spi) : spi.wait.wait = spi.wait := by
  unfold Spi.wait
  cases hbusy : spi.busy with
  | none => simp only [hbusy]
  | some write => rfl

theorem overwrite_line {ram : Nat → UInt8} {n x : Nat} (hlen : l.b.length = 64)
    (htag : l.addr = ((n * 64 : Nat) : Int)) :
    overwrite ram l.addr.toNat l.b x =
      if x / 64 = n then l.b.getD (x % 64) 0 else ram x := by
  have hnat : l.addr.toNat = n * 64 := by rw [htag]; exact Int.toNat_natCast _
  unfold overwrite
  rw [hnat, hlen]
  by_cases hx : x / 64 = n
  · rw [if_pos (by omega), if_pos hx, show x - n * 64 = x % 64 by omega]
  · rw [if_neg (by omega), if_neg hx]

theorem Coherent.replaceLast_chip (h : c.Coherent mem) (last : Fin cacheWays) (addr x : Nat) :
    (c.replaceLast last addr).spi.wait.ram x =
      if (c.lines last).dirty = true ∧ (c.lines last).Holds x then mem x
      else c.spi.wait.ram x := by
  have hline := link_line c last (some c.head) last
  unfold Cache.replaceLast
  simp only [hline.2.1, hline.1]
  by_cases hdirty : (c.lines last).dirty = true
  · obtain htag | ⟨n, htag⟩ := h.tagged last
    · exact absurd htag (h.dirty last hdirty)
    · rw [if_pos hdirty, wait_writetransaction]
      show overwrite c.spi.wait.wait.ram _ _ x = _
      rw [wait_wait, overwrite_line (h.filled last) htag]
      by_cases hx : x / 64 = n
      · have hholds : (c.lines last).Holds x := by
          rw [Line.Holds, htag, hx]
        rw [if_pos hx, if_pos ⟨hdirty, hholds⟩, getD_eq_getElem?_getD,
          h.held last x hholds]
        rfl
      · rw [if_neg hx, if_neg]
        rintro ⟨-, hholds⟩
        rw [Line.Holds, htag] at hholds
        omega
  · rw [if_neg hdirty, if_neg (fun hboth => hdirty hboth.1)]
    show c.spi.wait.wait.ram x = _
    rw [wait_wait]

/-- **The last line can make room for any other.** -/
theorem Coherent.replaceLast (h : c.Coherent mem) {last : Fin cacheWays}
    (hmiss : ∀ i, (c.lines i).addr ≠ ((addr / 64 * 64 : Nat) : Int)) :
    (c.replaceLast last (addr / 64 * 64)).Coherent mem := by
  have hram : ∀ x, x / 64 = addr / 64 → c.spi.wait.ram x = mem x := fun x hx =>
    h.behind x fun i _ hi => hmiss i (by rw [← hx]; exact hi)
  have hchip := h.replaceLast_chip last (addr / 64 * 64)
  have hnew : (c.replaceLast last (addr / 64 * 64)).lines last =
      { addr := ((addr / 64 * 64 : Nat) : Int), dirty := false, next := some c.head,
        b := (range lineBytes).map fun i => c.spi.wait.ram (addr / 64 * 64 + i) } := by
    simp only [Cache.replaceLast, Cache.link, update_self, Spi.readtransaction]
  have hold : ∀ j, j ≠ last → (c.replaceLast last (addr / 64 * 64)).lines j = c.lines j := by
    intro j hj
    simp only [Cache.replaceLast, Cache.link, update_of_ne hj]
  refine { tagged := ?_, unique := ?_, dirty := ?_, filled := ?_, held := ?_, behind := ?_ }
  · intro i
    by_cases hi : i = last
    · subst hi
      rw [hnew]
      exact Or.inr ⟨_, rfl⟩
    · rw [hold i hi]
      exact h.tagged i
  · intro i j htag hvalid
    by_cases hi : i = last
    · by_cases hj : j = last
      · rw [hi, hj]
      · subst hi
        rw [hnew, hold j hj] at htag
        exact absurd htag.symm (hmiss j)
    · rw [hold i hi] at htag hvalid
      by_cases hj : j = last
      · subst hj
        rw [hnew] at htag
        exact absurd htag (hmiss i)
      · rw [hold j hj] at htag
        exact h.unique i j htag hvalid
  · intro i hdirty
    by_cases hi : i = last
    · subst hi
      rw [hnew] at hdirty
      cases hdirty
    · rw [hold i hi] at hdirty ⊢
      exact h.dirty i hdirty
  · intro i
    by_cases hi : i = last
    · subst hi
      rw [hnew]
      simp [lineBytes]
    · rw [hold i hi]
      exact h.filled i
  · intro i x hx
    by_cases hi : i = last
    · subst hi
      rw [hnew] at hx ⊢
      have hsame : x / 64 = addr / 64 := (holds_iff rfl).mp hx
      simp only [getElem?_map, lineBytes]
      rw [getElem?_range (by omega), Option.map_some,
        show addr / 64 * 64 + x % 64 = x by omega, hram x hsame]
    · rw [hold i hi] at hx ⊢
      exact h.held i x hx
  · intro x hx
    rw [hchip]
    split
    · rfl
    · rename_i hclean
      refine h.behind x fun i hdirty hholds => ?_
      by_cases hi : i = last
      · subst hi
        exact hclean ⟨hdirty, hholds⟩
      · have := hx i
        rw [hold i hi] at this
        exact this hdirty hholds

theorem replaceLast_next (c : Cache) (last : Fin cacheWays) (addr : Nat) :
    (c.replaceLast last addr).next = update c.next last (some c.head) := by
  rw [← link_next]
  exact (comp_update Line.next (c.link last (some c.head)).lines last _).trans (update_eq_self _ _)

theorem replaceLast_addr (c : Cache) (last : Fin cacheWays) (addr : Nat) :
    ((c.replaceLast last addr).lines last).addr = addr := by
  simp only [Cache.replaceLast, update_self]

/-- **The line of a place comes to the front, whichever way.** -/
theorem flushrefill_spec (hlist : c.Listed) (h : c.Coherent mem) (addr : Nat) :
    ∃ c', c.flushrefill addr = some c' ∧ c'.Listed ∧ c'.Coherent mem ∧
      (c'.lines c'.head).addr = ((addr / 64 * 64 : Nat) : Int) := by
  unfold flushrefill
  simp only
  by_cases hhead : (c.lines c.head).addr = ((addr / lineBytes * lineBytes : Nat) : Int)
  · rw [if_pos hhead]
    exact ⟨c, rfl, hlist, h, hhead⟩
  · rw [if_neg hhead]
    obtain ⟨order, q, hpath, hnodup, hlen, hall⟩ := hlist.all_mem
    cases order with
    | nil => cases hlen
    | cons first rest =>
      obtain ⟨hfirst, hrest⟩ := hpath
      obtain rfl := Option.some.inj hfirst
      have hcount : rest.length = cacheWays - 1 := by grind
      obtain ⟨pre, l, w, post, horder, hfound, htag⟩ | ⟨pre, l, horder, hmiss, hnone⟩ :=
        @search_spec c ((addr / lineBytes * lineBytes : Nat) : Int) c.head _ _ _ hrest
      · rw [hcount] at hfound
        rw [hfound]
        have hpath : Path c.next (some c.head) (pre ++ l :: w :: post) q := by
          rw [← horder]
          exact ⟨rfl, hrest⟩
        rw [horder] at hnodup hlen
        refine ⟨_, rfl, Listed.moveToFront hpath hnodup hlen, ?_, ?_⟩
        · exact ((h.link l _).link w _).withHead w
        · show (((c.link l (c.next w)).link w (some c.head)).lines w).addr = _
          rw [(link_line _ _ _ _).1, (link_line _ _ _ _).1]
          exact htag
      · rw [hcount] at hmiss
        rw [hmiss]
        have habsent : ∀ i, (c.lines i).addr ≠ ((addr / 64 * 64 : Nat) : Int) := by
          intro i
          rcases mem_cons.mp (hall i) with rfl | hi
          · exact hhead
          · exact hnone i hi
        have hpath : Path c.next (some c.head) (pre ++ [l]) q := by
          rw [← horder]
          exact ⟨rfl, hrest⟩
        rw [horder] at hnodup hlen
        obtain ⟨hlinked, hnodup', hlen'⟩ := Listed.lastToFront hpath hnodup hlen
        refine ⟨_, rfl, ⟨l :: pre, some l, ?_, hnodup', hlen'⟩, h.replaceLast habsent, ?_⟩
        · rw [replaceLast_next]
          exact hlinked
        · exact replaceLast_addr c l _

/-! ## Loads and stores -/

theorem place_offset (p : Place) :
    p.addr % 64 / p.width.bytes * p.width.bytes = p.addr % 64 ∧
      p.addr % 64 + p.width.bytes ≤ 64 := by
  have haligned := p.aligned
  cases hwidth : p.width <;> rw [hwidth] at haligned <;>
    simp only [Width.bytes] at haligned ⊢ <;> omega

theorem place_addr {p : Place} (htag : l.addr = ((p.addr / 64 * 64 : Nat) : Int)) :
    ((p.addr : Int) - l.addr).toNat = p.addr % 64 := by
  rw [htag]
  omega

theorem ramread_spec (hlist : c.Listed) (h : c.Coherent mem) (p : Place) :
    ∃ c', c.ramread p =
        some (ofLe ((List.range p.width.bytes).map fun i => mem (p.addr + i)), c') ∧
      c'.Listed ∧ c'.Coherent mem := by
  obtain ⟨c', hc', hlist', h', htag⟩ := flushrefill_spec hlist h p.addr
  obtain ⟨hoff, hend⟩ := place_offset p
  refine ⟨c', ?_, hlist', h'⟩
  unfold ramread
  rw [hc', Option.map_some]
  simp only [place_addr htag, hoff]
  congr 3
  apply ext_getElem?
  intro i
  rw [getElem?_take, getElem?_map]
  split
  · rename_i hi
    have hholds : (c'.lines c'.head).Holds (p.addr + i) := (holds_iff htag).mpr (by omega)
    have hbyte := h'.held _ _ hholds
    rw [show (p.addr + i) % 64 = p.addr % 64 + i by omega] at hbyte
    rw [getElem?_drop, hbyte, getElem?_range hi, Option.map_some]
  · grind

theorem ramwrite_spec (hlist : c.Listed) (h : c.Coherent mem) (p : Place) (val : Nat) :
    ∃ c', c.ramwrite p val = some c' ∧ c'.Listed ∧
      c'.Coherent (overwrite mem p.addr ((le32 val).take p.width.bytes)) := by
  obtain ⟨c', hc', hlist', h', htag⟩ := flushrefill_spec hlist h p.addr
  obtain ⟨hoff, hend⟩ := place_offset p
  have hbytes : ((le32 val).take p.width.bytes).length = p.width.bytes := by
    rw [length_take, le32_length]
    cases p.width <;> decide
  unfold ramwrite
  rw [hc', Option.map_some]
  simp only [place_addr htag, hoff]
  generalize hdata : (le32 val).take p.width.bytes = data at hbytes ⊢
  have hin : p.addr % 64 + data.length ≤ (c'.lines c'.head).b.length := by
    rw [h'.filled, hbytes]
    exact hend
  -- Outside the line of the place the memory stays as it is.
  have houtside : ∀ x, x / 64 ≠ p.addr / 64 → overwrite mem p.addr data x = mem x := by
    intro x hx
    exact if_neg (by omega)
  refine ⟨_, rfl, ?_, ?_⟩
  · obtain ⟨order, q, hpath, hshape⟩ := hlist'
    have hnext := comp_update Line.next c'.lines c'.head
      { c'.lines c'.head with
        dirty := true, b := memcpy (c'.lines c'.head).b (p.addr % 64) data }
    exact ⟨order, q, hpath.congr fun i _ => congrFun (hnext.trans (update_eq_self _ _)) i, hshape⟩
  · refine { tagged := ?_, unique := ?_, dirty := ?_, filled := ?_, held := ?_, behind := ?_ }
    · intro i
      by_cases hi : i = c'.head
      · subst hi
        simpa only [update_self] using h'.tagged c'.head
      · simpa only [update_of_ne hi] using h'.tagged i
    · have haddr : ∀ i, (update c'.lines c'.head
          { c'.lines c'.head with
            dirty := true, b := memcpy (c'.lines c'.head).b (p.addr % 64) data } i).addr =
          (c'.lines i).addr :=
        congrFun ((comp_update Line.addr c'.lines c'.head _).trans (update_eq_self _ _))
      intro i j
      simp only [haddr]
      exact h'.unique i j
    · intro i
      by_cases hi : i = c'.head
      · subst hi
        simp only [update_self]
        intro _
        rw [htag]
        omega
      · simpa only [update_of_ne hi] using h'.dirty i
    · intro i
      by_cases hi : i = c'.head
      · subst hi
        simp only [update_self]
        rw [memcpy_length hin]
        exact h'.filled _
      · simpa only [update_of_ne hi] using h'.filled i
    · intro i x
      by_cases hi : i = c'.head
      · subst hi
        simp only [update_self]
        intro hx
        have hsame := (holds_iff htag).mp hx
        rw [memcpy_getElem? hin]
        unfold overwrite
        by_cases hrange : p.addr ≤ x ∧ x < p.addr + data.length
        · rw [if_pos (by omega), if_pos hrange, getD_eq_getElem?_getD,
            show x % 64 - p.addr % 64 = x - p.addr by omega,
            getElem?_eq_getElem (by omega), Option.getD_some]
        · rw [if_neg (by omega), if_neg hrange]
          exact h'.held _ x hx
      · simp only [update_of_ne hi]
        intro hx
        rw [houtside, h'.held i x hx]
        intro hsame
        refine hi (h'.unique i c'.head ?_ ?_)
        · rw [htag, ← hsame]
          exact hx
        · rw [show (c'.lines i).addr = _ from hx]
          omega
    · intro x hx
      have hhead := hx c'.head
      simp only [update_self] at hhead
      rw [houtside x fun hsame => hhead trivial ((holds_iff htag).mpr hsame)]
      refine h'.behind x fun i hdirty hholds => ?_
      by_cases hi : i = c'.head
      · subst hi
        exact hhead trivial hholds
      · have := hx i
        simp only [update_of_ne hi] at this
        exact this hdirty hholds

end Cache

/-! ## Programs -/

open Cache

theorem run_spec (accesses : List Access) {c : Cache} {mem : Nat → UInt8} (hlist : c.Listed)
    (h : c.Coherent mem) :
    ∃ c', run accesses c = some ((flatRun accesses mem).1, c') ∧ c'.Listed ∧
      c'.Coherent (flatRun accesses mem).2 := by
  induction accesses generalizing c mem with
  | nil => exact ⟨c, rfl, hlist, h⟩
  | cons access rest ih =>
    cases access with
    | load p =>
      obtain ⟨c₁, hread, hlist₁, h₁⟩ := ramread_spec hlist h p
      obtain ⟨c', hrun, hc'⟩ := ih hlist₁ h₁
      refine ⟨c', ?_, hc'⟩
      simp only [run, hread, hrun, flatRun, Option.map_some]
    | store p val =>
      obtain ⟨c₁, hwrite, hlist₁, h₁⟩ := ramwrite_spec hlist h p val
      obtain ⟨c', hrun, hc'⟩ := ih hlist₁ h₁
      refine ⟨c', ?_, hc'⟩
      simp only [run, hwrite, Option.bind_some, hrun, flatRun]

/-- **The cache is transparent.**  Whatever a program loads and stores, each load returns
what a memory of bytes would give, the list visits every line once within its first nodes,
and no two lines that are in use hold the same tag. -/
theorem run_transparent (accesses : List Access) (ram : Nat → UInt8) :
    ∃ c, run accesses (install ram) = some ((flatRun accesses ram).1, c) ∧
      (walk c.next cacheWays (some c.head)).Perm (List.finRange cacheWays) ∧
      ∀ i j, i ≠ j → (c.lines i).addr = (c.lines j).addr → (c.lines i).addr = -1 := by
  obtain ⟨c, hrun, hlist, h⟩ := run_spec accesses (install_listed ram) (install_coherent ram)
  refine ⟨c, hrun, hlist.walk_perm, fun i j hij htag => ?_⟩
  by_contra hvalid
  exact hij (h.unique i j htag hvalid)

/-- Before the first access all lines hold the tag of a line not in use. -/
theorem not_run_transparent :
    ¬ ∀ (accesses : List Access) (ram : Nat → UInt8) (vals : List Nat) (c : Cache),
      run accesses (install ram) = some (vals, c) →
        ∀ i j, i ≠ j → (c.lines i).addr ≠ (c.lines j).addr := fun h =>
  h [] (fun _ => 0) [] (install fun _ => 0) rfl ⟨0, by decide⟩ ⟨1, by decide⟩ (by decide) rfl

end Vm
