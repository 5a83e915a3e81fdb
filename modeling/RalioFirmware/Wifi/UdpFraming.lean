import Mathlib.Algebra.GroupWithZero.Nat
import RalioFirmware.Wifi.UdpReceive

/-!
# Datagrams are read as they arrived

`Reader` says what the calls of a sketch should come to: datagrams wait in the order of
their arrival, `next` selects the first, and everything else is about the one that is
selected.  `UdpContext` gives the same answers from its chain, with one exception: the
datagram that arrives on an empty chain is at hand before `next` has selected it.
-/

namespace Udp

open Pbuf Runs List

structure Datagram where
  source : Source
  segs : List (Content AddrHelper)
  nonempty : segs ≠ []
  unmarked : ∀ c ∈ segs, c.flags ≠ helperFlag
  short : (bytes segs).length < 65536

def Datagram.data (d : Datagram) : List UInt8 := bytes d.segs

inductive Out
  | nothing
  | found (b : Bool)
  | byte (c : Option UInt8)
  | bytes (cs : List UInt8)
  | offset (n : Nat)
  | address (a : IPAddress)
  | port (p : UInt16)
deriving DecidableEq

/-- What happens next: a datagram arrives in buffers at some addresses, and `pbuf_alloc`
finds room for a helper or not; or the sketch calls something. -/
inductive Call
  | recv (d : Datagram) (addrs : List Ptr) (alloc : Option (Ptr × List UInt8))
  | next
  | read
  | readBuf (size : Nat)
  | peek
  | flush
  | seek (pos : Nat)
  | tell
  | getRemoteAddress
  | getRemotePort

/-! ## What the calls should come to -/

/-- The datagrams that wait, the one that is selected and how far it is read, and the source
of the one that was selected last. -/
structure Reader where
  waiting : List Datagram
  current : Option Datagram
  pos : Nat
  source : Source

namespace Reader

def data (r : Reader) : List UInt8 := (r.current.map Datagram.data).getD []

/-- The buffers in use: those of the datagrams, and one more for each but the first. -/
def depth (r : Reader) : Nat :=
  ((r.current.toList ++ r.waiting).map fun d => d.segs.length + 1).sum - 1

/-- A datagram is accepted unless there are too many buffers, or no room for one more. -/
def accepts (r : Reader) (room : Bool) : Bool :=
  r.depth < 8 && (r.depth = 0 || room)

def call (r : Reader) : Call → Except Halt (Out × Reader)
  | .recv d _ alloc =>
    .ok (.nothing, if r.accepts alloc.isSome then { r with waiting := r.waiting ++ [d] } else r)
  | .next =>
    match r.waiting with
    | [] => .ok (.found false, { r with current := none, pos := 0 })
    | d :: rest => .ok (.found true, ⟨rest, some d, 0, d.source⟩)
  | .read => .ok (.byte r.data[r.pos]?, { r with pos := min (r.pos + 1) r.data.length })
  | .readBuf size =>
    .ok (.bytes ((r.data.drop r.pos).take size),
      { r with pos := min (r.pos + size) r.data.length })
  | .peek => .ok (.byte r.data[r.pos]?, r)
  | .flush => .ok (.nothing, { r with pos := r.data.length })
  | .seek pos => if pos ≤ r.data.length then .ok (.nothing, { r with pos }) else .error .assertion
  | .tell => .ok (.offset r.pos, r)
  | .getRemoteAddress => .ok (.address r.source.srcaddr, r)
  | .getRemotePort => .ok (.port r.source.srcport, r)

end Reader

/-! ## What they come to -/

/-- The context and the memory; with them, for reference, what has happened to a `Reader`. -/
structure World where
  ctx : UdpContext
  heap : Memory
  halted : Option Halt
  reader : Reader

namespace World

variable (L : Api AddrHelper)

def run (u : UdpContext) (h : Memory) : Call → Except Halt (Out × UdpContext × Memory)
  | .recv d addrs alloc =>
    match addrs with
    | [] => .ok (.nothing, u, h)
    | pb :: _ => do
      let (u, h) ← u.recv L pb d.source alloc (store h (addrs.zip d.segs))
      return (.nothing, u, h)
  | .next => do
    let (b, u, h) ← u.next L h
    return (.found b, u, h)
  | .read => do
    let (c, u) ← u.read L h
    return (.byte c, u, h)
  | .readBuf size => do
    let (cs, u) ← u.readBuf L size h
    return (.bytes cs, u, h)
  | .peek => do
    let c ← u.peek L h
    return (.byte c, u, h)
  | .flush => .ok (.nothing, u.flush, h)
  | .seek pos => do
    let u ← u.seek pos
    return (.nothing, u, h)
  | .tell => .ok (.offset u.tell, u, h)
  | .getRemoteAddress => .ok (.address u.getRemoteAddress, u, h)
  | .getRemotePort => .ok (.port u.getRemotePort, u, h)

def step (c : Call) (w : World) : World :=
  if w.halted.isSome then w
  else
    let reader := match w.reader.call c with
      | .ok (_, reader) => reader
      | .error _ => w.reader
    match run L w.ctx w.heap c with
    | .ok (_, ctx, heap) => ⟨ctx, heap, none, reader⟩
    | .error e => { w with halted := some e }

/-- Nothing has arrived; the addresses of the last datagram are whatever they are. -/
def init (s : Source) (h : Memory) : World :=
  ⟨⟨none, false, 0, 0, AddrHelper.mk' s⟩, h, none, ⟨[], none, 0, s⟩⟩

/-- lwIP allocates what is free: a buffer for each part of a datagram, and the helper. -/
def Allocates (c : Call) (w : World) : Prop :=
  match c with
  | .recv d addrs alloc => w.halted = none →
    addrs.length = d.segs.length ∧ Fresh w.heap (addrs ++ (alloc.map Prod.fst).toList)
  | _ => True

/-- A datagram has arrived on an empty chain, and `next` has not been called since. -/
def Unselected (w : World) : Prop :=
  w.halted = none ∧ w.ctx.rx_buf.isSome ∧ w.ctx.first_buf_taken = false

/-- While a datagram is at hand that is not selected, a sketch does not read it or move in
it, and does not ask who sent it. -/
def Proper (c : Call) (w : World) : Prop :=
  w.Unselected → match c with
  | .read | .peek | .flush => w.ctx.rx_buf_size = 0
  | .readBuf size => size = 0 ∨ w.ctx.rx_buf_size = 0
  | .seek pos => pos = 0 ∨ w.ctx.rx_buf_size < pos
  | .getRemoteAddress | .getRemotePort => False
  | _ => True

instance allocatesDecidable : ∀ (c : Call) (w : World), Decidable (Allocates c w)
  | .recv d addrs alloc, w => inferInstanceAs (Decidable (w.halted = none →
      addrs.length = d.segs.length ∧ Fresh w.heap (addrs ++ (alloc.map Prod.fst).toList)))
  | .next, _ | .read, _ | .readBuf _, _ | .peek, _ | .flush, _ | .seek _, _ | .tell, _
  | .getRemoteAddress, _ | .getRemotePort, _ => inferInstanceAs (Decidable True)

instance unselectedDecidable (w : World) : Decidable w.Unselected :=
  inferInstanceAs (Decidable (_ ∧ _))

instance properDecidable : ∀ (c : Call) (w : World), Decidable (Proper c w)
  | .read, w | .peek, w | .flush, w =>
    inferInstanceAs (Decidable (w.Unselected → w.ctx.rx_buf_size = 0))
  | .readBuf size, w =>
    inferInstanceAs (Decidable (w.Unselected → size = 0 ∨ w.ctx.rx_buf_size = 0))
  | .seek pos, w =>
    inferInstanceAs (Decidable (w.Unselected → pos = 0 ∨ w.ctx.rx_buf_size < pos))
  | .getRemoteAddress, w | .getRemotePort, w =>
    inferInstanceAs (Decidable (w.Unselected → False))
  | .recv _ _ _, w | .next, w | .tell, w => inferInstanceAs (Decidable (w.Unselected → True))

def Delivers (c : Call) (w : World) : Prop :=
  w.halted = none →
    (run L w.ctx w.heap c).map Prod.fst = (w.reader.call c).map Prod.fst

/-- The helper and the buffers of each datagram, one after the other. -/
inductive Framed : List Datagram → List (Content AddrHelper) → Prop
  | nil : Framed [] []
  | cons {d : Datagram} {rest : List Datagram} {room : List UInt8}
      {cs : List (Content AddrHelper)} : Framed rest cs →
      Framed (d :: rest) (⟨room, helperFlag, some (AddrHelper.mk' d.source)⟩ :: d.segs ++ cs)

/-- From `p` the buffers of some datagrams are chained, with what they contain. -/
def Chained (h : Memory) (p : Option Ptr) : List Datagram → Prop
  | [] => p = none
  | d :: rest => ∃ ns es, Holds h p ns (d.segs ++ es) ∧ Framed rest es

/-- Every buffer of a datagram that is selected or waits is in the chain, and nothing has
been used that was released. -/
def Keeps (w : World) : Prop :=
  w.halted ≠ some .access ∧
    (w.halted = none → Chained w.heap w.ctx.rx_buf (w.reader.current.toList ++ w.reader.waiting))

/-! ## The chain -/

variable {L : Api AddrHelper} {h : Memory} {p : Option Ptr} {ns : List Ptr}
  {cs es : List (Content AddrHelper)} {d : Datagram} {rest : List Datagram}

theorem Framed.append (hes : Framed rest es) (d : Datagram) (room : List UInt8) :
    Framed (rest ++ [d])
      (es ++ (⟨room, helperFlag, some (AddrHelper.mk' d.source)⟩ :: d.segs)) := by
  induction hes with
  | nil =>
    have hone := @Framed.cons d [] room [] .nil
    rwa [append_nil] at hone
  | @cons e rest r cs _ ih =>
    have hmore := @Framed.cons e _ r _ ih
    rwa [← append_assoc] at hmore

theorem Framed.length_eq (hes : Framed rest es) :
    es.length = (rest.map fun d => d.segs.length + 1).sum := by
  induction hes with
  | nil => rfl
  | cons _ ih =>
    simp only [cons_append, length_cons, length_append, map_cons,
      sum_cons, ih]
    omega

theorem Framed.head (hes : Framed rest es) : ∀ c ∈ es.head?, c.flags = helperFlag := by
  cases hes with
  | nil => exact fun c hc => by cases hc
  | cons _ => exact fun c hc => by cases hc; rfl

variable {fs : List (Content AddrHelper)}

/-- Both loops go as far as the next helper. -/
theorem helper_eq {n : Nat} {xs : List Ptr} (hh : Holds h p (xs ++ ns) (es ++ fs))
    (hlen : xs.length = es.length) (hes : ∀ c ∈ es, c.flags ≠ helperFlag)
    (hn : (xs ++ ns).length ≤ n) (hfs : ∀ c ∈ fs.head?, c.flags = helperFlag) :
    UdpContext.toHelper h n p = .ok ns.head? ∧
      UdpContext.processSize h n p = .ok (bytes es).length := by
  induction xs generalizing p es n with
  | nil =>
    obtain rfl := length_eq_zero_iff.mp hlen.symm
    rw [nil_append] at hh hn
    rw [nil_append] at hh
    cases hh with
    | nil => cases n <;> exact ⟨rfl, rfl⟩
    | cons hderef _ _ =>
      cases n with
      | zero => simp at hn
      | succ n =>
        rw [UdpContext.toHelper, UdpContext.processSize, hderef]
        exact ⟨if_pos (hfs _ rfl), if_pos (hfs _ rfl)⟩
  | cons x xs ih =>
    cases es with
    | nil => cases hlen
    | cons e es =>
      cases hh with
      | cons hderef _ hrest =>
        cases n with
        | zero => simp at hn
        | succ n =>
          have hne := hes e mem_cons_self
          obtain ⟨hfind, hsize⟩ := ih hrest (by simpa using hlen)
            (fun c hc => hes c (mem_cons_of_mem e hc)) (Nat.le_of_succ_le_succ hn)
          rw [UdpContext.toHelper, UdpContext.processSize, hderef]
          refine ⟨(if_neg hne).trans hfind, (if_neg hne).trans ?_⟩
          rw [hsize]
          exact congrArg Except.ok length_append.symm

theorem tooDeep_eq {left : Nat} (hh : Holds h p ns cs) :
    UdpContext.tooDeep h (left + 1) p = .ok (decide (left + 1 ≤ cs.length)) := by
  induction hh generalizing left with
  | nil => simp [UdpContext.tooDeep]
  | cons hderef _ _ ih =>
    rw [UdpContext.tooDeep, hderef]
    cases left with
    | zero => simp
    | succ left =>
      refine (if_neg (Nat.succ_ne_zero left)).trans ?_
      show UdpContext.tooDeep h (left + 1) _ = _
      rw [ih]
      simp

theorem holds_arrival {addrs : List Ptr} (hlen : addrs.length = d.segs.length)
    (hf : Fresh h addrs) : ∃ pb more, addrs = pb :: more ∧
      Holds (store h (addrs.zip d.segs)) (some pb) addrs d.segs ∧
      ((store h (addrs.zip d.segs)).deref pb).map Buf.tot_len = some d.data.length := by
  have hfst : (addrs.zip d.segs).map Prod.fst = addrs := map_fst_zip (Nat.le_of_eq hlen)
  have hsnd : (addrs.zip d.segs).map Prod.snd = d.segs :=
    map_snd_zip (Nat.le_of_eq hlen.symm)
  have hh := @Fresh.holds _ h (addrs.zip d.segs) (by rwa [hfst])
  rw [← head?_map, hfst, hsnd] at hh
  cases addrs with
  | nil => exact absurd (length_eq_zero_iff.mp hlen.symm) d.nonempty
  | cons pb more =>
    refine ⟨pb, more, rfl, hh, ?_⟩
    have hshort := d.short
    generalize hsegs : d.segs = segs at hh hshort
    cases hh with
    | cons hderef _ _ =>
      rw [hderef, Option.map_some, Datagram.data, hsegs, Nat.mod_eq_of_lt hshort]

variable (L)

variable {d₀ d : Datagram} {u : UdpContext}

theorem recv_chained (hL : Documented L) {pb p : Ptr} {more : List Ptr}
    {alloc : Option (Ptr × List UInt8)} (hu : u.rx_buf = some p)
    (hchain : Chained h (some p) (d₀ :: rest))
    (hpb : Holds (store h ((pb :: more).zip d.segs)) (some pb) (pb :: more) d.segs)
    (hlen : (pb :: more).length = d.segs.length)
    (hf : Fresh h (pb :: more ++ (alloc.map Prod.fst).toList)) :
    ∃ h', u.recv L pb d.source alloc (store h ((pb :: more).zip d.segs)) = .ok (u, h') ∧
      Chained h' (some p) (d₀ ::
        if ((d₀ :: rest).map fun d => d.segs.length + 1).sum - 1 < 8 ∧ alloc.isSome
        then rest ++ [d] else rest) := by
  obtain ⟨ns, es, hh, hes⟩ := hchain
  have hfst : ((pb :: more).zip d.segs).map Prod.fst = pb :: more :=
    map_fst_zip (Nat.le_of_eq hlen)
  have hnot : ∀ a ∈ ns, a ∉ pb :: more := fun a ha hmem =>
    hh.not_mem_of_free (hf.free a (mem_append_left _ hmem)) ha
  have hh₁ : Holds (store h ((pb :: more).zip d.segs)) (some p) ns (d₀.segs ++ es) :=
    hh.store (by rwa [hfst])
  have hdepth : (d₀.segs ++ es).length =
      ((d₀ :: rest).map fun d => d.segs.length + 1).sum - 1 := by
    rw [length_append, hes.length_eq, map_cons, sum_cons]
    omega
  have hdeep := @tooDeep_eq _ _ _ _ 7 hh₁
  rw [← hu] at hdeep
  obtain ⟨h₂, hfree, hfreed⟩ := hpb.free hL
  have hdropped : Chained h₂ (some p) (d₀ :: rest) := by
    refine ⟨ns, es, hh₁.congr fun a ha => ?_, hes⟩
    rw [hfreed, if_neg (hnot a ha)]
  by_cases hroom : (d₀.segs ++ es).length < 8
  · rw [decide_eq_false (by omega)] at hdeep
    cases alloc with
    | none =>
      refine ⟨h₂, ?_, ?_⟩
      · rw [UdpContext.recv, show rxBufMaxDepth * 2 = 7 + 1 from rfl, hdeep]
        simp only [hu, hfree, bind, Except.bind, pure, Except.pure, Bool.false_eq_true, if_false]
      · simpa using hdropped
    | some place =>
      obtain ⟨a, room⟩ := place
      have hnodup := nodup_append.mp hf.nodup
      have ha : a ∉ pb :: more := fun hmem =>
        hnodup.2.2 a hmem a (mem_singleton.mpr rfl) rfl
      have hfa : h.Free a := hf.free a (mem_append_right _ (mem_singleton.mpr rfl))
      have hfa₁ : (store h ((pb :: more).zip d.segs)).Free a := by
        rwa [Heap.Free, getElem?_store h (by rwa [hfst])]
      have hna : a ∉ ns := hh.not_mem_of_free hfa
      -- The helper, the chain and the datagram, before they are chained.
      have hhelper := holds_one hfa₁ ⟨room, helperFlag, some (AddrHelper.mk' d.source)⟩
      obtain ⟨h₃, hcat₃, hh₃, hkeep₃⟩ := (hh₁.store_one hna).cat hL hhelper
        (fun b hb hmem => hna (by rwa [← mem_singleton.mp hmem]))
      have hdata₃ := (hpb.store_one ha).congr fun b hb => hkeep₃ b fun hmem => hnot b hmem hb
      obtain ⟨h₄, hcat₄, hh₄, -⟩ := hh₃.cat hL hdata₃ (fun b hb hmem => by
        rcases mem_append.mp hb with hb | hb
        · exact hnot b hb hmem
        · exact ha (by rwa [← mem_singleton.mp hb]))
      refine ⟨h₄, ?_, ?_⟩
      · rw [UdpContext.recv, show rxBufMaxDepth * 2 = 7 + 1 from rfl, hdeep]
        simp only [hu, hcat₃, hcat₄, bind, Except.bind, pure, Except.pure, Bool.false_eq_true,
          if_false]
      · rw [if_pos ⟨by omega, rfl⟩]
        refine ⟨ns ++ [a] ++ pb :: more, _, ?_, hes.append d room⟩
        simpa using hh₄
  · rw [decide_eq_true (by omega)] at hdeep
    refine ⟨h₂, ?_, ?_⟩
    · rw [UdpContext.recv, show rxBufMaxDepth * 2 = 7 + 1 from rfl, hdeep]
      simp only [hfree, bind, Except.bind, pure, Except.pure, if_true]
    · grind

theorem next_chained (hL : Documented L) {p : Ptr}
    (hu : u.rx_buf = some p) (htaken : u.first_buf_taken = true)
    (hchain : Chained h (some p) (d₀ :: d :: rest)) :
    ∃ q h', u.next L h =
        .ok (true, ⟨some q, true, 0, d.data.length, AddrHelper.mk' d.source⟩, h') ∧
      Chained h' (some q) (d :: rest) := by
  obtain ⟨ns, es, hh, hes⟩ := hchain
  cases hes with
  | @cons _ _ room fs hfs =>
    obtain ⟨xs, ys, rfl, hxs, hys⟩ := hh.exists_split
    obtain ⟨a, ys, rfl⟩ : ∃ a zs, ys = a :: zs := by
      cases ys with
      | nil => simp at hys
      | cons a zs => exact ⟨a, zs, rfl⟩
    have hfind := (helper_eq hh hxs d₀.unmarked hh.length_le fun c hc => by cases hc; rfl).1
    obtain ⟨r, -, hrest⟩ := hh.suffix hxs
    cases hrest with
    | @cons _ _ _ _ r hderef ha hdata =>
      obtain ⟨q, zs, rfl⟩ : ∃ q zs, ys = q :: zs := by
        cases ys with
        | nil =>
          have hnil := hdata.length_eq
          have hpos := length_pos_iff.mpr d.nonempty
          simp only [append_eq, length_nil, length_append] at hnil
          omega
        | cons q zs => exact ⟨q, zs, rfl⟩
      obtain rfl : r = some q := hdata.head_eq
      -- The helper is taken out, then what is up to it is released.
      have hwrite := hh.write ⟨room, helperFlag, none⟩ hxs hderef rfl
      rw [append_cons xs, append_cons d₀.segs] at hwrite
      obtain ⟨h₂, h₃, href, hfree, hh₃, -⟩ := hwrite.drop hL
        (by rw [length_append, length_append, hxs]; rfl)
      obtain ⟨us, vs, hsplit, hus, -⟩ := hh₃.exists_split
      rw [hsplit] at hh₃
      have hsize := (helper_eq hh₃ hus d.unmarked hh₃.length_le hfs.head).2
      have htake : UdpContext.takeHelper L a h =
          .ok (q, AddrHelper.mk' d.source, h₂) := by
        rw [UdpContext.takeHelper, hderef]
        simp only [href, bind, Except.bind, pure, Except.pure]
      refine ⟨q, h₃, ?_, us ++ vs, fs, hh₃, hfs⟩
      rw [UdpContext.next]
      simp only [hu, htaken, hfind, htake, hfree, hsize, bind, Except.bind, pure, Except.pure,
        Bool.true_eq_false, if_false, head?_cons]
      rfl

theorem next_last (hL : Documented L) {p : Ptr}
    (hu : u.rx_buf = some p) (htaken : u.first_buf_taken = true)
    (hchain : Chained h (some p) [d₀]) :
    ∃ h', u.next L h =
      .ok (false, { u with rx_buf := none, rx_buf_offset := 0, rx_buf_size := 0 }, h') := by
  obtain ⟨ns, es, hh, hes⟩ := hchain
  cases hes with
  | nil =>
    obtain ⟨h', hfree, -⟩ := hh.free hL
    rw [← append_nil ns] at hh
    have hlen : ns.length = d₀.segs.length := by simpa using hh.length_eq
    have hfind := (helper_eq hh hlen d₀.unmarked hh.length_le fun c hc => by cases hc).1
    refine ⟨h', ?_⟩
    rw [UdpContext.next]
    simp only [hu, htaken, hfind, hfree, bind, Except.bind, pure, Except.pure,
      Bool.true_eq_false, if_false, head?_nil]

end World

end Udp
