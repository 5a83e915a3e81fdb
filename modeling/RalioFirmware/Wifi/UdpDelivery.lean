import RalioFirmware.Wifi.UdpFraming

/-!
# Runs of the receiving side of `UdpContext`

A chain that holds what a `Reader` has to deliver answers each call as the `Reader` does,
and holds it again.  The one place where it does not is a call about the datagram that is
at hand before `next` has selected it.
-/

namespace Udp

namespace World

open Pbuf Runs List

/-- The context and the chain hold what there is to deliver. -/
inductive Agrees (h : Memory) : UdpContext → Reader → Prop
  | empty {taken : Bool} {s : Source} :
      Agrees h ⟨none, taken, 0, 0, AddrHelper.mk' s⟩ ⟨[], none, 0, s⟩
  | unselected {p : Ptr} {d : Datagram} {rest : List Datagram} {s : Source} :
      Chained h (some p) (d :: rest) →
      Agrees h ⟨some p, false, 0, d.data.length, AddrHelper.mk' d.source⟩ ⟨d :: rest, none, 0, s⟩
  | selected {p : Ptr} {d : Datagram} {rest : List Datagram} {pos : Nat} :
      Chained h (some p) (d :: rest) → pos ≤ d.data.length →
      Agrees h ⟨some p, true, pos, d.data.length, AddrHelper.mk' d.source⟩
        ⟨rest, some d, pos, d.source⟩

variable {L : Api AddrHelper} {h : Memory} {u : UdpContext} {r : Reader}

/-- A call gives what it should and leaves what it should. -/
def Answers (L : Api AddrHelper) (c : Call) (u : UdpContext) (h : Memory) (r : Reader) : Prop :=
  (∃ out u' h' r', run L u h c = .ok (out, u', h') ∧ r.call c = .ok (out, r') ∧ Agrees h' u' r') ∨
    (run L u h c = .error .assertion ∧ r.call c = .error .assertion)

theorem Answers.ok {c : Call} {o : Out} {u' : UdpContext} {h' : Memory} {r' : Reader}
    (hrun : run L u h c = .ok (o, u', h')) (hcall : r.call c = .ok (o, r'))
    (ha : Agrees h' u' r') : Answers L c u h r :=
  .inl ⟨o, u', h', r', hrun, hcall, ha⟩

theorem Agrees.chained (ha : Agrees h u r) :
    Chained h u.rx_buf (r.current.toList ++ r.waiting) := by
  cases ha with
  | empty => rfl
  | unselected hchain => exact hchain
  | selected hchain _ => exact hchain

theorem accepts_iff {room : Bool} (hdepth : 0 < r.depth) :
    r.accepts room = true ↔ r.depth < 8 ∧ room = true := by
  rw [Reader.accepts, Bool.and_eq_true, Bool.or_eq_true, decide_eq_true_eq, decide_eq_true_eq]
  exact and_congr_right fun _ => or_iff_right (Nat.ne_of_gt hdepth)

/-! ## Each call -/

theorem Agrees.recv (hL : Documented L) (ha : Agrees h u r) {d : Datagram} {addrs : List Ptr}
    {alloc : Option (Ptr × List UInt8)} (hlen : addrs.length = d.segs.length)
    (hf : Fresh h (addrs ++ (alloc.map Prod.fst).toList)) :
    Answers L (.recv d addrs alloc) u h r := by
  obtain ⟨pb, more, rfl, hpb, htot⟩ := holds_arrival hlen
    ⟨(nodup_append.mp hf.nodup).1, fun a ha => hf.free a (mem_append_left _ ha)⟩
  -- What is there already stays, and the datagram is put behind it or dropped.
  have hchained : ∀ {p : Ptr} {d₀ : Datagram} {rest : List Datagram}, u.rx_buf = some p →
      r.current.toList ++ r.waiting = d₀ :: rest → Chained h (some p) (d₀ :: rest) →
      ∃ h', run L u h (.recv d (pb :: more) alloc) = .ok (.nothing, u, h') ∧
        Chained h' (some p)
          (d₀ :: if r.accepts alloc.isSome then rest ++ [d] else rest) := by
    intro p d₀ rest hu hlist hchain
    obtain ⟨h', hrecv, hchain'⟩ := recv_chained L hL hu hchain hpb hlen hf
    have hdepth : r.depth = ((d₀ :: rest).map fun d => d.segs.length + 1).sum - 1 := by
      rw [Reader.depth, hlist]
    have hpos : 0 < r.depth := by
      have hsegs := length_pos_iff.mpr d₀.nonempty
      rw [hdepth, map_cons, sum_cons]
      omega
    refine ⟨h', ?_, ?_⟩
    · simp only [run, hrecv, bind, Except.bind, pure, Except.pure]
    · rw [← hdepth] at hchain'
      rwa [if_congr (accepts_iff hpos) rfl rfl]
  cases ha with
  | @empty taken s =>
    obtain ⟨b, hb, hbtot⟩ := Option.map_eq_some_iff.mp htot
    have hchain : Chained (store h ((pb :: more).zip d.segs)) (some pb) [d] :=
      ⟨pb :: more, [], by rwa [append_nil], .nil⟩
    refine .ok ?_ rfl (.unselected hchain)
    simp only [run, UdpContext.recv, UdpContext.tooDeep, hb, hbtot, bind, Except.bind, pure,
      Except.pure, Bool.false_eq_true, if_false]
  | @unselected p d₀ rest s hchain =>
    obtain ⟨h', hrun, hchain'⟩ := hchained rfl rfl hchain
    refine .ok hrun rfl ?_
    split
    · rw [if_pos ‹_›] at hchain'
      exact .unselected hchain'
    · rw [if_neg ‹_›] at hchain'
      exact .unselected hchain'
  | @selected p d₀ rest pos hchain hpos =>
    obtain ⟨h', hrun, hchain'⟩ := hchained rfl rfl hchain
    refine .ok hrun rfl ?_
    split
    · rw [if_pos ‹_›] at hchain'
      exact .selected hchain' hpos
    · rw [if_neg ‹_›] at hchain'
      exact .selected hchain' hpos

theorem Agrees.next (hL : Documented L) (ha : Agrees h u r) : Answers L .next u h r := by
  cases ha with
  | empty => exact .ok rfl rfl .empty
  | @unselected p d rest s hchain => exact .ok rfl rfl (.selected hchain (Nat.zero_le _))
  | @selected p d rest pos hchain hpos =>
    cases rest with
    | nil =>
      obtain ⟨h', hnext⟩ := next_last L hL (u := ⟨some p, true, pos, d.data.length,
        AddrHelper.mk' d.source⟩) rfl rfl hchain
      have hrun : run L ⟨some p, true, pos, d.data.length, AddrHelper.mk' d.source⟩ h .next =
          .ok (.found false, ⟨none, true, 0, 0, AddrHelper.mk' d.source⟩, h') := by
        simp only [run, hnext, bind, Except.bind, pure, Except.pure]
      exact .ok hrun rfl .empty
    | cons e rest =>
      obtain ⟨q, h', hnext, hchain'⟩ := next_chained L hL (u := ⟨some p, true, pos,
        d.data.length, AddrHelper.mk' d.source⟩) rfl rfl hchain
      refine .ok ?_ rfl (.selected hchain' (Nat.zero_le _))
      simp only [run, hnext, bind, Except.bind, pure, Except.pure]

section

variable {p : Ptr} {d : Datagram} {rest : List Datagram} {pos : Nat} {addr : AddrHelper}

theorem get_at_chained (hL : Documented L) (hchain : Chained h (some p) (d :: rest))
    (hpos : pos < d.data.length) : L.get_at h p (pos % 65536) = .ok d.data[pos] := by
  obtain ⟨ns, es, hh, -⟩ := hchain
  have hshort := d.short
  have hmod : pos % 65536 = pos := Nat.mod_eq_of_lt (Nat.lt_trans hpos d.short)
  have hlt : pos < (bytes (d.segs ++ es)).length := by
    rw [bytes_append, length_append]
    exact Nat.lt_add_right _ hpos
  rw [Api.get_at, hh.onChain, hmod, hL.get_at h p ns _ pos hlt hh]
  exact congrArg Except.ok (by simp only [bytes_append]; exact getElem_append_left hpos)

theorem get_contiguous_chained (hL : Documented L) (hchain : Chained h (some p) (d :: rest))
    {len : Nat} (hlen : pos + len ≤ d.data.length) :
    ∃ buf, L.get_contiguous h p (len % 65536) (pos % 65536) = .ok buf ∧
      (0 < len → buf = some ((d.data.drop pos).take len)) := by
  obtain ⟨ns, es, hh, -⟩ := hchain
  have hshort : d.data.length < 65536 := d.short
  refine ⟨_, hh.onChain _, fun hpos => ?_⟩
  rw [Nat.mod_eq_of_lt (show len < 65536 by omega), Nat.mod_eq_of_lt (show pos < 65536 by omega)]
  have hle : pos + len ≤ (bytes (d.segs ++ es)).length := by
    rw [bytes_append, length_append]
    exact Nat.le_add_right_of_le hlen
  rw [hL.get_contiguous h p ns _ len pos hh hpos hle, bytes_append,
    drop_append_of_le_length (show pos ≤ (bytes d.segs).length by
      show pos ≤ d.data.length; omega),
    take_append_of_le_length]
  · rfl
  · rw [length_drop]
    show len ≤ d.data.length - pos
    omega

theorem consume_eq {t : Bool} {size n : Nat} (hn : pos + n < 4294967296) :
    UdpContext.consume n ⟨some p, t, pos, size, addr⟩ =
      ⟨some p, t, min (pos + n) size, size, addr⟩ := by
  rw [UdpContext.consume, Word.u32_of_lt hn]
  by_cases hgt : pos + n > size
  · rw [if_pos hgt, Nat.min_eq_right (Nat.le_of_lt hgt)]
  · rw [if_neg hgt, Nat.min_eq_left (Nat.le_of_not_lt hgt)]

end

theorem Agrees.read (hL : Documented L) (ha : Agrees h u r)
    (hproper : u.rx_buf.isSome → u.first_buf_taken = false → u.rx_buf_size = 0) :
    Answers L .read u h r := by
  cases ha with
  | empty => exact .ok rfl rfl .empty
  | @unselected p d rest s hchain =>
    have hsize : d.data.length = 0 := hproper rfl rfl
    refine .ok ?_ rfl (.unselected hchain)
    rw [run, UdpContext.read]
    simp only [hsize, bind, Except.bind, pure, Except.pure]
    rfl
  | @selected p d rest pos hchain hpos =>
    have hshort : d.data.length < 65536 := d.short
    by_cases hend : pos < d.data.length
    · have hread : UdpContext.read L ⟨some p, true, pos, d.data.length,
          AddrHelper.mk' d.source⟩ h = .ok (some d.data[pos],
            ⟨some p, true, min (pos + 1) d.data.length, d.data.length,
              AddrHelper.mk' d.source⟩) := by
        rw [UdpContext.read]
        refine (if_neg (Nat.not_le.mpr hend)).trans ?_
        rw [get_at_chained hL hchain hend]
        exact congrArg (fun v => Except.ok (some d.data[pos], v)) (consume_eq (by omega))
      refine .ok (o := .byte (some d.data[pos])) ?_ ?_
        (.selected hchain (Nat.min_le_right (pos + 1) _))
      · rw [run, hread]
        rfl
      · rw [← getElem?_eq_getElem hend]
        rfl
    · have hnone : d.data[pos]? = none := getElem?_eq_none (Nat.le_of_not_lt hend)
      have hread : UdpContext.read L ⟨some p, true, pos, d.data.length,
          AddrHelper.mk' d.source⟩ h = .ok (none, ⟨some p, true, pos, d.data.length,
            AddrHelper.mk' d.source⟩) := if_pos (Nat.le_of_not_lt hend)
      have hmin : min (pos + 1) d.data.length = pos := by omega
      refine .ok (o := .byte none) ?_ ?_ (.selected hchain hpos)
      · rw [run, hread]
        rfl
      · rw [Reader.call]
        show Except.ok (Out.byte d.data[pos]?, (⟨rest, some d, min (pos + 1) d.data.length,
          d.source⟩ : Reader)) = _
        rw [hnone, hmin]

theorem Agrees.peek (hL : Documented L) (ha : Agrees h u r)
    (hproper : u.rx_buf.isSome → u.first_buf_taken = false → u.rx_buf_size = 0) :
    Answers L .peek u h r := by
  cases ha with
  | empty => exact .ok rfl rfl .empty
  | @unselected p d rest s hchain =>
    have hsize : d.data.length = 0 := hproper rfl rfl
    refine .ok ?_ rfl (.unselected hchain)
    rw [run, UdpContext.peek]
    simp only [hsize, bind, Except.bind, pure, Except.pure]
    rfl
  | @selected p d rest pos hchain hpos =>
    by_cases hend : pos = d.data.length
    · refine .ok (o := .byte d.data[pos]?) ?_ rfl (.selected hchain hpos)
      rw [run, UdpContext.peek, getElem?_eq_none (Nat.le_of_eq hend.symm)]
      simp only [if_pos hend, bind, Except.bind, pure, Except.pure]
    · have hlt : pos < d.data.length := Nat.lt_of_le_of_ne hpos hend
      refine .ok (o := .byte d.data[pos]?) ?_ rfl (.selected hchain hpos)
      rw [run, UdpContext.peek, getElem?_eq_getElem hlt]
      simp only [if_neg hend, get_at_chained hL hchain hlt, bind, Except.bind, pure,
        Except.pure]

theorem Agrees.readBuf (hL : Documented L) (ha : Agrees h u r) {size : Nat}
    (hproper : u.rx_buf.isSome → u.first_buf_taken = false → size = 0 ∨ u.rx_buf_size = 0) :
    Answers L (.readBuf size) u h r := by
  -- Of the chain `len` bytes are asked for; where there are none, any buffer will do.
  have hread : ∀ {p : Ptr} {d : Datagram} {rest : List Datagram} {t : Bool} {pos len : Nat}
      {addr : AddrHelper}, Chained h (some p) (d :: rest) → pos ≤ d.data.length →
      len = min size (d.data.length - pos) →
      UdpContext.readBuf L size ⟨some p, t, pos, d.data.length, addr⟩ h =
        .ok ((d.data.drop pos).take len, ⟨some p, t, pos + len, d.data.length, addr⟩) := by
    intro p d rest t pos len addr hchain hpos hlen
    have hshort : d.data.length < 65536 := d.short
    obtain ⟨buf, hget, hbuf⟩ := get_contiguous_chained hL hchain
      (show pos + len ≤ d.data.length by omega)
    have hsub : Word.sub32 d.data.length pos = d.data.length - pos :=
      Word.sub32_of_le hpos (by omega)
    have hif : (if size < d.data.length - pos then size else d.data.length - pos) = len := by
      split <;> omega
    have hconsume : UdpContext.consume len ⟨some p, t, pos, d.data.length, addr⟩ =
        ⟨some p, t, pos + len, d.data.length, addr⟩ := by
      rw [consume_eq (by omega), Nat.min_eq_left (by omega)]
    rw [UdpContext.readBuf]
    simp only [hsub, hif, hget, bind, Except.bind, pure, Except.pure]
    rcases Nat.eq_zero_or_pos len with rfl | hpos'
    · cases buf with
      | none => simp
      | some buf => simp [hconsume]
    · grind
  cases ha with
  | empty => exact .ok (o := .bytes []) rfl (by simp [Reader.call, Reader.data]) .empty
  | @unselected p d rest s hchain =>
    have hnone : 0 = min size (d.data.length - 0) := by
      rcases hproper rfl rfl with hsize | hsize
      · rw [hsize, Nat.zero_min]
      · have hlen : d.data.length = 0 := hsize
        rw [hlen, Nat.min_zero]
    have hcall : (⟨d :: rest, none, 0, s⟩ : Reader).call (.readBuf size) =
        .ok (.bytes [], ⟨d :: rest, none, 0, s⟩) := by simp [Reader.call, Reader.data]
    refine .ok ?_ hcall (.unselected hchain)
    rw [run, hread hchain (Nat.zero_le _) hnone]
    rfl
  | @selected p d rest pos hchain hpos =>
    have hmin : min (pos + size) d.data.length = pos + min size (d.data.length - pos) := by
      omega
    have htake : (d.data.drop pos).take (min size (d.data.length - pos)) =
        (d.data.drop pos).take size := by
      rw [← length_drop, ← take_eq_take_min]
    refine .ok (o := .bytes ((d.data.drop pos).take size)) ?_ rfl
      (.selected hchain (Nat.min_le_right (pos + size) _))
    rw [run, hread hchain hpos rfl, htake, ← hmin]
    rfl

theorem Agrees.flush (ha : Agrees h u r)
    (hproper : u.rx_buf.isSome → u.first_buf_taken = false → u.rx_buf_size = 0) :
    Answers L .flush u h r := by
  have hflush : ∀ {p : Ptr} {d : Datagram} {t : Bool} {pos : Nat} {addr : AddrHelper},
      pos ≤ d.data.length →
      UdpContext.flush ⟨some p, t, pos, d.data.length, addr⟩ =
        ⟨some p, t, d.data.length, d.data.length, addr⟩ := by
    intro p d t pos addr hpos
    have hshort : d.data.length < 65536 := d.short
    rw [UdpContext.flush]
    simp only [Word.sub32_of_le hpos (show d.data.length < 4294967296 by omega)]
    rw [consume_eq (by omega), Nat.add_sub_cancel' hpos, Nat.min_self]
  cases ha with
  | empty => exact .ok rfl rfl .empty
  | @unselected p d rest s hchain =>
    have hsize : d.data.length = 0 := hproper rfl rfl
    refine .ok ?_ rfl (.unselected hchain)
    rw [run, hflush (Nat.zero_le _)]
    simp only [hsize]
  | @selected p d rest pos hchain hpos =>
    refine .ok ?_ rfl (.selected hchain (Nat.le_refl _))
    rw [run, hflush hpos]
    rfl

theorem Agrees.seek (ha : Agrees h u r) {pos : Nat}
    (hproper : u.rx_buf.isSome → u.first_buf_taken = false → pos = 0 ∨ u.rx_buf_size < pos) :
    Answers L (.seek pos) u h r := by
  cases ha with
  | empty =>
    rcases Nat.eq_zero_or_pos pos with rfl | hpos
    · exact .ok rfl rfl .empty
    · exact .inr ⟨by rw [run, UdpContext.seek, if_neg (Nat.not_le.mpr hpos)]; rfl,
        if_neg (Nat.not_le.mpr hpos)⟩
  | @unselected p d rest s hchain =>
    rcases hproper rfl rfl with rfl | hpos
    · refine .ok ?_ rfl (.unselected hchain)
      rw [run, UdpContext.seek, if_pos (Nat.zero_le _)]
      rfl
    · refine .inr ⟨?_, if_neg (Nat.not_le.mpr (Nat.zero_lt_of_lt hpos))⟩
      rw [run, UdpContext.seek, if_neg (Nat.not_le.mpr hpos)]
      rfl
  | @selected p d rest old hchain hold =>
    by_cases hpos : pos ≤ d.data.length
    · refine .ok ?_ (if_pos hpos) (.selected hchain hpos)
      rw [run, UdpContext.seek, if_pos hpos]
      rfl
    · refine .inr ⟨?_, if_neg hpos⟩
      rw [run, UdpContext.seek, if_neg hpos]
      rfl

theorem Agrees.tell (ha : Agrees h u r) : Answers L .tell u h r := by
  cases ha with
  | empty => exact .ok rfl rfl .empty
  | unselected hchain => exact .ok rfl rfl (.unselected hchain)
  | selected hchain hpos => exact .ok rfl rfl (.selected hchain hpos)

theorem Agrees.getRemoteAddress (ha : Agrees h u r)
    (hproper : u.rx_buf.isSome → u.first_buf_taken = false → False) :
    Answers L .getRemoteAddress u h r := by
  cases ha with
  | empty => exact .ok rfl rfl .empty
  | unselected => exact (hproper rfl rfl).elim
  | selected hchain hpos => exact .ok rfl rfl (.selected hchain hpos)

theorem Agrees.getRemotePort (ha : Agrees h u r)
    (hproper : u.rx_buf.isSome → u.first_buf_taken = false → False) :
    Answers L .getRemotePort u h r := by
  have hport : ∀ s : Source, (AddrHelper.mk' s).srcport.toUInt16 = s.srcport := fun s =>
    UInt16.toUInt16_toInt16 s.srcport
  cases ha with
  | empty => exact .ok rfl (by rw [Reader.call, ← hport]; rfl) .empty
  | unselected => exact (hproper rfl rfl).elim
  | selected hchain hpos =>
    exact .ok rfl (by rw [Reader.call, ← hport]; rfl) (.selected hchain hpos)

/-! ## Runs -/

/-- What holds along a run: the program has stopped at an `assert`, or the chain holds what
there is to deliver. -/
def Sound (w : World) : Prop :=
  w.halted = some .assertion ∨ (w.halted = none ∧ Agrees w.heap w.ctx w.reader)

theorem Sound.keeps {w : World} (hw : w.Sound) : w.Keeps := by
  rcases hw with hhalted | ⟨hrunning, ha⟩
  · exact ⟨by rw [hhalted]; decide, fun hrunning => by rw [hhalted] at hrunning; cases hrunning⟩
  · exact ⟨by rw [hrunning]; decide, fun _ => ha.chained⟩

/-- **One call.**  It gives what it should, and the chain still agrees with the reader. -/
theorem Sound.step (hL : Documented L) {w : World} (hw : w.Sound) (c : Call)
    (halloc : Allocates c w) (hproper : Proper c w) : Delivers L c w ∧ (step L c w).Sound := by
  obtain ⟨u, h, halted, r⟩ := w
  rcases hw with hhalted | ⟨hrunning, ha⟩
  · obtain rfl : halted = some .assertion := hhalted
    refine ⟨fun hrunning => ?_, .inl rfl⟩
    cases hrunning
  obtain rfl : halted = none := hrunning
  have hunselected : ∀ {P : Prop}, (Unselected ⟨u, h, none, r⟩ → P) →
      u.rx_buf.isSome → u.first_buf_taken = false → P := fun hp hbuf htaken =>
    hp ⟨rfl, hbuf, htaken⟩
  have hanswers : Answers L c u h r := by
    cases c with
    | recv d addrs alloc =>
      obtain ⟨hlen, hf⟩ := halloc rfl
      exact ha.recv hL hlen hf
    | next => exact ha.next hL
    | read => exact ha.read hL (hunselected hproper)
    | readBuf size => exact ha.readBuf hL (hunselected hproper)
    | peek => exact ha.peek hL (hunselected hproper)
    | flush => exact ha.flush (hunselected hproper)
    | seek pos => exact ha.seek (hunselected hproper)
    | tell => exact ha.tell
    | getRemoteAddress => exact ha.getRemoteAddress (hunselected hproper)
    | getRemotePort => exact ha.getRemotePort (hunselected hproper)
  rcases hanswers with ⟨o, u', h', r', hrun, hcall, ha'⟩ | ⟨hrun, hcall⟩
  · refine ⟨fun _ => by rw [hrun, hcall]; rfl, .inr ?_⟩
    rw [World.step]
    simp only [hrun, hcall, Option.isSome_none, Bool.false_eq_true, if_false]
    exact ⟨trivial, ha'⟩
  · refine ⟨fun _ => by rw [hrun, hcall]; rfl, .inl ?_⟩
    rw [World.step]
    simp only [hrun, Option.isSome_none, Bool.false_eq_true, if_false]

/-- **Received datagrams are read as they arrived.**  Where no call is about a datagram
before `next` has selected it, every call gives what a queue of the accepted datagrams
would give: `next` selects them in the order of arrival, bytes and addresses are those of
the one that is selected, and nothing that is still to be read has been released. -/
theorem run_hands_over (hL : Documented L) {s : Source} {h : Memory} {calls : List Call}
    (halloc : AllFit (World.step L) Allocates calls (init s h))
    (hproper : AllFit (World.step L) Proper calls (init s h)) :
    AllFit (World.step L) (Delivers L) calls (init s h) ∧
      (after (World.step L) calls (init s h)).Keeps := by
  have hinit : (init s h).Sound := .inr ⟨rfl, .empty⟩
  have hfits := halloc.and hproper
  refine ⟨allFit_of_invariant (fun c w hw hc => hw.step hL c hc.1 hc.2) hinit hfits, ?_⟩
  exact (invariant (fun c w hw hc => (hw.step hL c hc.1 hc.2).2) hinit hfits).keeps

def hello : Datagram where
  source := ⟨.v4 1, .v4 9, 40000, 0⟩
  segs := [⟨[104, 101], 0, none⟩, ⟨[108, 108, 111], 0, none⟩]
  nonempty := by decide
  unmarked := by decide
  short := by decide

def bye : Datagram where
  source := ⟨.v4 2, .v4 9, 53, 0⟩
  segs := [⟨[98, 121, 101], 0, none⟩]
  nonempty := by decide
  unmarked := by decide
  short := by decide

def conversation : List Call :=
  [.recv hello [0, 1] none, .next, .readBuf 3, .recv bye [2] (some (3, [0])), .read,
    .getRemotePort, .next, .recv hello [1, 0] (some (4, [])), .peek, .getRemotePort, .seek 1,
    .read, .flush, .tell, .next, .read, .next, .read, .seek 1]

theorem run_hands_over_conversation :
    AllFit (World.step plain) (Delivers plain) conversation
        (init ⟨.v4 0, .v4 0, 0, 0⟩ (List.replicate 6 none)) ∧
      (after (World.step plain) conversation
        (init ⟨.v4 0, .v4 0, 0, 0⟩ (List.replicate 6 none))).Keeps :=
  run_hands_over plain_documented (by decide +kernel) (by decide +kernel)

/-- The datagram that arrives on an empty chain is read before `next` has selected it. -/
theorem not_run_hands_over : ¬ ∀ (L : Api AddrHelper), Documented L →
    ∀ (s : Source) (h : Memory) (calls : List Call),
    AllFit (World.step L) Allocates calls (init s h) →
    AllFit (World.step L) (Delivers L) calls (init s h) ∧
      (after (World.step L) calls (init s h)).Keeps := by
  intro hall
  have hread := (hall plain plain_documented ⟨.v4 0, .v4 0, 0, 0⟩ [none, none]
    [.recv hello [0, 1] none, .read] (by decide +kernel)).1.2.1 rfl
  revert hread
  decide +kernel

end World

end Udp
