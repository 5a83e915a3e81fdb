import RalioFirmware.Wifi.TcpReceive

/-!
# What is reported of the bytes received

The queue of buffers holds what is unread of the stream, and what `tcp_recved` was told
is what was taken of it.  Each call keeps this, but for a discard of a first buffer that
is read in part.
-/

namespace Tcp

namespace World

open Pbuf Runs List

variable {L : Api Unit} {w : World} {u : ClientContext} {h : Memory}

structure Sound (w : World) : Prop where
  running : w.halted = false
  pcb : w.ctx.pcb = w.stream.isOpen
  queue : ∃ ns, Queue w.heap w.ctx.rx_buf w.ctx.rx_buf_offset ns w.stream.unread
  offered : w.stream.offered ≠ [] → ∃ b ∈ w.ctx.rx_buf.bind w.heap.deref,
    w.stream.offered = b.payload.drop w.ctx.rx_buf_offset
  reported : w.ctx.recved.sum = w.stream.takenOpen
  open_eq : w.ctx.pcb = true → w.stream.takenOpen = w.stream.taken
  open_le : w.stream.takenOpen ≤ w.stream.taken
  taken_le : w.stream.taken ≤ w.stream.received.length

theorem Sound.accounts (hw : w.Sound) : w.Accounts :=
  ⟨hw.running, hw.reported, hw.open_eq, hw.open_le, hw.taken_le⟩

theorem Sound.unread_length (hw : w.Sound) :
    w.stream.taken + w.stream.unread.length = w.stream.received.length := by
  have hle := hw.taken_le
  rw [Stream.unread, length_drop]
  omega

/-- **Bytes are taken.**  They are reported as long as there is a connection. -/
theorem Sound.take (hw : w.Sound) {n : Nat} {ns : List Ptr} (htook : Took w.ctx u n)
    (hn : n ≤ w.stream.unread.length)
    (hq : Queue h u.rx_buf u.rx_buf_offset ns (w.stream.unread.drop n)) :
    Sound ⟨u, h, false, w.stream.take n⟩ := by
  have hlen := hw.unread_length
  have hpcb := htook.pcb.trans hw.pcb
  refine ⟨rfl, hpcb, ⟨ns, ?_⟩, fun hne => absurd rfl hne, ?_, fun hopen => ?_, ?_, ?_⟩
  · rw [Stream.unread, drop_drop] at hq
    exact hq
  · show u.recved.sum = if w.stream.isOpen then _ else _
    rw [htook.recved, hw.reported, hw.pcb]
    split <;> rfl
  · have hisOpen : w.stream.isOpen = true := hpcb ▸ hopen
    have hall := hw.open_eq (htook.pcb ▸ hopen)
    show (if w.stream.isOpen then w.stream.takenOpen + n else w.stream.takenOpen) = _
    rw [if_pos hisOpen, hall]
    rfl
  · have hle := hw.open_le
    show (if w.stream.isOpen then w.stream.takenOpen + n else w.stream.takenOpen) ≤
      w.stream.taken + n
    split <;> omega
  · show w.stream.taken + n ≤ w.stream.received.length
    omega

theorem Sound.take_zero (hw : w.Sound) : Sound ⟨w.ctx, w.heap, false, w.stream.take 0⟩ := by
  obtain ⟨ns, hq⟩ := hw.queue
  exact hw.take ⟨rfl, by simp⟩ (Nat.zero_le _) hq

theorem Sound.again (hw : w.Sound) : Sound ⟨w.ctx, w.heap, false, w.stream⟩ :=
  ⟨rfl, hw.pcb, hw.queue, hw.offered, hw.reported, hw.open_eq, hw.open_le, hw.taken_le⟩

theorem Sound.close (hw : w.Sound) :
    Sound ⟨w.ctx.close, w.heap, false, { w.stream with isOpen := false }⟩ :=
  ⟨rfl, rfl, hw.queue, hw.offered, hw.reported, fun hopen => (nomatch hopen), hw.open_le,
    hw.taken_le⟩

/-- A call is answered, and what holds along a run holds again. -/
def Answered (L : Api Unit) (c : Call) (w : World) : Prop :=
  ∃ o ctx heap, w.run L c = .ok (o, ctx, heap) ∧ w.stream.Allows c o ∧
    Sound ⟨ctx, heap, false, w.stream.call c o⟩

/-! ## Each call -/

theorem Sound.recv (hL : Documented L) (hw : w.Sound) {pb : List (Ptr × Content Unit)}
    (hpromised : Promised (.recv pb) w) : Answered L (.recv pb) w := by
  obtain ⟨hopen, hne, hfresh, hroom⟩ := hpromised
  obtain ⟨ns, hq⟩ := hw.queue
  have hlen := hw.unread_length
  rw [hw.reported, hw.open_eq hopen] at hroom
  obtain ⟨u, h, ms, hrecv, hpcb, hrecved, hq', hkeep⟩ :=
    recv_queue hL hq hne hfresh (by omega)
  have hunread : (w.stream.received ++ bytes (pb.map Prod.snd)).drop w.stream.taken =
      w.stream.unread ++ bytes (pb.map Prod.snd) := drop_append_of_le_length hw.taken_le
  rw [← hunread] at hq'
  refine ⟨.nothing, u, h, ?_, rfl, ?_⟩
  · simp only [run, hrecv, bind, Except.bind, pure, Except.pure]
  · refine ⟨rfl, hpcb.trans hw.pcb, ⟨ms, hq'⟩, fun hne => ?_, hrecved ▸ hw.reported,
      fun hopen => hw.open_eq (hpcb ▸ hopen), hw.open_le, ?_⟩
    · obtain ⟨b, hb, hoffered⟩ := hw.offered hne
      obtain ⟨hoffset, b', hb', hpayload⟩ := hkeep b hb
      exact ⟨b', hb', by rw [hoffset, hpayload]; exact hoffered⟩
    · show w.stream.taken ≤ (w.stream.received ++ _).length
      rw [length_append]
      exact Nat.le_add_right_of_le hw.taken_le

theorem Sound.head (hw : w.Sound) {p : Ptr} (hbuf : w.ctx.rx_buf = some p) :
    ∃ b rest, w.heap.deref p = some b ∧ b.len < 65536 ∧ w.ctx.rx_buf_offset ≤ b.len ∧
      (b.len ≠ 0 → w.ctx.rx_buf_offset < b.len) ∧
      w.stream.unread = b.payload.drop w.ctx.rx_buf_offset ++ rest ∧
      b.tot_len = w.ctx.rx_buf_offset + w.stream.unread.length ∧ b.tot_len < 65536 := by
  obtain ⟨ns, hq⟩ := hw.queue
  rw [hbuf] at hq
  exact hq.head

theorem Sound.unread_nil (hw : w.Sound) (hbuf : w.ctx.rx_buf = none) : w.stream.unread = [] := by
  obtain ⟨ns, hq⟩ := hw.queue
  by_contra hne
  obtain ⟨p, hp, -⟩ := hq.nonempty hne
  rw [hbuf] at hp
  cases hp

theorem Sound.fin (hw : w.Sound) : Answered L .fin w := by
  have hcall : ∀ o, w.stream.call .fin o =
      if w.stream.unread = [] then { w.stream with isOpen := false } else w.stream := fun _ => rfl
  cases hbuf : w.ctx.rx_buf with
  | none =>
    refine ⟨.nothing, w.ctx.close, w.heap, ?_, rfl, ?_⟩
    · simp only [run, ClientContext.recv, hbuf, bind, Except.bind, pure, Except.pure]
    · rw [hcall, if_pos (hw.unread_nil hbuf)]
      exact hw.close
  | some p =>
    obtain ⟨b, rest, hb, -, hle, hlt, hunread, htot, -⟩ := hw.head hbuf
    have hzero : b.tot_len ≠ 0 ↔ w.stream.unread ≠ [] := by
      rw [htot, ← length_pos_iff]
      have hrest : w.stream.unread.length =
          b.len - w.ctx.rx_buf_offset + rest.length := by
        rw [hunread, length_append, length_drop]
        rfl
      omega
    refine ⟨.nothing, if b.tot_len ≠ 0 then w.ctx else w.ctx.close, w.heap, ?_, rfl, ?_⟩
    · simp only [run, ClientContext.recv, hbuf, hb, bind, Except.bind, pure, Except.pure]
    · rw [hcall]
      by_cases hne : w.stream.unread = []
      · rw [if_pos hne, if_neg fun h => hzero.mp h hne]
        exact hw.close
      · rw [if_neg hne, if_pos (hzero.mpr hne)]
        exact hw.again

theorem Sound.read (hL : Documented L) (hw : w.Sound) (hproper : Proper .read w) :
    Answered L .read w := by
  cases hbuf : w.ctx.rx_buf with
  | none =>
    have hnil := hw.unread_nil hbuf
    refine ⟨.byte none, w.ctx, w.heap, ?_, by rw [Stream.Allows, hnil]; rfl, ?_⟩
    · simp only [run, ClientContext.read, hbuf, bind, Except.bind, pure, Except.pure]
    · have htake := hw.take_zero
      rwa [Stream.call, hnil]
  | some p =>
    obtain ⟨b, rest, hb, hsmall, hle, hlt, hunread, -⟩ := hw.head hbuf
    have hne : b.len ≠ 0 := hproper b (by rw [hbuf]; exact hb)
    have hin : w.ctx.rx_buf_offset < b.payload.length := hlt hne
    obtain ⟨ns, hq⟩ := hw.queue
    obtain ⟨u, h, ms, hconsume, htook, hq', -⟩ :=
      consume_queue hL hq hbuf hb (show w.ctx.rx_buf_offset + 1 ≤ b.len from hlt hne) hsmall
    have hhead : w.stream.unread.head? = some b.payload[w.ctx.rx_buf_offset] := by
      rw [hunread, drop_eq_getElem_cons hin]
      rfl
    have hpos : 1 ≤ w.stream.unread.length := by grind
    refine ⟨.byte (some b.payload[w.ctx.rx_buf_offset]), u, h, ?_, ?_, ?_⟩
    · simp only [run, ClientContext.read, hbuf, hb, Option.bind_some,
        getElem?_eq_getElem hin, hconsume, bind, Except.bind, pure, Except.pure]
    · rw [Stream.Allows, hhead]
    · rw [Stream.call, Nat.min_eq_left hpos]
      exact hw.take htook hpos hq'

theorem Sound.readBuf (hL : Documented L) (hw : w.Sound) (size : Nat) :
    Answered L (.readBuf size) w := by
  cases hbuf : w.ctx.rx_buf with
  | none =>
    have hnil := hw.unread_nil hbuf
    refine ⟨.bytes [], w.ctx, w.heap, ?_, by rw [Stream.Allows, hnil, take_nil], ?_⟩
    · simp only [run, ClientContext.readBuf, hbuf, bind, Except.bind, pure, Except.pure]
    · have htake := hw.take_zero
      rwa [Stream.call, hnil, length_nil, Nat.min_zero]
  | some p =>
    obtain ⟨b, rest, hb, -, -, -, -, htot, -⟩ := hw.head hbuf
    obtain ⟨ns, hq⟩ := hw.queue
    have hfuel : ns.length ≤ w.heap.length := by
      rw [hbuf] at hq
      generalize w.stream.unread = bs at hq
      cases hq with
      | held hh _ _ _ => exact hh.length_le
    have hmin : (if size < b.tot_len - w.ctx.rx_buf_offset then size
        else b.tot_len - w.ctx.rx_buf_offset) = min size w.stream.unread.length := by grind
    obtain ⟨u, h, ms, hloop, htook, hq'⟩ :=
      readLoop_queue hL hq (Nat.min_le_right size w.stream.unread.length) hfuel
    rw [← take_eq_take_min] at hloop
    refine ⟨.bytes (w.stream.unread.take size), u, h, ?_, rfl, ?_⟩
    · simp only [run, ClientContext.readBuf, hbuf, hb, hmin, hloop, bind, Except.bind, pure,
        Except.pure]
    · exact hw.take htook (Nat.min_le_right size _) hq'

theorem Sound.peekBuffer (hw : w.Sound) : Answered L .peekBuffer w := by
  have hkeep : ∀ cs, (cs ≠ [] → ∃ b ∈ w.ctx.rx_buf.bind w.heap.deref,
        cs = b.payload.drop w.ctx.rx_buf_offset) →
      Sound ⟨w.ctx, w.heap, false, w.stream.call .peekBuffer (.bytes cs)⟩ := fun cs hcs =>
    ⟨rfl, hw.pcb, hw.queue, hcs, hw.reported, hw.open_eq, hw.open_le, hw.taken_le⟩
  cases hbuf : w.ctx.rx_buf with
  | none =>
    refine ⟨.bytes [], w.ctx, w.heap, ?_, ⟨[], rfl, List.nil_prefix⟩,
      hkeep [] fun hne => absurd rfl hne⟩
    simp only [run, ClientContext.peekBuffer, hbuf, bind, Except.bind, pure, Except.pure]
  | some p =>
    obtain ⟨b, rest, hb, -, -, -, hunread, -⟩ := hw.head hbuf
    refine ⟨.bytes (b.payload.drop w.ctx.rx_buf_offset), w.ctx, w.heap, ?_,
      ⟨_, rfl, by rw [hunread]; exact prefix_append _ _⟩,
      hkeep _ fun _ => ⟨b, by rw [hbuf]; exact hb, rfl⟩⟩
    simp only [run, ClientContext.peekBuffer, hbuf, hb, bind, Except.bind, pure, Except.pure]

theorem Sound.peekConsume (hL : Documented L) (hw : w.Sound) {size : Nat}
    (hpromised : Promised (.peekConsume size) w) : Answered L (.peekConsume size) w := by
  obtain ⟨hne, hsize⟩ := hpromised
  obtain ⟨b, hb, hoffered⟩ := hw.offered hne
  cases hbuf : w.ctx.rx_buf with
  | none =>
    rw [hbuf] at hb
    cases hb
  | some p =>
    obtain ⟨b', rest, hb', hsmall, hle, -, hunread, -⟩ := hw.head hbuf
    rw [hbuf, Option.bind_some, hb'] at hb
    obtain rfl := Option.some.inj hb
    have hlen : w.stream.offered.length = b'.len - w.ctx.rx_buf_offset := by
      rw [hoffered, length_drop]
      rfl
    obtain ⟨ns, hq⟩ := hw.queue
    obtain ⟨u, h, ms, hconsume, htook, hq', -⟩ :=
      consume_queue hL hq hbuf hb' (show w.ctx.rx_buf_offset + size ≤ b'.len by omega) hsmall
    refine ⟨.bytes (w.stream.offered.take size), u, h, ?_, ?_, ?_⟩
    · simp only [run, ClientContext.peekConsume, hconsume, bind, Except.bind, pure, Except.pure]
    · rw [Stream.Allows, hunread, ← hoffered, take_append_of_le_length hsize]
    · refine hw.take htook ?_ hq'
      rw [hunread, ← hoffered, length_append]
      omega

theorem Sound.discard_received (hL : Documented L) (hw : w.Sound)
    (hproper : Proper .discard_received w) : Answered L .discard_received w := by
  cases hbuf : w.ctx.rx_buf with
  | none =>
    have hnil := hw.unread_nil hbuf
    refine ⟨.nothing, w.ctx, w.heap, ?_, rfl, ?_⟩
    · simp only [run, ClientContext.discard_received, hbuf, bind, Except.bind, pure,
        Except.pure]
    · have htake := hw.take_zero
      rwa [Stream.call, hnil]
  | some p =>
    obtain ⟨b, rest, hb, -, -, -, -, htot, hsmall⟩ := hw.head hbuf
    obtain ⟨ns, hq⟩ := hw.queue
    have hfree : ∃ h', L.free p w.heap = .ok h' := by
      rw [hbuf] at hq
      generalize w.stream.unread = bs at hq
      cases hq with
      | held hh _ _ _ =>
        obtain ⟨h', hfree, -⟩ := hh.free hL
        exact ⟨h', hfree⟩
    obtain ⟨h', hfree⟩ := hfree
    have hall := took_tcp_recved (u := w.ctx) hsmall w.ctx rfl rfl
    have htook : Took w.ctx
        { w.ctx.tcp_recved b.tot_len with rx_buf := none, rx_buf_offset := 0 }
        w.stream.unread.length := by
      refine ⟨hall.pcb, hall.recved.trans ?_⟩
      by_cases hopen : w.ctx.pcb = true
      · rw [if_pos hopen, if_pos hopen, htot, hproper hopen, Nat.zero_add]
      · rw [if_neg hopen, if_neg hopen]
    refine ⟨.nothing, _, h', ?_, rfl, @Sound.take w _ _ hw _ [] htook (Nat.le_refl _) ?_⟩
    · simp only [run, ClientContext.discard_received, hbuf, hb, hfree, bind, Except.bind, pure,
        Except.pure]
    · rw [drop_length]
      exact .empty

/-! ## Runs -/

/-- **One call.**  It is answered, and accounted for. -/
theorem Sound.step (hL : Documented L) (hw : w.Sound) (c : Call) (hpromised : Promised c w)
    (hproper : Proper c w) : Delivers L c w ∧ (step L c w).Sound := by
  have hanswered : Answered L c w := by
    cases c with
    | recv pb => exact hw.recv hL hpromised
    | fin => exact hw.fin
    | read => exact hw.read hL hproper
    | readBuf size => exact hw.readBuf hL size
    | peekBuffer => exact hw.peekBuffer
    | peekConsume size => exact hw.peekConsume hL hpromised
    | discard_received => exact hw.discard_received hL hproper
    | close => exact ⟨.nothing, _, _, rfl, rfl, hw.close⟩
  obtain ⟨o, ctx, heap, hrun, hallows, hsound⟩ := hanswered
  refine ⟨⟨o, ctx, heap, hrun, hallows⟩, ?_⟩
  rw [World.step, hw.running]
  simp only [hrun, Bool.false_eq_true, if_false]
  exact hsound

/-- **Received bytes are delivered once, in order, and reported as they are taken.**  While
there is a connection, what `tcp_recved` was told comes to what was consumed or discarded;
after that it stays as it is.  It is never more than was received. -/
theorem run_accounts (hL : Documented L) {h : Memory} {calls : List Call}
    (hpromised : AllFit (World.step L) Promised calls (init h))
    (hproper : AllFit (World.step L) Proper calls (init h)) :
    AllFit (World.step L) (Delivers L) calls (init h) ∧
      (after (World.step L) calls (init h)).Accounts := by
  have hinit : (init h).Sound := ⟨rfl, rfl, ⟨[], .empty⟩, fun hne => absurd rfl hne, rfl,
    fun _ => rfl, Nat.le_refl _, Nat.le_refl _⟩
  have hfits := hpromised.and hproper
  refine ⟨allFit_of_invariant (fun c w hw hc => hw.step hL c hc.1 hc.2) hinit hfits, ?_⟩
  exact (invariant (fun c w hw hc => (hw.step hL c hc.1 hc.2).2) hinit hfits).accounts

def session : List Call :=
  [.recv [(0, ⟨[1, 2, 3], 0, none⟩), (1, ⟨[], 0, none⟩), (2, ⟨[4, 5], 0, none⟩)], .read,
    .readBuf 3, .peekBuffer, .recv [(1, ⟨[6, 7, 8, 9, 10, 11, 12], 0, none⟩)], .peekConsume 1,
    .readBuf 2, .peekBuffer, .peekConsume 2, .readBuf 3, .read,
    .recv [(2, ⟨[13, 14], 0, none⟩)], .fin, .discard_received, .read, .close]

theorem run_accounts_session :
    AllFit (World.step plain) (Delivers plain) session (init [none, none, none]) ∧
      (after (World.step plain) session (init [none, none, none])).Accounts :=
  run_accounts plain_documented (by decide +kernel) (by decide +kernel)

/-- What is read after the connection was closed is reported to nobody. -/
theorem not_run_accounts : ¬ ∀ (L : Api Unit), Documented L → ∀ (h : Memory) (calls : List Call),
    AllFit (World.step L) Promised calls (init h) →
    AllFit (World.step L) (Delivers L) calls (init h) ∧
      (after (World.step L) calls (init h)).ctx.recved.sum =
        (after (World.step L) calls (init h)).stream.taken := by
  intro hall
  have hsum := (hall plain plain_documented [none] [.recv [(0, ⟨[1, 2], 0, none⟩)], .close, .read]
    (by decide +kernel)).2
  revert hsum
  decide +kernel

end World

end Tcp
