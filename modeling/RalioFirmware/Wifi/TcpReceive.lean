import Mathlib.Algebra.GroupWithZero.Nat
import RalioFirmware.Basis.Runs
import RalioFirmware.Wifi.Pbuf

/-!
# The receiving side of `ClientContext`

What a connection has received hangs in one chain of `pbuf`s, of whose first buffer
`_rx_buf_offset` bytes are consumed.  With each consumption `tcp_recved` tells lwIP that
as many bytes may follow, as long as there is a connection to tell of.
-/

namespace Tcp

open Pbuf List
open Prod (fst snd)

abbrev Memory := Heap Unit

/-- `pcb` is whether `_pcb` is not null; `recved` are the lengths that `tcp_recved` was
called with. -/
structure ClientContext where
  pcb : Bool
  rx_buf : Option Ptr
  rx_buf_offset : Nat
  recved : List Nat

namespace ClientContext

variable (L : Api Unit)

/-- `if(_pcb) tcp_recved(_pcb, size)`, whose argument is a `u16_t`. -/
def tcp_recved (size : Nat) (u : ClientContext) : ClientContext :=
  if u.pcb then { u with recved := u.recved ++ [size % 65536] } else u

/-- `_consume`; of the lengths the signed difference is taken. -/
def consume (size : Nat) (u : ClientContext) (h : Memory) :
    Except Halt (ClientContext × Memory) :=
  match u.rx_buf with
  | none => .error .access
  | some head =>
    match h.deref head with
    | none => .error .access
    | some b => do
      let left : Int := b.len - u.rx_buf_offset - size
      let (u, h) ←
        if left > 0 then
          pure ({ u with rx_buf_offset := u.rx_buf_offset + size }, h)
        else match b.next with
          | none => do
            let h ← L.free head h
            pure ({ u with rx_buf := none, rx_buf_offset := 0 }, h)
          | some rx_buf => do
            let h ← L.ref rx_buf h
            let h ← L.free head h
            pure ({ u with rx_buf := some rx_buf, rx_buf_offset := 0 }, h)
      return (u.tcp_recved size, h)

/-- `read()`; `none` where there is no buffer and it returns 0. -/
def read (u : ClientContext) (h : Memory) :
    Except Halt (Option UInt8 × ClientContext × Memory) :=
  match u.rx_buf with
  | none => .ok (none, u, h)
  | some rx_buf =>
    match (h.deref rx_buf).bind fun b => b.payload[u.rx_buf_offset]? with
    | none => .error .access
    | some c => do
      let (u, h) ← u.consume L 1 h
      return (some c, u, h)

/-- The loop of `read(dst, size)`, which comes to at most `fuel` buffers. -/
def readLoop : Nat → Nat → ClientContext → Memory →
    Except Halt (List UInt8 × ClientContext × Memory)
  | _, 0, u, h => .ok ([], u, h)
  | 0, _ + 1, _, _ => .error .access
  | fuel + 1, size + 1, u, h =>
    match u.rx_buf.bind h.deref with
    | none => .error .access
    | some b => do
      let buf_size := b.len - u.rx_buf_offset
      let copy_size := if size + 1 < buf_size then size + 1 else buf_size
      let copied := (b.payload.drop u.rx_buf_offset).take copy_size
      let (u, h) ← u.consume L copy_size h
      let (rest, u, h) ← readLoop fuel (size + 1 - copy_size) u h
      return (copied ++ rest, u, h)

/-- `read(dst, size)`: the bytes stored at `dst`. -/
def readBuf (size : Nat) (u : ClientContext) (h : Memory) :
    Except Halt (List UInt8 × ClientContext × Memory) :=
  match u.rx_buf with
  | none => .ok ([], u, h)
  | some rx_buf =>
    match h.deref rx_buf with
    | none => .error .access
    | some b =>
      let max_size := b.tot_len - u.rx_buf_offset
      readLoop L h.length (if size < max_size then size else max_size) u h

/-- `peekBuffer` and `peekAvailable`: the bytes that may be used in place. -/
def peekBuffer (u : ClientContext) (h : Memory) : Except Halt (List UInt8) :=
  match u.rx_buf with
  | none => .ok []
  | some rx_buf =>
    match h.deref rx_buf with
    | none => .error .access
    | some b => .ok (b.payload.drop u.rx_buf_offset)

def peekConsume (size : Nat) (u : ClientContext) (h : Memory) :
    Except Halt (ClientContext × Memory) := u.consume L size h

def discard_received (u : ClientContext) (h : Memory) :
    Except Halt (ClientContext × Memory) :=
  match u.rx_buf with
  | none => .ok (u, h)
  | some rx_buf =>
    match h.deref rx_buf with
    | none => .error .access
    | some b => do
      let h ← L.free rx_buf h
      return ({ u.tcp_recved b.tot_len with rx_buf := none, rx_buf_offset := 0 }, h)

/-- `close` and `abort`, and `_error`: what they leave is no connection. -/
def close (u : ClientContext) : ClientContext := { u with pcb := false }

/-- `_recv`, with a chain of buffers or with `nullptr` where the peer has closed. -/
def recv (pb : Option Ptr) (u : ClientContext) (h : Memory) :
    Except Halt (ClientContext × Memory) :=
  match pb, u.rx_buf with
  | none, none => .ok (u.close, h)
  | none, some rx_buf =>
    match h.deref rx_buf with
    | none => .error .access
    | some b => .ok (if b.tot_len ≠ 0 then u else u.close, h)
  | some pb, some rx_buf => do
    let h ← L.cat rx_buf pb h
    return (u, h)
  | some pb, none => .ok ({ u with rx_buf := some pb, rx_buf_offset := 0 }, h)

end ClientContext

/-! ## What should come of it -/

def tcpWnd : Nat := 4 * 1460

/-- The bytes that were received; how many of them are consumed or discarded, and how many
of these while there was a connection; and what `peekBuffer` has offered to use. -/
structure Stream where
  isOpen : Bool
  received : List UInt8
  taken : Nat
  takenOpen : Nat
  offered : List UInt8

/-- What happens next: a chain of buffers is received at some addresses, or the peer closes;
or something is called. -/
inductive Call
  | recv (pb : List (Ptr × Content Unit))
  | fin
  | read
  | readBuf (size : Nat)
  | peekBuffer
  | peekConsume (size : Nat)
  | discard_received
  | close

inductive Out
  | nothing
  | byte (c : Option UInt8)
  | bytes (cs : List UInt8)
deriving DecidableEq

namespace Stream

def unread (s : Stream) : List UInt8 := s.received.drop s.taken

/-- The next `n` bytes are consumed or discarded. -/
def take (n : Nat) (s : Stream) : Stream :=
  { s with
    taken := s.taken + n
    takenOpen := if s.isOpen then s.takenOpen + n else s.takenOpen
    offered := [] }

def Allows (s : Stream) : Call → Out → Prop
  | .read, o => o = .byte s.unread.head?
  | .readBuf size, o => o = .bytes (s.unread.take size)
  | .peekBuffer, o => ∃ cs, o = .bytes cs ∧ cs <+: s.unread
  | .peekConsume size, o => o = .bytes (s.unread.take size)
  | _, o => o = .nothing

/-- What a call that gives `o` leaves. -/
def call (s : Stream) : Call → Out → Stream
  | .recv pb, _ => { s with received := s.received ++ bytes (pb.map Prod.snd) }
  | .fin, _ => if s.unread = [] then { s with isOpen := false } else s
  | .read, _ => s.take (min 1 s.unread.length)
  | .readBuf size, _ => s.take (min size s.unread.length)
  | .peekBuffer, .bytes cs => { s with offered := cs }
  | .peekBuffer, _ => s
  | .peekConsume size, _ => s.take size
  | .discard_received, _ => s.take s.unread.length
  | .close, _ => { s with isOpen := false }

end Stream

/-! ## What comes of it -/

/-- The context and the memory; with them, for reference, what was received and taken. -/
structure World where
  ctx : ClientContext
  heap : Memory
  halted : Bool
  stream : Stream

namespace World

variable (L : Api Unit)

/-- A call on the context; what `peekConsume` consumes is what was offered. -/
def run (w : World) : Call → Except Halt (Out × ClientContext × Memory)
  | .recv pb => do
    let (u, h) ← w.ctx.recv L (pb.head?.map Prod.fst) (store w.heap pb)
    return (.nothing, u, h)
  | .fin => do
    let (u, h) ← w.ctx.recv L none w.heap
    return (.nothing, u, h)
  | .read => do
    let (c, u, h) ← w.ctx.read L w.heap
    return (.byte c, u, h)
  | .readBuf size => do
    let (cs, u, h) ← w.ctx.readBuf L size w.heap
    return (.bytes cs, u, h)
  | .peekBuffer => do
    let cs ← w.ctx.peekBuffer w.heap
    return (.bytes cs, w.ctx, w.heap)
  | .peekConsume size => do
    let (u, h) ← w.ctx.peekConsume L size w.heap
    return (.bytes (w.stream.offered.take size), u, h)
  | .discard_received => do
    let (u, h) ← w.ctx.discard_received L w.heap
    return (.nothing, u, h)
  | .close => .ok (.nothing, w.ctx.close, w.heap)

def step (c : Call) (w : World) : World :=
  if w.halted then w
  else match w.run L c with
    | .ok (o, ctx, heap) => ⟨ctx, heap, false, w.stream.call c o⟩
    | .error _ => { w with halted := true }

def init (h : Memory) : World := ⟨⟨true, none, 0, []⟩, h, false, ⟨true, [], 0, 0, []⟩⟩

/-- How the context is used.  lwIP calls `_recv` while there is a connection, with buffers
that were free, and with no more bytes than the window has room for; whoever calls
`peekConsume` consumes what `peekBuffer` has offered since. -/
def Promised (c : Call) (w : World) : Prop :=
  match c with
  | .recv pb => w.ctx.pcb = true ∧ pb ≠ [] ∧ Fresh w.heap (pb.map Prod.fst) ∧
      w.stream.received.length + (bytes (pb.map Prod.snd)).length ≤ w.ctx.recved.sum + tcpWnd
  | .fin => w.ctx.pcb = true
  | .peekConsume size => w.stream.offered ≠ [] ∧ size ≤ w.stream.offered.length
  | _ => True

/-- Where the first buffer is read in part, nothing is discarded; and `read()` is not called
on a first buffer with nothing in it. -/
def Proper (c : Call) (w : World) : Prop :=
  match c with
  | .read => ∀ b ∈ w.ctx.rx_buf.bind w.heap.deref, b.len ≠ 0
  | .discard_received => w.ctx.pcb = true → w.ctx.rx_buf_offset = 0
  | _ => True

instance promisedDecidable : ∀ (c : Call) (w : World), Decidable (Promised c w)
  | .recv pb, w => inferInstanceAs (Decidable (w.ctx.pcb = true ∧ pb ≠ [] ∧
      Fresh w.heap (pb.map Prod.fst) ∧
      w.stream.received.length + (bytes (pb.map Prod.snd)).length ≤ w.ctx.recved.sum + tcpWnd))
  | .fin, w => inferInstanceAs (Decidable (w.ctx.pcb = true))
  | .peekConsume size, w => inferInstanceAs (Decidable (w.stream.offered ≠ [] ∧
      size ≤ w.stream.offered.length))
  | .read, _ | .readBuf _, _ | .peekBuffer, _ | .discard_received, _ | .close, _ =>
    inferInstanceAs (Decidable True)

instance properDecidable : ∀ (c : Call) (w : World), Decidable (Proper c w)
  | .read, w =>
    inferInstanceAs (Decidable (∀ b ∈ w.ctx.rx_buf.bind w.heap.deref, b.len ≠ 0))
  | .discard_received, w =>
    inferInstanceAs (Decidable (w.ctx.pcb = true → w.ctx.rx_buf_offset = 0))
  | .recv _, _ | .fin, _ | .readBuf _, _ | .peekBuffer, _ | .peekConsume _, _ | .close, _ =>
    inferInstanceAs (Decidable True)

def Delivers (c : Call) (w : World) : Prop :=
  ∃ o ctx heap, w.run L c = .ok (o, ctx, heap) ∧ w.stream.Allows c o

/-- What was reported to lwIP is what was consumed or discarded while there was a connection,
which is all that was, as long as there is; and it is no more than was received. -/
structure Accounts (w : World) : Prop where
  running : w.halted = false
  reported : w.ctx.recved.sum = w.stream.takenOpen
  open_eq : w.ctx.pcb = true → w.stream.takenOpen = w.stream.taken
  open_le : w.stream.takenOpen ≤ w.stream.taken
  taken_le : w.stream.taken ≤ w.stream.received.length

/-! ## The chain -/

/-- From `p` the buffers of `ns` are chained; behind the `offset` bytes that are consumed of
the first one they contain `bs`. -/
inductive Queue (h : Memory) : Option Ptr → Nat → List Ptr → List UInt8 → Prop
  | empty : Queue h none 0 [] []
  | held {p : Ptr} {ns : List Ptr} {c : Content Unit} {cs : List (Content Unit)}
      {offset : Nat} : Holds h (some p) ns (c :: cs) →
      offset = 0 ∨ offset < c.payload.length → (∀ d ∈ c :: cs, d.payload.length ≤ tcpWnd) →
      (bytes (c :: cs)).length < 65536 →
      Queue h (some p) offset ns ((bytes (c :: cs)).drop offset)

variable {L} {h : Memory} {u : ClientContext} {ns : List Ptr} {bs : List UInt8} {p : Ptr}

theorem consume_eq (hL : Documented L) (hq : Queue h u.rx_buf u.rx_buf_offset ns bs)
    (hu : u.rx_buf = some p) {b : Buf Unit} (hb : h.deref p = some b) {size : Nat}
    (hsize : u.rx_buf_offset + size ≤ b.len) :
    ∃ q offset ms h', u.consume L size h =
        .ok (({ u with rx_buf := q, rx_buf_offset := offset } : ClientContext).tcp_recved size,
          h') ∧ Queue h' q offset ms (bs.drop size) ∧
      (u.rx_buf_offset + size = b.len → ms.length < ns.length) := by
  generalize hoff : u.rx_buf_offset = offset at hq hsize
  rw [hu] at hq
  cases hq with
  | @held _ _ c cs _ hh hoffset hsmall htotal =>
    cases hh with
    | @cons _ ns _ _ q hderef hp hrest =>
      rw [hderef, Option.some.injEq] at hb
      subst hb
      have hlen : (Buf.len ⟨q, (bytes (c :: cs)).length % 65536, 1, c⟩) =
          c.payload.length := rfl
      rw [hlen] at hsize ⊢
      have hdrop : ((bytes (c :: cs)).drop offset).drop size =
          (bytes (c :: cs)).drop (offset + size) := drop_drop
      by_cases hleft : offset + size < c.payload.length
      · refine ⟨some p, offset + size, p :: ns, h, ?_, ?_, fun heq => by omega⟩
        · rw [ClientContext.consume]
          simp only [hu, hderef, hlen, hoff,
            if_pos (show (c.payload.length : Int) - offset - size > 0 by omega),
            bind, Except.bind, pure, Except.pure]
        · rw [hdrop]
          exact .held (.cons hderef hp hrest) (.inr hleft) hsmall htotal
      · have hend : offset + size = c.payload.length := by omega
        have hbytes : (bytes (c :: cs)).drop (offset + size) = bytes cs := by
          rw [hend, bytes_cons, drop_left]
        rw [hdrop, hbytes]
        cases hrest with
        | nil =>
          obtain ⟨h', hfree, -⟩ := Holds.free hL (.cons hderef hp .nil)
          refine ⟨none, 0, [], h', ?_, .empty, fun _ => by simp⟩
          rw [ClientContext.consume]
          simp only [hu, hderef, hlen, hoff, hfree,
            if_neg (show ¬ (c.payload.length : Int) - offset - size > 0 by omega),
            bind, Except.bind, pure, Except.pure]
        | @cons r ns d ds t hnext hr hmore =>
          have hchain : Holds h (some p) ([p] ++ r :: ns) ([c] ++ d :: ds) :=
            .cons hderef hp (.cons hnext hr hmore)
          obtain ⟨h₁, h', href, hfree, hh', -⟩ := hchain.drop hL rfl
          refine ⟨some r, 0, r :: ns, h', ?_, ?_, fun _ => by simp⟩
          · rw [ClientContext.consume]
            simp only [hu, hderef, hlen, hoff, href, hfree,
              if_neg (show ¬ (c.payload.length : Int) - offset - size > 0 by omega),
              bind, Except.bind, pure, Except.pure]
          · rw [bytes_cons, length_append] at htotal
            exact .held hh' (.inl rfl) (fun e he => hsmall e (mem_cons_of_mem c he))
              (by omega)

/-- `size` bytes were consumed, and reported where there is a connection. -/
structure Took (u u' : ClientContext) (size : Nat) : Prop where
  pcb : u'.pcb = u.pcb
  recved : u'.recved.sum = u.recved.sum + if u.pcb then size else 0

theorem Took.trans {u₁ u₂ u₃ : ClientContext} {m n : Nat} (h₁ : Took u₁ u₂ m)
    (h₂ : Took u₂ u₃ n) : Took u₁ u₃ (m + n) := by
  refine ⟨h₂.pcb.trans h₁.pcb, ?_⟩
  rw [h₂.recved, h₁.recved, h₁.pcb]
  split <;> omega

theorem took_tcp_recved {size : Nat} (hsize : size < 65536) (u' : ClientContext)
    (hpcb : u'.pcb = u.pcb) (hrecved : u'.recved = u.recved) :
    Took u (u'.tcp_recved size) size := by
  rw [ClientContext.tcp_recved, hpcb]
  split
  · refine ⟨rfl, ?_⟩
    rw [if_pos ‹_›, hrecved, sum_append, sum_singleton, Nat.mod_eq_of_lt hsize]
  · exact ⟨hpcb, by rw [if_neg ‹_›, hrecved, Nat.add_zero]⟩

@[simp] theorem tcp_recved_rx_buf (size : Nat) (u : ClientContext) :
    (u.tcp_recved size).rx_buf = u.rx_buf := by
  rw [ClientContext.tcp_recved]
  split <;> rfl

@[simp] theorem tcp_recved_rx_buf_offset (size : Nat) (u : ClientContext) :
    (u.tcp_recved size).rx_buf_offset = u.rx_buf_offset := by
  rw [ClientContext.tcp_recved]
  split <;> rfl

theorem consume_queue (hL : Documented L) (hq : Queue h u.rx_buf u.rx_buf_offset ns bs)
    (hu : u.rx_buf = some p) {b : Buf Unit} (hb : h.deref p = some b) {size : Nat}
    (hsize : u.rx_buf_offset + size ≤ b.len) (hsmall : b.len < 65536) :
    ∃ u' h' ms, u.consume L size h = .ok (u', h') ∧ Took u u' size ∧
      Queue h' u'.rx_buf u'.rx_buf_offset ms (bs.drop size) ∧
      (u.rx_buf_offset + size = b.len → ms.length < ns.length) := by
  obtain ⟨q, offset, ms, h', hconsume, hq', hless⟩ := consume_eq hL hq hu hb hsize
  refine ⟨_, h', ms, hconsume, took_tcp_recved (by omega) _ rfl rfl, ?_, hless⟩
  simpa only [tcp_recved_rx_buf, tcp_recved_rx_buf_offset] using hq'

theorem Queue.head {offset : Nat} (hq : Queue h (some p) offset ns bs) :
    ∃ b rest, h.deref p = some b ∧ b.len < 65536 ∧ offset ≤ b.len ∧
      (b.len ≠ 0 → offset < b.len) ∧ bs = b.payload.drop offset ++ rest ∧
      b.tot_len = offset + bs.length ∧ b.tot_len < 65536 := by
  cases hq with
  | @held _ _ c cs _ hh hoffset hsmall htotal =>
    cases hh with
    | cons hderef _ _ =>
      have hle : offset ≤ c.payload.length := by omega
      refine ⟨_, bytes cs, hderef, ?_, hle, fun hne => ?_, ?_, ?_,
        Nat.mod_lt _ (by omega)⟩
      · have hc := hsmall c mem_cons_self
        rw [tcpWnd] at hc
        show c.payload.length < 65536
        omega
      · have hne' : c.payload.length ≠ 0 := hne
        show offset < c.payload.length
        omega
      · rw [bytes_cons, drop_append_of_le_length hle]
        rfl
      · rw [length_drop]
        show (bytes (c :: cs)).length % 65536 = _
        rw [Nat.mod_eq_of_lt htotal]
        have hlen : offset ≤ (bytes (c :: cs)).length := by
          rw [bytes_cons, length_append]
          omega
        omega

theorem Queue.nonempty {q : Option Ptr} {offset : Nat} (hq : Queue h q offset ns bs)
    (hbs : bs ≠ []) : ∃ p, q = some p ∧ 0 < ns.length := by
  cases hq with
  | empty => exact absurd rfl hbs
  | held hh _ _ _ => exact ⟨_, rfl, by rw [hh.length_eq]; exact Nat.succ_pos _⟩

theorem readLoop_queue (hL : Documented L) {fuel size : Nat}
    (hq : Queue h u.rx_buf u.rx_buf_offset ns bs) (hsize : size ≤ bs.length)
    (hfuel : ns.length ≤ fuel) :
    ∃ u' h' ms, ClientContext.readLoop L fuel size u h = .ok (bs.take size, u', h') ∧
      Took u u' size ∧ Queue h' u'.rx_buf u'.rx_buf_offset ms (bs.drop size) := by
  induction fuel generalizing size u h ns bs with
  | zero =>
    cases size with
    | zero => exact ⟨u, h, ns, rfl, ⟨rfl, by simp⟩, hq⟩
    | succ size =>
      obtain ⟨-, -, hpos⟩ := hq.nonempty (ne_nil_of_length_pos (by omega))
      omega
  | succ fuel ih =>
    cases size with
    | zero => exact ⟨u, h, ns, rfl, ⟨rfl, by simp⟩, hq⟩
    | succ size =>
      obtain ⟨p, hu, -⟩ := hq.nonempty (ne_nil_of_length_pos (by omega))
      have hq' := hq
      rw [hu] at hq'
      obtain ⟨b, rest, hb, hsmall, hoffset, -, hbs, -⟩ := hq'.head
      obtain ⟨copy, hcopy⟩ : ∃ copy, copy = min (size + 1) (b.len - u.rx_buf_offset) :=
        ⟨_, rfl⟩
      have hif : (if size + 1 < b.len - u.rx_buf_offset then size + 1
          else b.len - u.rx_buf_offset) = copy := by
        split <;> omega
      obtain ⟨u₁, h₁, ms, hconsume, htook, hq₁, hless⟩ :=
        consume_queue hL hq hu hb (show u.rx_buf_offset + copy ≤ b.len by omega) hsmall
      have hcopied : (b.payload.drop u.rx_buf_offset).take copy = bs.take copy := by
        have hle : copy ≤ (b.payload.drop u.rx_buf_offset).length := by
          rw [length_drop, show b.payload.length = b.len from rfl]
          omega
        rw [hbs, take_append_of_le_length hle]
      have htake : bs.take copy ++ (bs.drop copy).take (size + 1 - copy) =
          bs.take (size + 1) := by
        rw [← take_add, Nat.add_sub_cancel' (by omega)]
      obtain ⟨u₂, h₂, ns₂, hloop, htook₂, hq₂⟩ : ∃ u₂ h₂ ns₂,
          ClientContext.readLoop L fuel (size + 1 - copy) u₁ h₁ =
            .ok ((bs.drop copy).take (size + 1 - copy), u₂, h₂) ∧
          Took u₁ u₂ (size + 1 - copy) ∧
          Queue h₂ u₂.rx_buf u₂.rx_buf_offset ns₂
            ((bs.drop copy).drop (size + 1 - copy)) := by
        -- Either everything is copied, or the first buffer is gone.
        rcases Nat.eq_zero_or_pos (size + 1 - copy) with hdone | hmore
        · rw [hdone]
          exact ⟨u₁, h₁, ms, by cases fuel <;> rfl, ⟨rfl, by simp⟩, hq₁⟩
        · refine ih hq₁ (by rw [length_drop]; omega) ?_
          have hlt := hless (by omega)
          omega
      refine ⟨u₂, h₂, ns₂, ?_, ?_, ?_⟩
      · rw [ClientContext.readLoop]
        simp only [hu, hb, Option.bind_some, hif, hconsume, hloop, hcopied, htake, bind,
          Except.bind, pure, Except.pure]
      · have htrans := htook.trans htook₂
        rwa [Nat.add_sub_cancel' (by omega)] at htrans
      · rwa [drop_drop, Nat.add_sub_cancel' (by omega)] at hq₂

theorem recv_queue (hL : Documented L) (hq : Queue h u.rx_buf u.rx_buf_offset ns bs)
    {pb : List (Ptr × Content Unit)} (hne : pb ≠ []) (hfresh : Fresh h (pb.map fst))
    (hroom : bs.length + (bytes (pb.map snd)).length ≤ tcpWnd) :
    ∃ u' h' ms, u.recv L (pb.head?.map fst) (store h pb) = .ok (u', h') ∧
      u'.pcb = u.pcb ∧ u'.recved = u.recved ∧
      Queue h' u'.rx_buf u'.rx_buf_offset ms (bs ++ bytes (pb.map snd)) ∧
      ∀ b ∈ u.rx_buf.bind h.deref, u'.rx_buf_offset = u.rx_buf_offset ∧
        ∃ b' ∈ u'.rx_buf.bind h'.deref, b'.payload = b.payload := by
  have hpb := hfresh.holds
  have hsmall : ∀ d ∈ pb.map snd, d.payload.length ≤ tcpWnd := fun d hd => by
    have hle := length_le_bytes hd
    omega
  obtain ⟨⟨a, c⟩, rest, rfl⟩ := exists_cons_of_ne_nil hne
  have hwnd : tcpWnd = 5840 := rfl
  generalize hoff : u.rx_buf_offset = offset at hq
  cases hbuf : u.rx_buf with
  | none =>
    rw [hbuf] at hq
    cases hq with
    | empty =>
      refine ⟨{ u with rx_buf := some a, rx_buf_offset := 0 },
        store h ((a, c) :: rest), ((a, c) :: rest).map fst, ?_, rfl, rfl, ?_,
        fun b hb => by cases hb⟩
      · simp only [ClientContext.recv, head?_cons, Option.map_some, hbuf]
      · have htotal : (bytes (((a, c) :: rest).map snd)).length < 65536 := by omega
        exact .held hpb (.inl rfl) hsmall htotal
  | some p =>
    rw [hbuf] at hq
    cases hq with
    | @held _ _ d ds _ hh hoffset hsmall' htotal =>
      have hdis : ∀ x ∈ ns, x ∉ ((a, c) :: rest).map fst := fun x hx hmem =>
        hh.not_mem_of_free (hfresh.free x hmem) hx
      obtain ⟨h', hcat, hh', -⟩ := (hh.store hdis).cat hL hpb hdis
      refine ⟨u, h', ns ++ ((a, c) :: rest).map fst, ?_, rfl, rfl, ?_,
        fun b hb => ⟨hoff, ?_⟩⟩
      · simp only [ClientContext.recv, head?_cons, Option.map_some, hbuf, hcat, bind,
          Except.bind, pure, Except.pure]
      · have hd := hsmall' d mem_cons_self
        have hlen : ((bytes (d :: ds)).drop offset).length =
            (bytes (d :: ds)).length - offset := length_drop
        have hle : offset ≤ (bytes (d :: ds)).length := by
          rw [bytes_cons, length_append]
          omega
        rw [hbuf, hoff, ← drop_append_of_le_length hle, ← bytes_append]
        have htotal' : (bytes (d :: ds ++ ((a, c) :: rest).map snd)).length < 65536 := by
          rw [bytes_append, length_append]
          omega
        exact .held hh' hoffset
          (fun e he => (mem_append.mp he).elim (hsmall' e) (hsmall e)) htotal'
      · cases hh with
        | cons hderef _ _ =>
          cases hh' with
          | cons hderef' _ _ =>
            rw [Option.bind_some, hderef] at hb
            obtain rfl := Option.some.inj hb
            rw [hbuf]
            exact ⟨_, hderef', rfl⟩

end World

end Tcp
