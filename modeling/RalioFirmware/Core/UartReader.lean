import RalioFirmware.Basis.Runs
import RalioFirmware.Core.Uart

/-!
# What the reader of a UART gets

The reader's calls and the interrupts come in any order.  `Receiver` says what
the driver is for: two queues, one behind the other, of which the first gives
up its oldest bytes when it is full.  `run_delivers` compares the two over
whole runs.

The one thing that can go wrong is a view: `uart_peek_consume` takes as many
bytes as it is told from where the read position is by then, which after an
interrupt that had to make room is behind the bytes that
`uart_peek_buffer` showed.
-/

open Bytes Ring List

/-! ## Runs -/

inductive UartAction
  | receive (data : UInt8)
  | isr (UIFF error : Bool)
  | available
  | readChar
  | read (usersize : Nat)
  | peekChar
  | peekAvailable
  | peekBuffer
  | peekConsume (consume : Nat)
  | hasOverrun

namespace Uart

/-- The driver and its reader: what the reader has got, the last answer of
`uart_peek_available`, what `uart_peek_buffer` showed of it, and whether those
are the oldest unread bytes still. -/
structure Session where
  uart : Uart
  delivered : List UInt8
  count : Nat
  view : List UInt8
  fresh : Bool

namespace Session

def start (size : Nat) (buffer : List UInt8) : Session where
  uart := init size buffer
  delivered := []
  count := 0
  view := []
  fresh := false

def Drops (u : Uart) : Prop := u.rx_buffer.size ≤ u.rxAvailableUnsafe

instance (u : Uart) : Decidable (Drops u) := inferInstanceAs (Decidable (_ ≤ _))

/-- What a call's `int` delivers. -/
def byteOf (c : Int) : List UInt8 := if c < 0 then [] else [UInt8.ofInt c]

def act (a : UartAction) (s : Session) : Session :=
  match a with
  | .receive data => { s with uart := s.uart.receive data }
  | .isr UIFF error =>
    { s with uart := s.uart.isr UIFF error, fresh := s.fresh && !(UIFF && Drops s.uart) }
  | .available => s
  | .readChar =>
    { s with
      uart := s.uart.readChar.2
      delivered := s.delivered ++ byteOf s.uart.readChar.1
      fresh := false }
  | .read usersize =>
    { s with
      uart := (s.uart.read usersize).2
      delivered := s.delivered ++ (s.uart.read usersize).1
      fresh := false }
  | .peekChar =>
    { s with
      uart := s.uart.peekChar.2
      fresh := s.fresh && !decide (rxBufferAvailable s.uart.rx_buffer = 0 ∧ Drops s.uart) }
  | .peekAvailable =>
    { s with
      uart := s.uart.peekAvailable.2
      count := s.uart.peekAvailable.1
      view := []
      fresh := true }
  | .peekBuffer => { s with view := s.uart.peekBuffer.take s.count }
  | .peekConsume consume =>
    { s with
      uart := s.uart.peekConsume consume
      delivered := s.delivered ++ s.view.take consume
      count := s.count - consume
      view := s.view.drop consume }
  | .hasOverrun => { s with uart := s.uart.hasOverrun.2 }

/-- The reader consumes what it has been shown and what is still the oldest: no
read and no drop has come in between. -/
def Fits (a : UartAction) (s : Session) : Prop :=
  match a with
  | .peekConsume consume => consume = 0 ∨ (s.fresh = true ∧ consume ≤ s.view.length)
  | _ => True

instance (a : UartAction) (s : Session) : Decidable (Fits a s) :=
  match a with
  | .peekConsume consume => inferInstanceAs (Decidable (consume = 0 ∨ _))
  | .receive _ | .isr _ _ | .available | .readChar | .read _ | .peekChar | .peekAvailable
  | .peekBuffer | .hasOverrun => isTrue trivial

end Session

end Uart

/-! ## What it is for -/

inductive Fate
  | delivered
  | dropped
deriving DecidableEq

/-- A queue of bytes before a ring that holds at most so many, with the fate of
each byte that has left.  `lost` says whether a drop, or an interrupt for an
overflow of the first queue, has come since it was last cleared. -/
structure Receiver where
  ring : Fifo UInt8
  fifo : List UInt8
  received : List UInt8
  gone : List (Fate × UInt8)
  overflow : Bool
  lost : Bool

namespace Receiver

def start (limit : Nat) : Receiver where
  ring := Fifo.empty limit
  fifo := []
  received := []
  gone := []
  overflow := false
  lost := false

def unread (r : Receiver) : List UInt8 := r.ring.items ++ r.fifo

def delivered (r : Receiver) : List UInt8 :=
  (r.gone.filter fun e => e.1 = .delivered).map Prod.snd

def receive (data : UInt8) (r : Receiver) : Receiver :=
  if r.fifo.length < Uart.FIFO_SIZE then
    { r with fifo := r.fifo ++ [data], received := r.received ++ [data] }
  else { r with overflow := true }

/-- The FIFO goes to the ring.  The oldest unread bytes that do not fit any more
are dropped. -/
def copy (r : Receiver) : Receiver where
  ring := r.ring.force r.fifo
  fifo := []
  received := r.received
  gone := r.gone ++ (r.unread.take (r.unread.length - r.ring.limit)).map fun b => (.dropped, b)
  overflow := r.overflow
  lost := r.lost || decide (r.ring.limit < r.unread.length)

/-- The reader gets the oldest `n` bytes. -/
def take (n : Nat) (r : Receiver) : Receiver :=
  { r with
    ring := r.ring.drop n
    fifo := r.fifo.drop (n - r.ring.items.length)
    gone := r.gone ++ (r.unread.take n).map fun b => (.delivered, b) }

/-- The interrupt, which copies if the FIFO has reached its threshold and
reports what it has lost. -/
def interrupt (UIFF : Bool) (r : Receiver) : Receiver :=
  let r := if UIFF then r.copy else r
  { r with lost := r.lost || r.overflow, overflow := false }

def act (a : UartAction) (r : Receiver) : Receiver :=
  match a with
  | .receive data => r.receive data
  | .isr UIFF _ => r.interrupt UIFF
  | .available | .peekBuffer => r
  | .readChar => r.take 1
  | .read usersize => r.take usersize
  | .peekChar => if r.ring.items = [] ∧ r.fifo ≠ [] then r.copy else r
  | .peekAvailable => r.copy
  | .peekConsume consume => r.take consume
  | .hasOverrun => { r with lost := false }

end Receiver

namespace Receiver

variable {r : Receiver}

theorem copy_unread (r : Receiver) :
    r.copy.unread = r.unread.drop (r.unread.length - r.ring.limit) := by
  rw [unread, copy, append_nil, Fifo.force_items]
  rfl

theorem take_unread (n : Nat) (r : Receiver) : (r.take n).unread = r.unread.drop n := by
  rw [unread, take, unread, drop_append, Fifo.drop_items]

theorem delivered_append (gone : List (Fate × UInt8)) (bs : List UInt8) (fate : Fate) :
    ((gone ++ bs.map fun b => (fate, b)).filter fun e => e.1 = .delivered).map Prod.snd =
      (gone.filter fun e => e.1 = .delivered).map Prod.snd ++
        if fate = .delivered then bs else [] := by
  rw [filter_append, map_append, filter_map]
  congr 1
  split
  · rename_i hfate
    subst hfate
    simp [Function.comp_def]
  · rename_i hfate
    simp [Function.comp_def, hfate]

theorem copy_delivered (r : Receiver) : r.copy.delivered = r.delivered := by
  rw [delivered, copy, delivered_append, if_neg (by decide), append_nil, delivered]

theorem take_delivered (n : Nat) (r : Receiver) :
    (r.take n).delivered = r.delivered ++ r.unread.take n := by
  rw [delivered, take, delivered_append, if_pos rfl, delivered]

/-- Nothing comes from nowhere, nothing goes without trace, and the order
stays. -/
def Conserves (r : Receiver) : Prop := r.received = r.gone.map Prod.snd ++ r.unread

theorem map_fate (fate : Fate) (bs : List UInt8) :
    (bs.map fun b => (fate, b)).map Prod.snd = bs := by
  rw [map_map, Function.comp_def, map_id']

theorem Conserves.copy (h : r.Conserves) : r.copy.Conserves := by
  rw [Conserves, copy_unread, Receiver.copy, map_append, map_fate, append_assoc,
    take_append_drop]
  exact h

theorem Conserves.take (h : r.Conserves) (n : Nat) : (r.take n).Conserves := by
  rw [Conserves, take_unread, Receiver.take, map_append, map_fate, append_assoc,
    take_append_drop]
  exact h

theorem Conserves.receive (h : r.Conserves) (data : UInt8) : (r.receive data).Conserves := by
  rw [Receiver.receive]
  split
  · show r.received ++ [data] = r.gone.map Prod.snd ++ (r.ring.items ++ (r.fifo ++ [data]))
    rw [← append_assoc r.ring.items, ← append_assoc]
    exact congrArg (· ++ [data]) h
  · exact h

theorem Conserves.act (h : r.Conserves) (a : UartAction) : (r.act a).Conserves := by
  cases a with
  | receive data => exact h.receive data
  | isr UIFF error =>
    cases UIFF with
    | false => exact h
    | true => exact h.copy
  | available => exact h
  | readChar => exact h.take 1
  | read usersize => exact h.take usersize
  | peekChar =>
    rw [Receiver.act]
    split
    · exact h.copy
    · exact h
  | peekAvailable => exact h.copy
  | peekBuffer => exact h
  | peekConsume consume => exact h.take consume
  | hasOverrun => exact h

theorem Conserves.delivered_sublist (h : r.Conserves) : r.delivered.Sublist r.received := by
  have hgone : r.delivered.Sublist (r.gone.map Prod.snd) := filter_sublist.map Prod.snd
  rw [h]
  exact hgone.trans (sublist_append_left _ _)

end Receiver

namespace Uart

structure Sim (u : Uart) (r : Receiver) : Prop where
  ring : Repr u r.ring
  fifo : u.fifo = r.fifo
  enabled : u.rx_enabled = true
  lost : u.rx_overrun = r.lost
  overflow : u.UIOF = r.overflow

section

variable {u : Uart} {r : Receiver}

theorem Sim.unread (h : Sim u r) : u.unread = r.unread := by
  rw [h.ring.unread, h.fifo, Receiver.unread]

theorem Sim.availableUnsafe (h : Sim u r) : u.rxAvailableUnsafe = r.unread.length := by
  rw [h.ring.availableUnsafe, h.fifo, Receiver.unread]

theorem Sim.available (h : Sim u r) : u.rxAvailable = r.unread.length := by
  rw [← h.availableUnsafe, rxAvailable, h.enabled, if_neg (by exact Bool.noConfusion),
    rxAvailableUnsafe]

theorem Sim.drops_iff (h : Sim u r) : Session.Drops u ↔ r.ring.limit < r.unread.length := by
  rw [Session.Drops, h.availableUnsafe, ← h.ring.limit]
  exact Nat.succ_le_iff

theorem Sim.init {size : Nat} {buffer : List UInt8} (hsize : 1 ≤ size)
    (hbuffer : buffer.length = size) : Sim (init size buffer) (Receiver.start (size - 1)) where
  ring := Ring.Repr.empty hsize hbuffer
  fifo := rfl
  enabled := rfl
  lost := rfl
  overflow := rfl

theorem Sim.receive (h : Sim u r) (data : UInt8) : Sim (u.receive data) (r.receive data) := by
  rw [Uart.receive, Receiver.receive, h.fifo]
  split
  · exact ⟨h.ring, rfl, h.enabled, h.lost, h.overflow⟩
  · exact ⟨h.ring, rfl, h.enabled, h.lost, rfl⟩

theorem Sim.copy (h : Sim u r) : Sim u.rxCopyFifoToBufferUnsafe r.copy := by
  obtain ⟨hring, hlost⟩ := h.ring.copyFifo
  obtain ⟨hfifo, henabled, hoverflow, -⟩ := copyBytes_kept u.fifo u
  have hexcess : decide (0 < r.ring.excess r.fifo) = decide (r.ring.limit < r.unread.length) := by
    rw [decide_eq_decide, Fifo.excess, Receiver.unread]
    omega
  rw [h.fifo] at hring hlost
  exact {
    ring := hring
    fifo := hfifo
    enabled := henabled.trans h.enabled
    lost := by rw [hlost, h.lost, hexcess]; rfl
    overflow := hoverflow.trans h.overflow }

/-- **The interrupt handler.** -/
theorem Sim.isr (h : Sim u r) (UIFF error : Bool) :
    Sim (u.isr UIFF error) (r.interrupt UIFF) := by
  have hflags : ∀ {v : Uart} {w : Receiver}, Sim v w →
      Sim { v with rx_overrun := v.rx_overrun || v.UIOF, rx_error := v.rx_error || error,
                   UIOF := false }
        { w with lost := w.lost || w.overflow, overflow := false } := by
    intro v w hv
    exact ⟨hv.ring, hv.fifo, hv.enabled, by rw [hv.lost, hv.overflow], rfl⟩
  rw [Uart.isr, if_neg (by rw [h.enabled]; exact Bool.noConfusion), Receiver.interrupt]
  cases UIFF with
  | false => exact hflags h
  | true => exact hflags h.copy

/-- **A read** gives the oldest unread bytes. -/
theorem Sim.read (h : Sim u r) (usersize : Nat) :
    (u.read usersize).1 = r.unread.take usersize ∧ Sim (u.read usersize).2 (r.take usersize) := by
  obtain ⟨u', hread, hring, hfifo, hlost, henabled, hoverflow⟩ :=
    h.ring.readLoop (show usersize - ([] : List UInt8).length ≤ usersize from Nat.le_refl _)
  rw [nil_append, length_nil, Nat.sub_zero, h.fifo] at hread
  rw [length_nil, Nat.sub_zero] at hring
  rw [length_nil, Nat.sub_zero, h.fifo] at hfifo
  have hcall : u.read usersize = (r.unread.take usersize, u') := by
    rw [Uart.read, if_neg (by rw [h.enabled]; exact Bool.noConfusion), hread, Receiver.unread]
  rw [hcall]
  exact ⟨rfl, hring, hfifo, henabled.trans h.enabled, hlost.trans h.lost,
    hoverflow.trans h.overflow⟩

theorem Sim.readChar (h : Sim u r) :
    Session.byteOf u.readChar.1 = r.unread.take 1 ∧ Sim u.readChar.2 (r.take 1) := by
  obtain ⟨hbytes, hsim⟩ := h.read 1
  rw [Uart.readChar]
  generalize u.read 1 = result at hbytes hsim ⊢
  obtain ⟨bytes, u'⟩ := result
  cases bytes with
  | nil => exact ⟨hbytes, hsim⟩
  | cons b rest =>
    refine ⟨?_, hsim⟩
    have hrest : rest = [] := by
      have := congrArg length hbytes
      rw [length_cons, length_take] at this
      exact eq_nil_of_length_eq_zero (by omega)
    subst hrest
    show Session.byteOf (b.toNat : Int) = r.unread.take 1
    rw [← hbytes, Session.byteOf, if_neg (by omega), ofInt_toNat]

theorem Sim.peekChar_snd (h : Sim u r) :
    u.peekChar.2 =
      if r.ring.items = [] ∧ r.fifo ≠ [] then u.rxCopyFifoToBufferUnsafe else u := by
  rw [Uart.peekChar, if_neg (by rw [h.enabled]; exact Bool.noConfusion), h.availableUnsafe]
  by_cases hnone : r.unread.length = 0
  · have hempty := append_eq_nil_iff.1 (eq_nil_of_length_eq_zero hnone)
    rw [if_pos hnone, if_neg fun hsome => hsome.2 hempty.2]
  · have hiff : rxBufferAvailable u.rx_buffer = 0 ↔ r.ring.items = [] ∧ r.fifo ≠ [] := by
      rw [h.ring.available, length_eq_zero_iff]
      refine ⟨fun hitems => ⟨hitems, fun hfifo => hnone ?_⟩, And.left⟩
      rw [Receiver.unread, hitems, hfifo]
      rfl
    rw [if_neg hnone]
    simp only [hiff]

theorem Sim.peekConsume (h : Sim u r) {n : Nat} (hn : n ≤ r.ring.items.length)
    (hpiece : u.rx_buffer.rpos + n ≤ u.rx_buffer.size) :
    Sim (u.peekConsume n) (r.take n) := by
  have hlen := h.ring.length
  have hend : u.rx_buffer.rpos + n ≤
      readEnd u.rx_buffer.size u.rx_buffer.rpos u.rx_buffer.wpos := by
    unfold held at hlen
    unfold readEnd
    split <;> split at hlen <;> omega
  refine ⟨h.ring.peekConsume hend, ?_, h.enabled, h.lost, h.overflow⟩
  show u.fifo = r.fifo.drop (n - r.ring.items.length)
  rw [Nat.sub_eq_zero_of_le hn, drop_zero, h.fifo]

theorem Sim.hasOverrun (h : Sim u r) : Sim u.hasOverrun.2 { r with lost := false } := by
  rw [Uart.hasOverrun]
  split
  · rename_i hclear
    exact ⟨h.ring, h.fifo, h.enabled, hclear, h.overflow⟩
  · exact ⟨h.ring, h.fifo, h.enabled, rfl, h.overflow⟩

end

namespace Session

structure Inv (s : Session) (r : Receiver) : Prop where
  sim : Sim s.uart r
  delivered : s.delivered = r.delivered
  conserves : r.Conserves
  view_le : s.view.length ≤ s.count
  count_le : s.fresh = true → s.count ≤ r.ring.items.length ∧
    s.uart.rx_buffer.rpos + s.count ≤ s.uart.rx_buffer.size
  view : s.fresh = true → s.view = r.ring.items.take s.view.length

section

variable {s : Session} {r : Receiver}

theorem Inv.start {size : Nat} {buffer : List UInt8} (hsize : 1 ≤ size)
    (hbuffer : buffer.length = size) :
    Inv (start size buffer) (Receiver.start (size - 1)) where
  sim := Sim.init hsize hbuffer
  delivered := rfl
  conserves := rfl
  view_le := Nat.le_refl _
  count_le := Bool.noConfusion
  view := Bool.noConfusion

theorem Inv.stale (h : Inv s r) {u' : Uart} {bytes : List UInt8} {n : Nat}
    (hsim : Sim u' (r.take n)) (hbytes : bytes = r.unread.take n) :
    Inv { s with uart := u', delivered := s.delivered ++ bytes, fresh := false } (r.take n) where
  sim := hsim
  delivered := by rw [Receiver.take_delivered, hbytes, ← h.delivered]
  conserves := h.conserves.take n
  view_le := h.view_le
  count_le := Bool.noConfusion
  view := Bool.noConfusion

theorem Inv.copyFresh (h : Inv s r) (hfresh : s.fresh = true) (hroom : ¬ Drops s.uart) :
    s.count ≤ r.copy.ring.items.length ∧
      s.uart.rxCopyFifoToBufferUnsafe.rx_buffer.rpos + s.count ≤
        s.uart.rxCopyFifoToBufferUnsafe.rx_buffer.size ∧
      s.view = r.copy.ring.items.take s.view.length := by
  obtain ⟨hcount, hpiece⟩ := h.count_le hfresh
  have hexcess : r.ring.excess r.fifo = 0 := by
    rw [h.sim.drops_iff, Receiver.unread] at hroom
    rw [Fifo.excess]
    omega
  have hitems : r.copy.ring.items = r.ring.items ++ r.fifo := by
    show (r.ring.force r.fifo).items = _
    rw [Fifo.force_items, hexcess, drop_zero]
  have hrpos : s.uart.rxCopyFifoToBufferUnsafe.rx_buffer.rpos = s.uart.rx_buffer.rpos :=
    h.sim.ring.copyBytes_rpos (by rw [h.sim.fifo, hexcess])
  have hsize := (copyBytes_kept s.uart.fifo s.uart).2.2.2
  have hview := h.view hfresh
  have hle := h.view_le
  refine ⟨?_, ?_, ?_⟩
  · grind
  · rw [hrpos, rxCopyFifoToBufferUnsafe, hsize]
    exact hpiece
  · grind

theorem Inv.copied (h : Inv s r) {u' : Uart} {r' : Receiver} {fresh : Bool}
    (hsim : Sim u' r') (hring : r'.ring = r.copy.ring) (hgone : r'.gone = r.copy.gone)
    (hconserves : r'.Conserves) (hfresh : fresh = true → s.fresh = true ∧ ¬ Drops s.uart)
    (hbuffer : u'.rx_buffer = s.uart.rxCopyFifoToBufferUnsafe.rx_buffer) :
    Inv { s with uart := u', fresh := fresh } r' where
  sim := hsim
  delivered := by
    rw [h.delivered, ← r.copy_delivered, Receiver.delivered, ← hgone, Receiver.delivered]
  conserves := hconserves
  view_le := h.view_le
  count_le := by
    intro hf
    obtain ⟨hold, hroom⟩ := hfresh hf
    obtain ⟨hcount, hpiece, -⟩ := h.copyFresh hold hroom
    rw [hring, hbuffer]
    exact ⟨hcount, hpiece⟩
  view := by
    intro hf
    obtain ⟨hold, hroom⟩ := hfresh hf
    rw [hring]
    exact (h.copyFresh hold hroom).2.2

theorem Inv.kept (h : Inv s r) {u' : Uart} {r' : Receiver} (hsim : Sim u' r')
    (hring : r'.ring = r.ring) (hgone : r'.gone = r.gone) (hconserves : r'.Conserves)
    (hbuffer : u'.rx_buffer = s.uart.rx_buffer) :
    Inv { s with uart := u' } r' where
  sim := hsim
  delivered := by rw [h.delivered, Receiver.delivered, ← hgone, Receiver.delivered]
  conserves := hconserves
  view_le := h.view_le
  count_le := by rw [hring, hbuffer]; exact h.count_le
  view := by rw [hring]; exact h.view

theorem Inv.peekAvailable (h : Inv s r) :
    Inv (s.act .peekAvailable) (r.act .peekAvailable) := by
  have hsim := h.sim.copy
  have hlen := hsim.ring.length
  have hf := hsim.ring.first_lt
  have hl := hsim.ring.last_lt
  have hcount : s.uart.peekAvailable.1 ≤ r.copy.ring.items.length ∧
      s.uart.rxCopyFifoToBufferUnsafe.rx_buffer.rpos + s.uart.peekAvailable.1 ≤
        s.uart.rxCopyFifoToBufferUnsafe.rx_buffer.size := by
    rw [Uart.peekAvailable]
    dsimp only
    unfold held at hlen
    split <;> split at hlen <;> omega
  exact {
    sim := hsim
    delivered := h.delivered.trans r.copy_delivered.symm
    conserves := h.conserves.copy
    view_le := Nat.zero_le _
    count_le := fun _ => hcount
    view := fun _ => rfl }

theorem Inv.peekBuffer (h : Inv s r) : Inv (s.act .peekBuffer) r where
  sim := h.sim
  delivered := h.delivered
  conserves := h.conserves
  view_le := by
    show (s.uart.peekBuffer.take s.count).length ≤ s.count
    rw [length_take]
    exact Nat.min_le_left _ _
  count_le := h.count_le
  view := by
    intro hfresh
    obtain ⟨hcount, hpiece⟩ := h.count_le hfresh
    have hlen := h.sim.ring.length
    have hend : s.uart.rx_buffer.rpos + s.count ≤ readEnd s.uart.rx_buffer.size
        s.uart.rx_buffer.rpos s.uart.rx_buffer.wpos := by
      unfold held at hlen
      unfold readEnd
      split <;> split at hlen <;> omega
    have hread : s.uart.peekBuffer.take s.count = r.ring.items.take s.count :=
      (h.sim.ring.readBlock hend).1
    show s.uart.peekBuffer.take s.count =
      r.ring.items.take (s.uart.peekBuffer.take s.count).length
    rw [hread, length_take, Nat.min_eq_left hcount]

theorem Inv.peekConsume (h : Inv s r) {consume : Nat} (hfit : Fits (.peekConsume consume) s) :
    Inv (s.act (.peekConsume consume)) (r.take consume) := by
  have hrpos := h.sim.ring.first_lt
  have hview_le := h.view_le
  -- What is consumed is what was shown, and it stands in one piece.
  obtain ⟨hle, hpiece, htake⟩ : consume ≤ r.ring.items.length ∧
      s.uart.rx_buffer.rpos + consume ≤ s.uart.rx_buffer.size ∧
      s.view.take consume = r.unread.take consume := by
    obtain rfl | ⟨hfresh, hview⟩ := hfit
    · exact ⟨Nat.zero_le _, by omega, rfl⟩
    · obtain ⟨hcount, hin⟩ := h.count_le hfresh
      refine ⟨by omega, by omega, ?_⟩
      rw [h.view hfresh, take_take, Nat.min_eq_left hview, Receiver.unread,
        take_append_of_le_length (by omega)]
  exact {
    sim := h.sim.peekConsume hle hpiece
    delivered := by
      show s.delivered ++ s.view.take consume = (r.take consume).delivered
      rw [Receiver.take_delivered, htake, h.delivered]
    conserves := h.conserves.take consume
    view_le := by
      show (s.view.drop consume).length ≤ s.count - consume
      rw [length_drop]
      omega
    count_le := by
      intro hfresh
      obtain ⟨hcount, hin⟩ := h.count_le hfresh
      show s.count - consume ≤ (r.ring.items.drop consume).length ∧
        (if s.uart.rx_buffer.rpos + consume ≥ s.uart.rx_buffer.size then
          s.uart.rx_buffer.rpos + consume - s.uart.rx_buffer.size
          else s.uart.rx_buffer.rpos + consume) + (s.count - consume) ≤ s.uart.rx_buffer.size
      rw [length_drop]
      split <;> omega
    view := by
      intro hfresh
      show s.view.drop consume =
        (r.ring.items.drop consume).take (s.view.drop consume).length
      rw [length_drop, ← drop_take, ← h.view hfresh] }

/-- **One step**: the driver does what it is for, as long as the reader's view
is fresh when it consumes. -/
theorem Inv.act (h : Inv s r) (a : UartAction) (hfit : Fits a s) :
    Inv (s.act a) (r.act a) := by
  have hconserves := h.conserves.act a
  cases a with
  | receive data =>
    refine h.kept (h.sim.receive data) ?_ ?_ hconserves ?_
    · rw [Receiver.act, Receiver.receive]
      split <;> rfl
    · rw [Receiver.act, Receiver.receive]
      split <;> rfl
    · rw [Uart.receive]
      split <;> rfl
  | isr UIFF error =>
    have hsim := h.sim.isr UIFF error
    have henabled := h.sim.enabled
    cases UIFF with
    | false =>
      have hfresh : (s.fresh && !(false && decide (Drops s.uart))) = s.fresh := by
        rw [Bool.false_and, Bool.not_false, Bool.and_true]
      rw [Session.act, hfresh]
      refine h.kept hsim rfl rfl hconserves ?_
      rw [Uart.isr, if_neg (by rw [henabled]; exact Bool.noConfusion)]
      rfl
    | true =>
      refine h.copied hsim rfl rfl hconserves ?_ ?_
      · intro hfresh
        simpa using hfresh
      · rw [Uart.isr, if_neg (by rw [henabled]; exact Bool.noConfusion)]
        rfl
  | available => exact h
  | readChar =>
    obtain ⟨hbytes, hsim⟩ := h.sim.readChar
    exact h.stale hsim hbytes
  | read usersize =>
    obtain ⟨hbytes, hsim⟩ := h.sim.read usersize
    exact h.stale hsim hbytes
  | peekChar =>
    have hsnd := h.sim.peekChar_snd
    by_cases hcopy : r.ring.items = [] ∧ r.fifo ≠ []
    · rw [if_pos hcopy] at hsnd
      have hact : r.act .peekChar = r.copy := if_pos hcopy
      have hnone : rxBufferAvailable s.uart.rx_buffer = 0 := by
        rw [h.sim.ring.available, hcopy.1, length_nil]
      rw [hact] at hconserves ⊢
      refine h.copied (by rw [hsnd]; exact h.sim.copy) rfl rfl hconserves ?_ (by rw [hsnd])
      intro hfresh
      simpa [hnone] using hfresh
    · rw [if_neg hcopy] at hsnd
      have hact : r.act .peekChar = r := if_neg hcopy
      have hkept : ¬ (rxBufferAvailable s.uart.rx_buffer = 0 ∧ Drops s.uart) := by
        rintro ⟨hnone, hdrops⟩
        rw [h.sim.ring.available] at hnone
        have hitems := eq_nil_of_length_eq_zero hnone
        have hfifo : r.fifo = [] :=
          Decidable.byContradiction fun hsome => hcopy ⟨hitems, hsome⟩
        rw [h.sim.drops_iff, Receiver.unread, hitems, hfifo] at hdrops
        exact Nat.not_lt_zero _ hdrops
      have hfresh : (s.fresh && !decide (rxBufferAvailable s.uart.rx_buffer = 0 ∧
          Drops s.uart)) = s.fresh := by
        rw [decide_eq_false hkept, Bool.not_false, Bool.and_true]
      rw [Session.act, hfresh, hact, hsnd]
      exact h
  | peekAvailable => exact h.peekAvailable
  | peekBuffer => exact h.peekBuffer
  | peekConsume consume => exact h.peekConsume hfit
  | hasOverrun =>
    refine h.kept h.sim.hasOverrun rfl rfl hconserves ?_
    rw [Uart.hasOverrun]
    split <;> rfl

/-- **The invariant holds along runs.** -/
theorem Inv.run {actions : List UartAction} (h : Inv s r)
    (hfit : Runs.AllFit Session.act Fits actions s) :
    Inv (Runs.after Session.act actions s) (Runs.after Receiver.act actions r) := by
  induction actions generalizing s r with
  | nil => exact h
  | cons a rest ih => exact ih (h.act a hfit.1) hfit.2

end

/-- The reader has what the receiver has delivered, which is part of what it
received, in order: each byte was delivered, dropped to make room, or is unread
still.  The counts and the overrun flag tell the truth, and the positions stay
inside the ring. -/
structure Delivers (s : Session) (r : Receiver) : Prop where
  delivered : s.delivered = r.delivered
  conserved : r.received = r.gone.map Prod.snd ++ s.uart.unread
  ordered : s.delivered.Sublist r.received
  available : s.uart.rxAvailable = s.uart.unread.length
  overrun : s.uart.rx_overrun = r.lost
  rpos_lt : s.uart.rx_buffer.rpos < s.uart.rx_buffer.size
  wpos_lt : s.uart.rx_buffer.wpos < s.uart.rx_buffer.size

/-- **What the reader gets**, over every order of arrivals, interrupts and calls
in which what it consumes of a view is what the view showed. -/
theorem run_delivers (size : Nat) (buffer : List UInt8) (actions : List UartAction)
    (hsize : 1 ≤ size) (hbuffer : buffer.length = size)
    (hfit : Runs.AllFit act Fits actions (start size buffer)) :
    Delivers (Runs.after act actions (start size buffer))
      (Runs.after Receiver.act actions (Receiver.start (size - 1))) := by
  have h := (Inv.start hsize hbuffer).run hfit
  exact {
    delivered := h.delivered
    conserved := by rw [h.sim.unread]; exact h.conserves
    ordered := by rw [h.delivered]; exact h.conserves.delivered_sublist
    available := by rw [h.sim.available, h.sim.unread]
    overrun := h.sim.lost
    rpos_lt := h.sim.ring.first_lt
    wpos_lt := h.sim.ring.last_lt }

def crowded : List UartAction :=
  [.receive 1, .receive 2, .receive 3, .receive 4, .receive 5, .isr true false, .peekAvailable,
    .peekBuffer, .peekConsume 2, .readChar, .hasOverrun]

theorem run_delivers_crowded :
    Delivers (Runs.after act crowded (start 4 [0, 0, 0, 0]))
      (Runs.after Receiver.act crowded (Receiver.start (4 - 1))) :=
  run_delivers 4 [0, 0, 0, 0] crowded (by decide) rfl (by decide)

def overtaken : List UartAction :=
  [.receive 1, .receive 2, .receive 3, .peekAvailable, .peekBuffer, .receive 4, .receive 5,
    .isr true false, .peekConsume 3]

/-- The reader has got the first three bytes, and the last two are lost, though
they never were the oldest ones. -/
theorem overtaken_loses :
    ¬ Delivers (Runs.after act overtaken (start 4 [0, 0, 0, 0]))
      (Runs.after Receiver.act overtaken (Receiver.start (4 - 1))) := by
  intro h
  exact absurd h.delivered (by decide)

end Session

end Uart
