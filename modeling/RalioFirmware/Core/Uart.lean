import RalioFirmware.Basis.Fifo
import RalioFirmware.Basis.Ring

/-!
# The UART receiver

Received bytes wait in the hardware FIFO, then in a ring in RAM.  The
interrupt handler moves them from the one to the other, and makes room in the
ring by dropping the oldest.  The readers take them from the ring and, once it
is empty, from the FIFO itself.

A call with the UART's interrupt disabled is one step here.
-/

open Bytes Ring List

/-- `struct uart_rx_buffer_`. -/
structure UartRxBuffer where
  size : Nat
  rpos : Nat
  wpos : Nat
  buffer : List UInt8

/-- The receiving half of `struct uart_`, with the hardware's FIFO and its
overflow interrupt. -/
structure Uart where
  rx_enabled : Bool
  rx_overrun : Bool
  rx_error : Bool
  rx_buffer : UartRxBuffer
  fifo : List UInt8
  UIOF : Bool

namespace Uart

/-! ## The hardware -/

def FIFO_SIZE : Nat := 128

/-- A byte arrives.  A full FIFO loses it and asks for an interrupt. -/
def receive (data : UInt8) (u : Uart) : Uart :=
  if u.fifo.length < FIFO_SIZE then { u with fifo := u.fifo ++ [data] }
  else { u with UIOF := true }

/-! ## The driver -/

/-- What `uart_init` leaves for a receiver, over the array `malloc` returned. -/
def init (rx_size : Nat) (buffer : List UInt8) : Uart where
  rx_enabled := true
  rx_overrun := false
  rx_error := false
  rx_buffer := ⟨rx_size, 0, 0, buffer⟩
  fifo := []
  UIOF := false

def rxFifoAvailable (u : Uart) : Nat := u.fifo.length

def rxBufferAvailable (b : UartRxBuffer) : Nat :=
  if b.wpos < b.rpos then b.wpos + b.size - b.rpos else b.wpos - b.rpos

/-- `uart_rx_available_unsafe`. -/
def rxAvailableUnsafe (u : Uart) : Nat := rxBufferAvailable u.rx_buffer + u.rxFifoAvailable

/-- One round of the loop of `uart_rx_copy_fifo_to_buffer_unsafe`: a full ring
drops its oldest byte for `data`. -/
def copyByte (data : UInt8) (u : Uart) : Uart :=
  let b := u.rx_buffer
  let nextPos := (b.wpos + 1) % b.size
  let full := nextPos = b.rpos
  { u with
    rx_overrun := u.rx_overrun || full
    rx_buffer := { b with
      rpos := if full then (if b.rpos + 1 = b.size then 0 else b.rpos + 1) else b.rpos
      buffer := memcpy b.buffer b.wpos [data]
      wpos := nextPos } }

/-- `uart_rx_copy_fifo_to_buffer_unsafe`, for the bytes in the FIFO. -/
def copyBytes : List UInt8 → Uart → Uart
  | [], u => { u with fifo := [] }
  | data :: rest, u => copyBytes rest (u.copyByte data)

def rxCopyFifoToBufferUnsafe (u : Uart) : Uart := copyBytes u.fifo u

/-- `uart_rx_available`. -/
def rxAvailable (u : Uart) : Nat :=
  if u.rx_enabled = false then 0 else rxBufferAvailable u.rx_buffer + u.rxFifoAvailable

/-- `uart_peek_char`. -/
def peekChar (u : Uart) : Int × Uart :=
  if u.rx_enabled = false then (-1, u)
  else if u.rxAvailableUnsafe = 0 then (-1, u)
  else
    let u := if rxBufferAvailable u.rx_buffer = 0 then u.rxCopyFifoToBufferUnsafe else u
    ((u.rx_buffer.buffer.getD u.rx_buffer.rpos 0).toNat, u)

/-- `uart_read_char_unsafe`. -/
def readCharUnsafe (u : Uart) : Int × Uart :=
  let b := u.rx_buffer
  if rxBufferAvailable b ≠ 0 then
    ((b.buffer.getD b.rpos 0).toNat,
      { u with rx_buffer := { b with rpos := (b.rpos + 1) % b.size } })
  else (-1, u)

/-- `uart_peek_available`. -/
def peekAvailable (u : Uart) : Nat × Uart :=
  let u := u.rxCopyFifoToBufferUnsafe
  let b := u.rx_buffer
  (if b.wpos < b.rpos then b.size - b.rpos else b.wpos - b.rpos, u)

/-- `uart_peek_buffer`: the array from the read position on. -/
def peekBuffer (u : Uart) : List UInt8 := u.rx_buffer.buffer.drop u.rx_buffer.rpos

/-- `uart_peek_consume`. -/
def peekConsume (consume : Nat) (u : Uart) : Uart :=
  let b := u.rx_buffer
  let rpos := b.rpos + consume
  { u with rx_buffer := { b with rpos := if rpos ≥ b.size then rpos - b.size else rpos } }

/-- The loop of `uart_read`: `ret` has been read.  Each round takes at least
one byte or is the last. -/
def readLoop : Nat → Nat → List UInt8 → Uart → List UInt8 × Uart
  | 0, _, ret, u => (ret, u)
  | rounds+1, usersize, ret, u =>
    if ret.length < usersize ∧ u.rxAvailableUnsafe ≠ 0 then
      let b := u.rx_buffer
      if rxBufferAvailable b = 0 then
        let n := usersize - ret.length
        (ret ++ u.fifo.take n, { u with fifo := u.fifo.drop n })
      else
        let chunk := if b.rpos < b.wpos then b.wpos - b.rpos else b.size - b.rpos
        let chunk := if ret.length + chunk > usersize then usersize - ret.length else chunk
        readLoop rounds usersize (ret ++ (b.buffer.drop b.rpos).take chunk)
          { u with rx_buffer := { b with rpos := (b.rpos + chunk) % b.size } }
    else (ret, u)

/-- `uart_read`: the bytes stored for the reader. -/
def read (usersize : Nat) (u : Uart) : List UInt8 × Uart :=
  if u.rx_enabled = false then ([], u) else readLoop usersize usersize [] u

/-- `uart_read_char`. -/
def readChar (u : Uart) : Int × Uart :=
  match u.read 1 with
  | (b :: _, u) => (b.toNat, u)
  | ([], u) => (-1, u)

/-- `uart_has_overrun`. -/
def hasOverrun (u : Uart) : Bool × Uart :=
  if u.rx_overrun = false then (false, u) else (true, { u with rx_overrun := false })

/-- `uart_isr`, with the status bits for a FIFO at its threshold and for
errors on the line. -/
def isr (UIFF error : Bool) (u : Uart) : Uart :=
  if u.rx_enabled = false then { u with UIOF := false }
  else
    let u := if UIFF then u.rxCopyFifoToBufferUnsafe else u
    { u with
      rx_overrun := u.rx_overrun || u.UIOF
      rx_error := u.rx_error || error
      UIOF := false }

/-- The copy loop of `uart_resize_rx_buffer`.  The bytes stored are those of
`uart_read_char_unsafe`, -1 as 0xFF. -/
def resizeLoop : Nat → List UInt8 → Uart → List UInt8 × Uart
  | 0, new_buf, u => (new_buf, u)
  | room+1, new_buf, u =>
    if u.rxAvailableUnsafe ≠ 0 then
      let (c, u) := u.readCharUnsafe
      resizeLoop room (new_buf ++ [UInt8.ofInt c]) u
    else (new_buf, u)

/-- `uart_resize_rx_buffer`; `malloc` is the array it returns, if any. -/
def resizeRxBuffer (new_size : Nat) (malloc : Option (List UInt8)) (u : Uart) : Nat × Uart :=
  if u.rx_enabled = false then (0, u)
  else if u.rx_buffer.size = new_size then (u.rx_buffer.size, u)
  else
    match malloc with
    | none => (u.rx_buffer.size, u)
    | some block =>
      let (copied, u) := resizeLoop new_size [] u
      let new_wpos := if copied.length = new_size then 0 else copied.length
      (new_size, { u with
        rx_buffer := ⟨new_size, 0, new_wpos, memcpy block 0 copied⟩ })

/-! ## The ring as a queue -/

abbrev Repr (u : Uart) (q : Fifo UInt8) : Prop :=
  Ring.Repr u.rx_buffer.size u.rx_buffer.buffer u.rx_buffer.rpos u.rx_buffer.wpos q

section

variable {u : Uart} {q : Fifo UInt8}

theorem Repr.available (h : Repr u q) : rxBufferAvailable u.rx_buffer = q.items.length := by
  have hf := h.first_lt
  have hl := h.last_lt
  rw [h.length, rxBufferAvailable, held]
  split <;> split <;> omega

theorem Repr.availableUnsafe (h : Repr u q) :
    u.rxAvailableUnsafe = (q.items ++ u.fifo).length := by
  rw [rxAvailableUnsafe, h.available, length_append, rxFifoAvailable]

/-- **One byte into the ring**: a full one drops its oldest byte and raises the
overrun flag. -/
theorem Repr.copyByte (h : Repr u q) (data : UInt8) :
    Repr (u.copyByte data) (q.force [data]) ∧
      (u.copyByte data).rx_overrun = (u.rx_overrun || decide (0 < q.excess [data])) := by
  have hf := h.first_lt
  have hl := h.last_lt
  have hlimit := h.limit
  have hlen := h.length
  have hmod : (u.rx_buffer.wpos + 1) % u.rx_buffer.size =
      wrap u.rx_buffer.size (u.rx_buffer.wpos + 1) := mod_eq_wrap (by omega)
  have hexcess : q.excess [data] = q.items.length + 1 - q.limit := by
    rw [Fifo.excess, length_append, length_singleton]
  unfold held at hlen
  rw [Uart.copyByte]
  dsimp only
  rw [hmod]
  by_cases hfull : wrap u.rx_buffer.size (u.rx_buffer.wpos + 1) = u.rx_buffer.rpos
  · have hitems : q.items.length = q.limit := by
      unfold wrap at hfull
      split at hfull <;> split at hlen <;> omega
    refine ⟨?_, by rw [hexcess, decide_eq_true hfull, decide_eq_true (by omega)]⟩
    rw [if_pos hfull]
    by_cases hone : u.rx_buffer.size = 1
    · -- A ring of one cell has room for nothing.
      have hrpos : u.rx_buffer.rpos = 0 := by omega
      have hwpos : u.rx_buffer.wpos = 0 := by omega
      have hempty : q.force [data] = Fifo.empty (u.rx_buffer.size - 1) := by
        refine Fifo.ext_items (show q.limit = u.rx_buffer.size - 1 by omega) ?_
        refine eq_nil_of_length_eq_zero ?_
        have := (q.force [data]).fits
        rw [Fifo.force_limit] at this
        omega
      have hlength := memcpy_length (show 0 + [data].length ≤ u.rx_buffer.buffer.length by
        rw [h.length_buf, hone]
        exact Nat.le_refl 1)
      rw [hempty, hrpos, hwpos, hone]
      exact Ring.Repr.empty (Nat.le_refl 1) (by rw [hlength, h.length_buf, hone])
    · have hne : u.rx_buffer.rpos ≠ u.rx_buffer.wpos := by grind
      have hnext := (h.head hne).2
      have hlen' := hnext.length
      rw [Fifo.force_of_full hitems (by omega)]
      have hroom : [data].length ≤ (q.drop 1).room := by
        rw [Fifo.room, Fifo.drop_limit, Fifo.drop_items, length_drop, length_singleton]
        omega
      refine hnext.writeBlock [data] ?_ hroom
      rw [Fifo.drop_items, length_drop] at hlen'
      unfold held at hlen'
      unfold writeEnd
      rw [length_singleton]
      split <;> split at hlen' <;> omega
  · have hroom : [data].length ≤ q.room := by
      rw [Fifo.room, length_singleton]
      unfold wrap at hfull
      split at hfull <;> split at hlen <;> omega
    refine ⟨?_, ?_⟩
    · rw [if_neg hfull, Fifo.force_of_le_room hroom]
      refine h.writeBlock [data] ?_ hroom
      unfold writeEnd
      rw [length_singleton]
      unfold wrap at hfull
      split <;> split at hfull <;> omega
    · rw [Fifo.room, length_singleton] at hroom
      rw [hexcess, decide_eq_false hfull, decide_eq_false (by omega)]

theorem Repr.copyByte_rpos (h : Repr u q) {data : UInt8} (hroom : q.excess [data] = 0) :
    (u.copyByte data).rx_buffer.rpos = u.rx_buffer.rpos := by
  have hf := h.first_lt
  have hl := h.last_lt
  have hlimit := h.limit
  have hlen := h.length
  have hnotfull : ¬ (u.rx_buffer.wpos + 1) % u.rx_buffer.size = u.rx_buffer.rpos := by
    rw [mod_eq_wrap (by omega)]
    rw [Fifo.excess, length_append, length_singleton] at hroom
    unfold held at hlen
    unfold wrap
    split <;> split at hlen <;> omega
  exact if_neg hnotfull

theorem copyBytes_kept (bs : List UInt8) (u : Uart) :
    (copyBytes bs u).fifo = [] ∧ (copyBytes bs u).rx_enabled = u.rx_enabled ∧
      (copyBytes bs u).UIOF = u.UIOF ∧ (copyBytes bs u).rx_buffer.size = u.rx_buffer.size := by
  induction bs generalizing u with
  | nil => exact ⟨rfl, rfl, rfl, rfl⟩
  | cons data rest ih => exact ih (u.copyByte data)

theorem Repr.copyBytes (h : Repr u q) (bs : List UInt8) :
    Repr (Uart.copyBytes bs u) (q.force bs) ∧
      (Uart.copyBytes bs u).rx_overrun = (u.rx_overrun || decide (0 < q.excess bs)) := by
  induction bs generalizing u q with
  | nil =>
    have hexcess : q.excess [] = 0 := by
      have := q.fits
      rw [Fifo.excess, append_nil]
      omega
    refine ⟨by rw [Fifo.force_nil]; exact h, ?_⟩
    rw [hexcess, decide_eq_false (by omega), Bool.or_false]
    rfl
  | cons data rest ih =>
    obtain ⟨hbyte, hflag⟩ := h.copyByte data
    obtain ⟨hrest, hflags⟩ := ih hbyte
    rw [Fifo.force_force, singleton_append] at hrest
    refine ⟨hrest, ?_⟩
    have hexcess := q.excess_append [data] rest
    rw [singleton_append] at hexcess
    rw [Uart.copyBytes, hflags, hflag, hexcess, Bool.or_assoc, ← Bool.decide_or]
    congr 2
    rw [eq_iff_iff]
    omega

theorem Repr.copyBytes_rpos (h : Repr u q) {bs : List UInt8} (hroom : q.excess bs = 0) :
    (Uart.copyBytes bs u).rx_buffer.rpos = u.rx_buffer.rpos := by
  induction bs generalizing u q with
  | nil => rfl
  | cons data rest ih =>
    have hexcess := q.excess_append [data] rest
    rw [singleton_append, hroom] at hexcess
    rw [Uart.copyBytes, ih (h.copyByte data).1 (by omega), h.copyByte_rpos (by omega)]

/-- **The interrupt's copy**: the ring keeps the newest bytes that fit. -/
theorem Repr.copyFifo (h : Repr u q) :
    Repr u.rxCopyFifoToBufferUnsafe (q.force u.fifo) ∧
      u.rxCopyFifoToBufferUnsafe.rx_overrun =
        (u.rx_overrun || decide (0 < q.excess u.fifo)) := h.copyBytes u.fifo

theorem Repr.peekConsume (h : Repr u q) {n : Nat}
    (hn : u.rx_buffer.rpos + n ≤ readEnd u.rx_buffer.size u.rx_buffer.rpos u.rx_buffer.wpos) :
    Repr (u.peekConsume n) (q.drop n) := by
  have hf := h.first_lt
  have hl := h.last_lt
  have hnext := (h.readBlock hn).2
  have hpos : (if u.rx_buffer.rpos + n ≥ u.rx_buffer.size then
      u.rx_buffer.rpos + n - u.rx_buffer.size else u.rx_buffer.rpos + n) =
      wrap u.rx_buffer.size (u.rx_buffer.rpos + n) := by
    unfold readEnd at hn
    unfold wrap
    split <;> split <;> split at hn <;> omega
  rw [Uart.peekConsume, hpos]
  exact hnext

theorem Repr.readChunk (h : Repr u q) (hsome : q.items ≠ []) (want : Nat) {chunk : Nat}
    (hchunk : chunk = min (if u.rx_buffer.rpos < u.rx_buffer.wpos then
      u.rx_buffer.wpos - u.rx_buffer.rpos else u.rx_buffer.size - u.rx_buffer.rpos) want) :
    (u.rx_buffer.buffer.drop u.rx_buffer.rpos).take chunk = q.items.take chunk ∧
      chunk ≤ q.items.length ∧ (0 < want → 0 < chunk) ∧
      Repr { u with rx_buffer := { u.rx_buffer with
        rpos := (u.rx_buffer.rpos + chunk) % u.rx_buffer.size } } (q.drop chunk) := by
  have hf := h.first_lt
  have hl := h.last_lt
  have hlen := h.length
  have hne : u.rx_buffer.rpos ≠ u.rx_buffer.wpos := fun heq => hsome (h.eq_iff.1 heq)
  have hin : u.rx_buffer.rpos + chunk ≤
      readEnd u.rx_buffer.size u.rx_buffer.rpos u.rx_buffer.wpos := by
    unfold readEnd
    split <;> split at hchunk <;> omega
  have hsize : u.rx_buffer.rpos + chunk ≤ u.rx_buffer.size := by grind
  obtain ⟨hread, hnext⟩ := h.readBlock hin
  refine ⟨hread, ?_, ?_, ?_⟩
  · unfold held at hlen
    unfold readEnd at hin
    split at hlen <;> split at hin <;> omega
  · intro hwant
    split at hchunk <;> omega
  · show Ring.Repr _ _ ((u.rx_buffer.rpos + chunk) % u.rx_buffer.size) _ _
    rw [mod_eq_wrap hsize]
    exact hnext

theorem Repr.readNothing (h : Repr u q) {k : Nat} (hk : k = 0 ∨ q.items ++ u.fifo = []) :
    (q.items ++ u.fifo).take k = [] ∧ Repr u (q.drop k) ∧
      u.fifo = u.fifo.drop (k - q.items.length) := by
  obtain hnone | hempty := hk
  · rw [hnone, Fifo.drop_zero, Nat.zero_sub]
    exact ⟨rfl, h, rfl⟩
  · obtain ⟨hitems, hfifo⟩ := append_eq_nil_iff.1 hempty
    rw [hempty, hfifo, Fifo.drop_of_items_nil hitems, take_nil, drop_nil]
    exact ⟨rfl, h, rfl⟩

/-- **The loop of `uart_read`** takes the oldest bytes of the ring, then of the
FIFO. -/
theorem Repr.readLoop (h : Repr u q) {rounds usersize : Nat} {ret : List UInt8}
    (hrounds : usersize - ret.length ≤ rounds) :
    ∃ u', Uart.readLoop rounds usersize ret u =
        (ret ++ (q.items ++ u.fifo).take (usersize - ret.length), u') ∧
      Repr u' (q.drop (usersize - ret.length)) ∧
      u'.fifo = u.fifo.drop (usersize - ret.length - q.items.length) ∧
      u'.rx_overrun = u.rx_overrun ∧ u'.rx_enabled = u.rx_enabled ∧ u'.UIOF = u.UIOF := by
  induction rounds generalizing u q ret with
  | zero =>
    obtain ⟨hret, hrepr, hfifo⟩ := h.readNothing (.inl (Nat.le_zero.1 hrounds))
    exact ⟨u, by rw [Uart.readLoop, hret, append_nil], hrepr, hfifo, rfl, rfl, rfl⟩
  | succ rounds ih =>
    rw [Uart.readLoop]
    by_cases hgo : ret.length < usersize ∧ u.rxAvailableUnsafe ≠ 0
    · rw [if_pos hgo]
      by_cases hnone : rxBufferAvailable u.rx_buffer = 0
      · -- The ring is empty, what is wanted comes from the FIFO.
        have hitems : q.items = [] := eq_nil_of_length_eq_zero (by rw [← h.available, hnone])
        rw [if_pos hnone, hitems, nil_append, length_nil, Nat.sub_zero,
          Fifo.drop_of_items_nil hitems]
        exact ⟨_, rfl, h, rfl, rfl, rfl, rfl⟩
      · rw [if_neg hnone]
        have hsome : q.items ≠ [] := fun heq => hnone (by rw [h.available, heq, length_nil])
        have hmin : ∀ chunk : Nat, (if ret.length + chunk > usersize then usersize - ret.length
            else chunk) = min chunk (usersize - ret.length) := by
          intro chunk
          split <;> omega
        dsimp only
        rw [hmin]
        obtain ⟨chunk, hchunk⟩ : ∃ chunk, chunk = min (if u.rx_buffer.rpos < u.rx_buffer.wpos then
          u.rx_buffer.wpos - u.rx_buffer.rpos else u.rx_buffer.size - u.rx_buffer.rpos)
          (usersize - ret.length) := ⟨_, rfl⟩
        have hwant : chunk ≤ usersize - ret.length := by rw [hchunk]; exact Nat.min_le_right _ _
        obtain ⟨hread, hle, hpos, hnext⟩ := h.readChunk hsome (usersize - ret.length) hchunk
        have hlen : (ret ++ q.items.take chunk).length = ret.length + chunk := by
          rw [length_append, length_take, Nat.min_eq_left hle]
        have hrest : usersize - (ret ++ q.items.take chunk).length =
            usersize - ret.length - chunk := by rw [hlen, Nat.sub_add_eq]
        have hsplit : (q.items ++ u.fifo).take (usersize - ret.length) =
            q.items.take chunk ++
              (q.items.drop chunk ++ u.fifo).take (usersize - ret.length - chunk) := by
          rw [← Nat.add_sub_cancel' hwant, take_add, take_append_of_le_length hle,
            drop_append_of_le_length hle, Nat.add_sub_cancel_left]
        obtain ⟨u', hloop, hrepr, hfifo, hflags⟩ :=
          ih hnext (show usersize - (ret ++ q.items.take chunk).length ≤ rounds by omega)
        rw [hrest] at hloop hrepr hfifo
        rw [Fifo.drop_drop, Nat.add_sub_cancel' hwant] at hrepr
        rw [Fifo.drop_items, length_drop] at hfifo
        rw [← hchunk, hread, hsplit, ← append_assoc]
        refine ⟨u', hloop, hrepr, ?_, hflags⟩
        rw [hfifo]
        congr 1
        omega
    · rw [if_neg hgo]
      have hstop : usersize - ret.length = 0 ∨ q.items ++ u.fifo = [] := by
        rw [h.availableUnsafe] at hgo
        by_cases hempty : q.items ++ u.fifo = []
        · exact .inr hempty
        · have := length_pos_iff.2 hempty
          exact .inl (by omega)
      obtain ⟨hret, hrepr, hfifo⟩ := h.readNothing hstop
      exact ⟨u, by rw [hret, append_nil], hrepr, hfifo, rfl, rfl, rfl⟩

end

def unread (u : Uart) : List UInt8 :=
  Ring.unread u.rx_buffer.buffer u.rx_buffer.rpos u.rx_buffer.wpos ++ u.fifo

theorem Repr.unread {u : Uart} {q : Fifo UInt8} (h : Repr u q) :
    u.unread = q.items ++ u.fifo := by
  rw [Uart.unread, h.items]

end Uart
