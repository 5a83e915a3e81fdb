import RalioFirmware.Core.Uart

/-!
# Resizing the UART's ring

The copy loop counts the bytes in the FIFO, but takes bytes from the ring
only.  Once the ring is empty it stores what `uart_read_char_unsafe` returns
for an empty ring, until the new array is full; an array that the loop has
filled is taken for an empty ring.
-/

open Bytes Ring List

namespace Uart

/-- The newest `n` bytes of a sequence. -/
def newest (n : Nat) (bs : List UInt8) : List UInt8 := bs.drop (bs.length - n)

/-- The unread bytes after a resize are the newest of those before that fit the
new ring, and `uart_rx_available` counts them. -/
def KeepsUnread (new_size : Nat) (u u' : Uart) : Prop :=
  u'.unread = newest (new_size - 1) u.unread ∧
    u'.rxAvailable = (newest (new_size - 1) u.unread).length

instance (new_size : Nat) (u u' : Uart) : Decidable (KeepsUnread new_size u u') :=
  inferInstanceAs (Decidable (_ ∧ _))

variable {u : Uart} {q : Fifo UInt8}

theorem Repr.readCharUnsafe_some (h : Repr u q) {b : UInt8} {rest : List UInt8}
    (hitems : q.items = b :: rest) :
    ∃ u', u.readCharUnsafe = ((b.toNat : Int), u') ∧ Repr u' (q.drop 1) ∧ u'.fifo = u.fifo ∧
      u'.rx_enabled = u.rx_enabled := by
  have hf := h.first_lt
  have hne : u.rx_buffer.rpos ≠ u.rx_buffer.wpos := by
    intro heq
    rw [h.eq_iff.1 heq] at hitems
    cases hitems
  obtain ⟨hhead, hnext⟩ := h.head hne
  have hb : u.rx_buffer.buffer.getD u.rx_buffer.rpos 0 = b := by grind
  have havail : rxBufferAvailable u.rx_buffer ≠ 0 := by
    rw [h.available, hitems, length_cons]
    omega
  refine ⟨{ u with rx_buffer := { u.rx_buffer with
    rpos := (u.rx_buffer.rpos + 1) % u.rx_buffer.size } }, ?_, ?_, rfl, rfl⟩
  · rw [Uart.readCharUnsafe, if_pos havail, hb]
  · show Ring.Repr _ _ ((u.rx_buffer.rpos + 1) % u.rx_buffer.size) _ _
    rw [mod_eq_wrap (by omega)]
    exact hnext

theorem Repr.readCharUnsafe_none (h : Repr u q) (hitems : q.items = []) :
    u.readCharUnsafe = (-1, u) := by
  rw [Uart.readCharUnsafe, if_neg]
  rw [h.available, hitems]
  exact fun hne => hne rfl

theorem Repr.resizeLoop_invents (h : Repr u q) (hitems : q.items = []) (hfifo : u.fifo ≠ [])
    (room : Nat) (new_buf : List UInt8) :
    resizeLoop room new_buf u = (new_buf ++ List.replicate room 0xFF, u) := by
  induction room generalizing new_buf with
  | zero => rw [resizeLoop, replicate_zero, append_nil]
  | succ room ih =>
    have havail : u.rxAvailableUnsafe ≠ 0 := by
      have := length_pos_iff.2 hfifo
      rw [h.availableUnsafe, length_append]
      omega
    rw [resizeLoop, if_pos havail, h.readCharUnsafe_none hitems]
    dsimp only
    rw [ih, append_assoc, replicate_succ]
    rfl

/-- **The copy loop**: the oldest bytes of the ring, and behind them, where the
FIFO holds anything, invented bytes until the new array is full. -/
theorem Repr.resizeLoop (h : Repr u q) (room : Nat) (new_buf : List UInt8) :
    ∃ u', Uart.resizeLoop room new_buf u = (new_buf ++ (q.items.take room ++
        List.replicate (if u.fifo = [] then 0 else room - q.items.length) 0xFF), u') ∧
      u'.fifo = u.fifo ∧ u'.rx_enabled = u.rx_enabled := by
  induction room generalizing u q new_buf with
  | zero =>
    refine ⟨u, ?_, rfl, rfl⟩
    rw [Nat.zero_sub, ite_self, take_zero, replicate_zero, append_nil,
      append_nil, Uart.resizeLoop]
  | succ room ih =>
    by_cases hitems : q.items = []
    · by_cases hfifo : u.fifo = []
      · have havail : ¬ u.rxAvailableUnsafe ≠ 0 := by
          rw [h.availableUnsafe, hitems, hfifo]
          exact fun hne => hne rfl
        refine ⟨u, ?_, rfl, rfl⟩
        rw [Uart.resizeLoop, if_neg havail, if_pos hfifo, hitems, take_nil,
          replicate_zero, append_nil, append_nil]
      · refine ⟨u, ?_, rfl, rfl⟩
        rw [h.resizeLoop_invents hitems hfifo, if_neg hfifo, hitems, take_nil,
          nil_append, length_nil, Nat.sub_zero]
    · obtain ⟨b, rest, hcons⟩ := exists_cons_of_ne_nil hitems
      obtain ⟨u₁, hread, hnext, hfifo, henabled⟩ := h.readCharUnsafe_some hcons
      have havail : u.rxAvailableUnsafe ≠ 0 := by
        rw [h.availableUnsafe, hcons, length_append, length_cons]
        omega
      obtain ⟨u', hloop, hfifo', henabled'⟩ := ih hnext (new_buf ++ [b])
      refine ⟨u', ?_, hfifo'.trans hfifo, henabled'.trans henabled⟩
      rw [Uart.resizeLoop, if_pos havail, hread]
      dsimp only
      rw [ofInt_toNat, hloop, hfifo, Fifo.drop_items, hcons, drop_one, tail_cons,
        take_succ_cons, length_cons, Nat.add_sub_add_right, append_assoc]
      rfl

def copied (new_size : Nat) (ring fifo : List UInt8) : List UInt8 :=
  ring.take new_size ++ List.replicate (if fifo = [] then 0 else new_size - ring.length) 0xFF

theorem unread_of_rpos_zero (h : u.rx_buffer.rpos = 0) :
    u.unread = u.rx_buffer.buffer.take u.rx_buffer.wpos ++ u.fifo := by
  rw [Uart.unread, h, Ring.unread, if_pos (Nat.zero_le _), drop_zero, Nat.sub_zero]

theorem rxAvailable_of_rpos_zero (h : u.rx_buffer.rpos = 0) (henabled : u.rx_enabled = true) :
    u.rxAvailable = u.rx_buffer.wpos + u.fifo.length := by
  rw [rxAvailable, if_neg (by rw [henabled]; exact Bool.noConfusion), rxBufferAvailable,
    if_neg (by omega), h, Nat.sub_zero, rxFifoAvailable]

/-- **The resize**: the new ring holds what the loop copied, unless that fills
the array; the FIFO is as before. -/
theorem Repr.resize (h : Repr u q) (henabled : u.rx_enabled = true) {new_size : Nat}
    (hsize : u.rx_buffer.size ≠ new_size) {block : List UInt8} (hblock : block.length = new_size) :
    ∃ u', u.resizeRxBuffer new_size (some block) = (new_size, u') ∧
      u'.unread = (if (copied new_size q.items u.fifo).length = new_size then []
        else copied new_size q.items u.fifo) ++ u.fifo ∧
      u'.rxAvailable = u'.unread.length := by
  obtain ⟨u₁, hloop, hfifo, henabled₁⟩ := h.resizeLoop new_size []
  rw [nil_append] at hloop
  change Uart.resizeLoop new_size [] u = (copied new_size q.items u.fifo, u₁) at hloop
  have hle : (copied new_size q.items u.fifo).length ≤ new_size := by
    rw [copied, length_append, length_take, length_replicate]
    split <;> omega
  rw [resizeRxBuffer, if_neg (by rw [henabled]; exact Bool.noConfusion), if_neg hsize]
  simp only [hloop]
  generalize copied new_size q.items u.fifo = bytes at hle ⊢
  have htake := memcpy_zero_take (show bytes.length ≤ block.length by omega)
  refine ⟨_, rfl, ?_⟩
  rw [rxAvailable_of_rpos_zero (by rfl) (by exact henabled₁.trans henabled),
    unread_of_rpos_zero (by rfl)]
  simp only [hfifo]
  by_cases hfull : bytes.length = new_size
  · grind
  · grind

theorem newest_length (n : Nat) (bs : List UInt8) : (newest n bs).length = min bs.length n := by
  rw [newest, length_drop]
  omega

theorem newest_append (n : Nat) (xs ys : List UInt8) :
    newest n (xs ++ ys) = newest (n - ys.length) xs ++ newest n ys := by
  have hsub : xs.length + ys.length - n - xs.length = ys.length - n := by omega
  rw [newest, newest, newest, drop_append, length_append, hsub]
  congr 1
  by_cases hle : ys.length ≤ n
  · congr 1
    omega
  · rw [drop_eq_nil_of_le (by omega), drop_eq_nil_of_le (by omega)]

theorem copied_keeps_ring_iff {new_size : Nat} (hpos : 0 < new_size) (ring : List UInt8) :
    (if (copied new_size ring []).length = new_size then [] else copied new_size ring []) =
        newest (new_size - 1) ring ↔ new_size - 1 = 0 ∨ ring.length ≤ new_size - 1 := by
  have hcopied : copied new_size ring [] = ring.take new_size := by
    rw [copied, if_pos rfl, replicate_zero, append_nil]
  have hlen : (ring.take new_size).length = min new_size ring.length := length_take
  rw [hcopied]
  by_cases hfits : ring.length ≤ new_size - 1
  · rw [if_neg (by omega), newest, Nat.sub_eq_zero_of_le hfits, drop_zero,
      take_of_length_le (by omega)]
    exact ⟨fun _ => .inr hfits, fun _ => rfl⟩
  · rw [if_pos (by omega)]
    constructor
    · intro heq
      have := congrArg length heq
      rw [newest_length, length_nil] at this
      omega
    · rintro (hone | hle)
      · exact (eq_nil_of_length_eq_zero (by rw [newest_length]; omega)).symm
      · exact absurd hle hfits

theorem copied_keeps_fifo_iff {new_size : Nat} (ring : List UInt8) {fifo : List UInt8}
    (hfifo : fifo ≠ []) :
    (if (copied new_size ring fifo).length = new_size then [] else copied new_size ring fifo) ++
        fifo = newest (new_size - 1) (ring ++ fifo) ↔
      fifo.length = new_size - 1 ∨ (ring = [] ∧ fifo.length ≤ new_size - 1) := by
  have hlen : (copied new_size ring fifo).length = new_size := by
    rw [copied, if_neg hfifo, length_append, length_take, length_replicate]
    omega
  rw [if_pos hlen, nil_append, newest_append]
  constructor
  · intro heq
    have := congrArg length heq
    rw [length_append, newest_length, newest_length] at this
    rw [← length_eq_zero_iff]
    omega
  · intro hfit
    have hring : newest (new_size - 1 - fifo.length) ring = [] := by
      rw [← length_eq_zero_iff, newest_length]
      obtain hexact | ⟨rfl, -⟩ := hfit
      · omega
      · exact Nat.zero_min _
    have hle : fifo.length - (new_size - 1) = 0 := by
      obtain hexact | ⟨-, hle⟩ := hfit <;> omega
    rw [hring, nil_append, newest, hle, drop_zero]

def waiting : Uart := { init 4 [1, 2, 0, 0] with
  rx_buffer := ⟨4, 0, 2, [1, 2, 0, 0]⟩
  fifo := [3] }

end Uart
