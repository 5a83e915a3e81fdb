/-!
# Reading a received packet

The multicast DNS responder reads a datagram through `UdpContext`: the bytes and a place in
them that `read` moves on, never past their end, and `seek` sets.
-/

namespace Mdns

structure Rx where
  buf : List UInt8
  offset : Nat
  offset_le : offset ≤ buf.length

namespace Rx

def rest (rx : Rx) : List UInt8 := rx.buf.drop rx.offset

def tell (rx : Rx) : Nat := rx.offset

def isValidOffset (rx : Rx) (pos : Nat) : Bool := pos ≤ rx.buf.length

/-- `seek`, to a place that `isValidOffset` let through. -/
def seek (rx : Rx) (pos : Nat) : Rx := ⟨rx.buf, min pos rx.buf.length, Nat.min_le_right _ _⟩

/-- `_udpReadBuffer`.  What a short read gives is lost. -/
def readBuffer (rx : Rx) (size : Nat) : Option (List UInt8) × Rx :=
  if size = 0 then (none, rx)
  else (if (rx.rest.take size).length = size then some (rx.rest.take size) else none,
    rx.seek (rx.offset + size))

/-- `_udpRead8`. -/
def read8 (rx : Rx) : Option UInt8 × Rx :=
  ((rx.readBuffer 1).1.bind List.head?, (rx.readBuffer 1).2)

@[simp] theorem seek_buf (rx : Rx) (pos : Nat) : (rx.seek pos).buf = rx.buf := rfl

variable {rx : Rx}

theorem seek_offset {pos : Nat} (h : pos ≤ rx.buf.length) :
    (rx.seek pos).offset = pos := Nat.min_eq_left h

theorem rest_length (rx : Rx) : rx.rest.length = rx.buf.length - rx.offset := List.length_drop

theorem readBuffer_fst (rx : Rx) {size : Nat} (hsize : size ≠ 0) :
    (rx.readBuffer size).1 = if size ≤ rx.rest.length then some (rx.rest.take size) else none := by
  unfold readBuffer
  rw [if_neg hsize, List.length_take]
  by_cases h : size ≤ rx.rest.length
  · simp [h]
  · simp [h, Nat.min_eq_right (Nat.le_of_not_le h), Nat.ne_of_lt (Nat.lt_of_not_le h)]

theorem readBuffer_rest {size : Nat} (h : size ≤ rx.rest.length) :
    (rx.readBuffer size).2.rest = rx.rest.drop size := by
  have hlen := rx.rest_length
  unfold readBuffer
  split
  · next hzero => simp [hzero]
  · show rx.buf.drop (min (rx.offset + size) rx.buf.length) = _
    have hle := rx.offset_le
    rw [Nat.min_eq_left (by omega), rest, List.drop_drop]

theorem readBuffer_some {size : Nat} (hsize : size ≠ 0) {bytes : List UInt8}
    (h : (rx.readBuffer size).1 = some bytes) :
    size ≤ rx.rest.length ∧ bytes = rx.rest.take size := by
  rw [readBuffer_fst rx hsize] at h
  split at h
  · next hle => exact ⟨hle, (Option.some.inj h).symm⟩
  · cases h

theorem readBuffer_snd (rx : Rx) (size : Nat) :
    (rx.readBuffer size).2 = rx.seek (rx.offset + size) := by
  unfold readBuffer
  split
  · next hzero =>
      subst hzero
      obtain ⟨buf, offset, hoffset⟩ := rx
      simp only [seek, Nat.add_zero, Nat.min_eq_left hoffset]
  · rfl

theorem seek_rest {n : Nat} (h : n ≤ rx.rest.length) :
    (rx.seek (rx.offset + n)).rest = rx.rest.drop n := by
  rw [← readBuffer_snd, readBuffer_rest h]

theorem seek_add_offset {n : Nat} (h : n ≤ rx.rest.length) :
    (rx.seek (rx.offset + n)).offset = rx.offset + n := by
  have hlen := rx.rest_length
  have hle := rx.offset_le
  exact seek_offset (by omega)

theorem read8_cons {b : UInt8} {bytes : List UInt8} (h : rx.rest = b :: bytes) :
    rx.read8 = (some b, rx.seek (rx.offset + 1)) := by
  have hle : 1 ≤ rx.rest.length := by
    rw [h]
    exact Nat.succ_pos _
  rw [read8, readBuffer_snd, readBuffer_fst rx Nat.one_ne_zero, if_pos hle, h]
  rfl

theorem read8_nil (h : rx.rest = []) : rx.read8 = (none, rx) := by
  have hlen := rx.rest_length
  have hle := rx.offset_le
  rw [h, List.length_nil] at hlen
  have hstay : rx.seek (rx.offset + 1) = rx := by
    obtain ⟨buf, offset, hoffset⟩ := rx
    have hmin : min (offset + 1) buf.length = offset := by
      dsimp only at hlen hle
      omega
    simp only [seek, hmin]
  rw [read8, readBuffer_snd, hstay, readBuffer_fst rx Nat.one_ne_zero, h]
  rfl

theorem read8_rest_le (rx : Rx) : rx.read8.2.rest.length ≤ rx.rest.length := by
  cases h : rx.rest with
  | nil => exact Nat.le_of_eq (by rw [read8_nil h, h])
  | cons b bytes =>
    have hle : 1 ≤ rx.rest.length := by
      rw [h]
      exact Nat.succ_pos _
    rw [read8_cons h, seek_rest hle, List.length_drop, ← h]
    omega

/-- A label that is read leaves less of the packet. -/
theorem readBuffer_rest_lt {len : UInt8} {bytes : List UInt8} (hlen : ¬len = 0)
    (h : (rx.read8.2.readBuffer len.toNat).1 = some bytes) :
    (rx.read8.2.readBuffer len.toNat).2.rest.length < rx.rest.length := by
  have hne : len.toNat ≠ 0 := fun h0 => hlen (UInt8.toNat_inj.mp h0)
  have hle := (readBuffer_some hne h).1
  have hrest := rx.read8_rest_le
  rw [readBuffer_rest hle, List.length_drop]
  omega

end Rx

end Mdns
