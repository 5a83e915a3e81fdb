import RalioFirmware.Basis.Word

/-!
# Received datagrams

`UdpContext` keeps the datagrams that have arrived in a chain, the one being
read first.  `waiting` is those that no `next` has reached, and the lemmas say
what the calls of a sketch come to on it: `parsePacket` takes the oldest one,
`read` gives its bytes from the front.
-/

structure UdpContext where
  rx_buf : List (List UInt8)
  first_buf_taken : Bool
  rx_buf_offset : Nat

namespace UdpContext

def init : UdpContext := ⟨[], false, 0⟩

/-- `_recv`, for a datagram that the limit on the chain's depth lets in. -/
def recv (pb : List UInt8) (u : UdpContext) : UdpContext :=
  if u.rx_buf = [] then ⟨[pb], false, 0⟩ else { u with rx_buf := u.rx_buf ++ [pb] }

def rxBufSize (u : UdpContext) : Nat := (u.rx_buf.headD []).length

def next (u : UdpContext) : Bool × UdpContext :=
  match u.rx_buf with
  | [] => (false, u)
  | _ :: rest =>
    if u.first_buf_taken = false then (true, { u with first_buf_taken := true })
    else (rest ≠ [], { u with rx_buf := rest, rx_buf_offset := 0 })

def getSize (u : UdpContext) : Nat :=
  if u.rx_buf = [] then 0 else u.rxBufSize - u.rx_buf_offset

/-- `read(dst, size)`: the bytes stored at `dst`. -/
def read (size : Nat) (u : UdpContext) : List UInt8 × UdpContext :=
  match u.rx_buf with
  | [] => ([], u)
  | pb :: _ =>
    let max_size := u.rxBufSize - u.rx_buf_offset
    let size := if size < max_size then size else max_size
    ((pb.drop u.rx_buf_offset).take size, { u with
      rx_buf_offset := min (u.rx_buf_offset + size) u.rxBufSize })

def parsePacket (u : UdpContext) : Nat × UdpContext :=
  let (found, u) := u.next
  if found = false then (0, u) else (u.getSize, u)

/-! ## The datagrams behind the one being read -/

/-- What no `next` has reached. -/
def waiting (u : UdpContext) : List (List UInt8) :=
  if u.first_buf_taken then u.rx_buf.tail else u.rx_buf

/-- Nothing has been read of a datagram that has not been taken. -/
def Fresh (u : UdpContext) : Prop := u.first_buf_taken = false → u.rx_buf_offset = 0

variable {u : UdpContext}

theorem fresh_init : Fresh init := fun _ => rfl

theorem Fresh.recv (h : u.Fresh) (pb : List UInt8) : (u.recv pb).Fresh := by
  rw [UdpContext.recv]
  split
  · exact fun _ => rfl
  · exact h

theorem parsePacket_none (h : u.Fresh) (hnone : u.waiting = []) :
    u.parsePacket.1 = 0 ∧ u.parsePacket.2.waiting = [] ∧ u.parsePacket.2.Fresh := by
  obtain ⟨buf, taken, offset⟩ := u
  cases buf with
  | nil => exact ⟨rfl, hnone, h⟩
  | cons first rest =>
    cases taken with
    | false => cases hnone
    | true =>
      have hrest : rest = [] := hnone
      subst hrest
      exact ⟨rfl, rfl, fun _ => rfl⟩

theorem parsePacket_some (h : u.Fresh) {pb : List UInt8} {rest : List (List UInt8)}
    (hsome : u.waiting = pb :: rest) :
    u.parsePacket = (pb.length, ⟨pb :: rest, true, 0⟩) := by
  obtain ⟨buf, taken, offset⟩ := u
  cases buf with
  | nil => cases taken <;> cases hsome
  | cons first others =>
    cases taken with
    | false =>
      have hoffset : offset = 0 := h rfl
      obtain ⟨rfl, rfl⟩ := List.cons.inj hsome
      subst hoffset
      rfl
    | true =>
      have hothers : others = pb :: rest := hsome
      subst hothers
      rfl

theorem read_taken (pb : List UInt8) (rest : List (List UInt8)) (size : Nat) :
    ((⟨pb :: rest, true, 0⟩ : UdpContext).read size).1 = pb.take size ∧
      ((⟨pb :: rest, true, 0⟩ : UdpContext).read size).2.waiting = rest ∧
      ((⟨pb :: rest, true, 0⟩ : UdpContext).read size).2.Fresh := by
  refine ⟨?_, rfl, fun hfalse => absurd hfalse (by simp [read])⟩
  show pb.take (if size < pb.length then size else pb.length) = pb.take size
  split
  · rfl
  · rw [List.take_length, List.take_of_length_le (by omega)]

end UdpContext
