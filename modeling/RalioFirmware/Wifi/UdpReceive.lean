import RalioFirmware.Basis.Runs
import RalioFirmware.Basis.Word
import RalioFirmware.Wifi.Pbuf

/-!
# The receiving side of `UdpContext`

The datagrams that have arrived hang in one chain of `pbuf`s.  In front of each but the
first stands a buffer with the addresses, which a flag marks; `next` goes on to the one
after the next mark and releases what is in front of it.
-/

namespace Udp

open Pbuf Word

/-- `IPAddress`, which holds an address of either kind. -/
inductive IPAddress
  | v4 (addr : UInt32)
  | v6 (addr₀ addr₁ addr₂ addr₃ : UInt32) (zone : UInt8)
deriving DecidableEq

structure Source where
  srcaddr : IPAddress
  dstaddr : IPAddress
  srcport : UInt16
  input_netif : Nat
deriving DecidableEq

/-- `AddrHelper`, whose port is signed. -/
structure AddrHelper where
  srcaddr : IPAddress
  dstaddr : IPAddress
  srcport : Int16
  input_netif : Nat

def AddrHelper.mk' (s : Source) : AddrHelper :=
  ⟨s.srcaddr, s.dstaddr, s.srcport.toInt16, s.input_netif⟩

/-- `PBUF_HELPER_FLAG`. -/
def helperFlag : UInt8 := 0xff

def rxBufMaxDepth : Nat := 4

abbrev Memory := Heap AddrHelper

structure UdpContext where
  rx_buf : Option Ptr
  first_buf_taken : Bool
  rx_buf_offset : Nat
  rx_buf_size : Nat
  currentAddr : AddrHelper

namespace UdpContext

/-! ## The source's functions -/

/-- The loop of `_recv`, which stops when `left` buffers are counted: whether it stops at
one. -/
def tooDeep (h : Memory) : Nat → Option Ptr → Except Halt Bool
  | _, none => .ok false
  | 0, some _ => .ok true
  | left + 1, some a =>
    if left = 0 then .ok true
    else match h.deref a with
      | none => .error .access
      | some b => tooDeep h left b.next

/-- `_recv`; `alloc` is where `pbuf_alloc` finds room for the helper, if it does, and what
lies there. -/
def recv (L : Api AddrHelper) (pb : Ptr) (s : Source) (alloc : Option (Ptr × List UInt8))
    (u : UdpContext) (h : Memory) : Except Halt (UdpContext × Memory) := do
  if ← tooDeep h (rxBufMaxDepth * 2) u.rx_buf then
    let h ← L.free pb h
    return (u, h)
  match u.rx_buf with
  | some rx_buf =>
    match alloc with
    | none =>
      let h ← L.free pb h
      return (u, h)
    | some (pb_helper, room) =>
      let h := store h [(pb_helper, ⟨room, helperFlag, some (AddrHelper.mk' s)⟩)]
      let h ← L.cat rx_buf pb_helper h
      let h ← L.cat rx_buf pb h
      return (u, h)
  | none =>
    match h.deref pb with
    | none => .error .access
    | some b =>
      return (⟨some pb, false, 0, b.tot_len, AddrHelper.mk' s⟩, h)

/-- `while(_rx_buf && _rx_buf->flags != PBUF_HELPER_FLAG)`; the chain has no more buffers
than the memory. -/
def toHelper (h : Memory) : Nat → Option Ptr → Except Halt (Option Ptr)
  | _, none => .ok none
  | 0, some _ => .error .access
  | n + 1, some a =>
    match h.deref a with
    | none => .error .access
    | some b => if b.content.flags = helperFlag then .ok (some a) else toHelper h n b.next

def processSize (h : Memory) : Nat → Option Ptr → Except Halt Nat
  | _, none => .ok 0
  | 0, some _ => .error .access
  | n + 1, some a =>
    match h.deref a with
    | none => .error .access
    | some b =>
      if b.content.flags = helperFlag then .ok 0
      else do
        let ret ← processSize h n b.next
        return b.len + ret

/-- The part of `next` that takes the addresses out of the helper at `a`: it gives them and
the buffer behind, to which a reference is held then. -/
def takeHelper (L : Api AddrHelper) (a : Ptr) (h : Memory) :
    Except Halt (Ptr × AddrHelper × Memory) :=
  match h.deref a with
  | none => .error .access
  | some b =>
    match b.content.placed, b.next with
    | none, _ => .error .access
    | some _, none => .error .assertion
    | some helper, some rx_buf => do
      let h := h.set a (some { b with content := { b.content with placed := none } })
      let h ← L.ref rx_buf h
      return (rx_buf, helper, h)

def next (L : Api AddrHelper) (u : UdpContext) (h : Memory) :
    Except Halt (Bool × UdpContext × Memory) :=
  match u.rx_buf with
  | none => .ok (false, u, h)
  | some deleteme =>
    if u.first_buf_taken = false then .ok (true, { u with first_buf_taken := true }, h)
    else do
      match ← toHelper h h.length (some deleteme) with
      | none =>
        let h ← L.free deleteme h
        return (false, { u with rx_buf := none, rx_buf_offset := 0, rx_buf_size := 0 }, h)
      | some a =>
        let (rx_buf, helper, h) ← takeHelper L a h
        let h ← L.free deleteme h
        let size ← processSize h h.length (some rx_buf)
        return (true, ⟨some rx_buf, u.first_buf_taken, 0, size, helper⟩, h)

def consume (size : Nat) (u : UdpContext) : UdpContext :=
  let rx_buf_offset := u32 (u.rx_buf_offset + size)
  { u with rx_buf_offset :=
      if rx_buf_offset > u.rx_buf_size then u.rx_buf_size else rx_buf_offset }

/-- `read()`; `none` is `-1`. -/
def read (L : Api AddrHelper) (u : UdpContext) (h : Memory) :
    Except Halt (Option UInt8 × UdpContext) :=
  match u.rx_buf with
  | none => .ok (none, u)
  | some rx_buf =>
    if u.rx_buf_offset ≥ u.rx_buf_size then .ok (none, u)
    else do
      let c ← L.get_at h rx_buf (u.rx_buf_offset % 65536)
      return (some c, u.consume 1)

/-- `read(dst, size)`: the bytes stored at `dst`. -/
def readBuf (L : Api AddrHelper) (size : Nat) (u : UdpContext) (h : Memory) :
    Except Halt (List UInt8 × UdpContext) :=
  match u.rx_buf with
  | none => .ok ([], u)
  | some rx_buf => do
    let max_size := sub32 u.rx_buf_size u.rx_buf_offset
    let size := if size < max_size then size else max_size
    match ← L.get_contiguous h rx_buf (size % 65536) (u.rx_buf_offset % 65536) with
    | none => return ([], u)
    | some buf => return (buf.take size, u.consume size)

def peek (L : Api AddrHelper) (u : UdpContext) (h : Memory) : Except Halt (Option UInt8) :=
  match u.rx_buf with
  | none => .ok none
  | some rx_buf =>
    if u.rx_buf_offset = u.rx_buf_size then .ok none
    else do
      let c ← L.get_at h rx_buf (u.rx_buf_offset % 65536)
      return some c

def flush (u : UdpContext) : UdpContext :=
  match u.rx_buf with
  | none => u
  | some _ => u.consume (sub32 u.rx_buf_size u.rx_buf_offset)

def seek (pos : Nat) (u : UdpContext) : Except Halt UdpContext :=
  if pos ≤ u.rx_buf_size then .ok { u with rx_buf_offset := pos } else .error .assertion

def tell (u : UdpContext) : Nat := u.rx_buf_offset

def getRemoteAddress (u : UdpContext) : IPAddress := u.currentAddr.srcaddr

def getRemotePort (u : UdpContext) : UInt16 := u.currentAddr.srcport.toUInt16

end UdpContext

end Udp
