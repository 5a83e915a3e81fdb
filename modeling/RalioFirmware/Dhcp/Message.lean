import RalioFirmware.Basis.Word

/-!
# Messages of the DHCP server

A message is received into a `dhcps_msg` on the heap, parsed there and turned
into the reply in place.  The memory is a function from offsets into that block,
also behind its end, and what touches it is recorded: `handle_dhcp` writes as
many bytes as a packet has, and `parse_options` goes where the length bytes of
the options send it.
-/

open Word

namespace Dhcp

/-! ## `dhcps_msg` -/

/-- Offsets of the fields of `dhcps_msg`, and its size. -/
def OP : Nat := 0
def HTYPE : Nat := 1
def HLEN : Nat := 2
def HOPS : Nat := 3
def SECS : Nat := 8
def FLAGS : Nat := 10
def CIADDR : Nat := 12
def YIADDR : Nat := 16
def SIADDR : Nat := 20
def GIADDR : Nat := 24
def CHADDR : Nat := 28
def SNAME : Nat := 44
def FILE : Nat := 108
def OPTIONS : Nat := 236
def MSG_SIZE : Nat := 548

abbrev Memory := Nat → UInt8

def bytesAt (offset : Nat) (bs : List UInt8) : List (Nat × UInt8) :=
  bs.zipIdx.map fun e => (offset + e.2, e.1)

def store (writes : List (Nat × UInt8)) (mem : Memory) : Memory :=
  writes.foldl (fun m w i => if i = w.1 then w.2 else m i) mem

def load (mem : Memory) (offset size : Nat) : List UInt8 :=
  (List.range size).map fun i => mem (offset + i)

/-- A field that holds an address, as the number that the processor sees. -/
def loadAddr (mem : Memory) (offset : Nat) : Nat := ofLe (load mem offset 4)

/-- A number of sixteen bits as a `sint16_t`. -/
def sint16 (n : Int) : Int := (n + 32768) % 65536 - 32768

/-! ## Options received -/

def DHCP_OPTION_REQ_IPADDR : UInt8 := 50
def DHCP_OPTION_MSG_TYPE : UInt8 := 53
def DHCP_OPTION_END : UInt8 := 255

/-- `MagicCookie`, as it stands in memory. -/
def MagicCookie : List UInt8 := le32 0x63538263

/-- `DHCPS_STATE_…`, what a message asks the server to do. -/
inductive DhcpsState
  | offer
  | decline
  | ack
  | nak
  | idle
  | release
deriving DecidableEq

/-- What the walk over the options knows, and the offsets it has read. -/
structure Walk where
  type : UInt8
  state : DhcpsState
  reads : List Nat

/-- The `switch` of the walk on one option's code. -/
def Walk.option (client_addr : Nat) (mem : Memory) (optptr : Nat) (w : Walk) : Walk :=
  if mem optptr = DHCP_OPTION_MSG_TYPE then
    { w with type := mem (optptr + 2), reads := w.reads ++ [optptr + 2] }
  else if mem optptr = DHCP_OPTION_REQ_IPADDR then
    { w with
      state := if load mem (optptr + 2) 4 = le32 client_addr then .ack else .nak
      reads := w.reads ++ [optptr + 2, optptr + 3, optptr + 4, optptr + 5] }
  else w

/-- The loop of `parse_options`, nothing if it needs more rounds. -/
def walk (client_addr : Nat) (mem : Memory) (last : Int) : Nat → Nat → Walk → Option Walk
  | 0, optptr, w => if (optptr : Int) < last then none else some w
  | rounds+1, optptr, w =>
    if (optptr : Int) < last then
      let w := { w with reads := w.reads ++ [optptr] }
      if mem optptr = DHCP_OPTION_END then some w
      else
        let w := w.option client_addr mem optptr
        walk client_addr mem last rounds (optptr + ((mem (optptr + 1)).toNat + 2))
          { w with reads := w.reads ++ [optptr + 1] }
    else some w

/-- The `switch` of `parse_options` on the message's type. -/
def stateOf (renew : Bool) (w : Walk) : DhcpsState :=
  match w.type with
  | 1 => .offer
  | 3 =>
    if w.state = .ack ∨ w.state = .nak then w.state
    else if renew then .ack else .nak
  | 4 => .idle
  | 7 => .release
  | _ => w.state

/-- `parse_options`: the walk over `len` bytes from `optptr` on, and what comes
of it. -/
def parseOptions (client_addr : Nat) (renew : Bool) (mem : Memory) (optptr : Nat) (len : Int) :
    Option (Walk × DhcpsState) :=
  (walk client_addr mem (optptr + len) len.toNat optptr ⟨0, .idle, []⟩).map
    fun w => (w, stateOf renew w)

/-! ## Options sent -/

/-- `OptionsBuffer`, with what has been written. -/
structure OptionsBuffer where
  it : Nat
  last : Nat
  writes : List (Nat × UInt8)

namespace OptionsBuffer

def add (o : UInt8 × List UInt8) (b : OptionsBuffer) : OptionsBuffer :=
  let (code, data) := o
  let size := data.length
  if size ≥ 255 then b
  else if b.last - b.it < size + 2 then b
  else
    { b with
      it := b.it + (size + 2)
      writes := b.writes ++ bytesAt b.it (code :: UInt8.ofNat size :: data) }

/-- `add(code)`. -/
def addCode (code : UInt8) (b : OptionsBuffer) : OptionsBuffer :=
  if b.it ≠ b.last then { b with it := b.it + 1, writes := b.writes ++ [(b.it, code)] } else b

end OptionsBuffer

/-- What the options of a reply are made of: the interface, the server's
settings, and what the callback of `onSendOptions` adds. -/
structure Settings where
  ip_addr : Nat
  netmask : Nat
  gw : Nat
  lease_time : Nat
  offer_router : Bool
  dns_address : Nat
  custom_offer_options : List (UInt8 × List UInt8)

/-- `add_offer_options`. -/
def offerOptions (c : Settings) : List (UInt8 × List UInt8) :=
  [(1, le32 c.netmask), (54, le32 c.ip_addr), (51, (le32 (u32 (c.lease_time * 60))).reverse)] ++
  (if c.offer_router ∧ c.gw ≠ 0 then [(3, le32 c.gw)] else []) ++
  [(6, le32 (if c.dns_address ≠ 0 then c.dns_address else c.ip_addr)),
    (28, le32 ((c.ip_addr &&& c.netmask) ||| (0xFFFFFFFF - c.netmask))),
    (26, [5, 220]), (31, [0])]

inductive ReplyType
  | offer
  | ack
  | nak
deriving DecidableEq

def ReplyType.code : ReplyType → UInt8
  | .offer => 2
  | .ack => 5
  | .nak => 6

/-- The fields that `create_msg` writes. -/
def createMsg (client : Nat) : List (Nat × UInt8) :=
  [(OP, 2), (HTYPE, 1), (HLEN, 6), (HOPS, 0)] ++ bytesAt SECS [0, 0] ++ bytesAt FLAGS [128, 0] ++
  bytesAt YIADDR (le32 client) ++ bytesAt CIADDR (List.replicate 4 0) ++
  bytesAt SIADDR (List.replicate 4 0) ++ bytesAt GIADDR (List.replicate 4 0) ++
  bytesAt SNAME (List.replicate 64 0) ++ bytesAt FILE (List.replicate 128 0) ++
  bytesAt OPTIONS (List.replicate 312 0) ++ bytesAt OPTIONS MagicCookie

/-- The options that `send_offer`, `send_ack` and `send_nak` write. -/
def sendOptions (c : Settings) (type : ReplyType) : OptionsBuffer :=
  let options := ⟨OPTIONS + 4, MSG_SIZE, []⟩
  let options := OptionsBuffer.add (53, [type.code]) options
  let options :=
    if type = .nak then options
    else (offerOptions c ++ c.custom_offer_options).foldl (fun b o => b.add o) options
  options.addCode DHCP_OPTION_END

def replyWrites (c : Settings) (type : ReplyType) (client : Nat) : List (Nat × UInt8) :=
  createMsg client ++ (sendOptions c type).writes

/-! ## A packet -/

/-- The bytes that `handle_dhcp` copies: those of the first two buffers of the
chain. -/
def received (p : List (List UInt8)) : List UInt8 := (p.take 2).flatten

def totLen (p : List (List UInt8)) : Nat := p.flatten.length % 65536

/-- The message after the copy: `zalloc` has cleared its block. -/
def copyPacket (p : List (List UInt8)) (heap : Memory) : Memory :=
  store (bytesAt 0 (received p)) fun i => if i < MSG_SIZE then 0 else heap i

/-- The length that `handle_dhcp` passes on to `parse_options`. -/
def optionsLength (p : List (List UInt8)) : Int :=
  sint16 ((sint16 (totLen p) - 240) % 65536)

end Dhcp
