import Mathlib.Algebra.Ring.Int.Defs
import RalioFirmware.Basis.Observe

/-!
# A captured frame that is printed

A packet is told apart by the fields of its headers, and printed with what its protocol holds.  The
fields are looked up in the frame where the headers before them say, whatever its length is: the
bytes behind its end are those of the memory there.

Watched are the bytes that are looked up, the lengths that come of differences, and what is printed.
The offsets stay far below 16 bits.
-/

namespace NetCapture

open Observe

/-! ## Types and prints -/

inductive PacketType where
  | ARP | IP | UDP | MDNS | DNS | SSDP | DHCP | WSDD | NETBIOS | SMB | OTA | TCP | HTTP |
      ICMP | IGMP
  | IPv4 | IPv6 | UKNW
deriving DecidableEq, Repr

def PacketType.toString : PacketType → String
  | ARP => "ARP"
  | IP => "IP"
  | UDP => "UDP"
  | MDNS => "MDNS"
  | DNS => "DNS"
  | SSDP => "SSDP"
  | DHCP => "DHCP"
  | WSDD => "WSDD"
  | NETBIOS => "NBIO"
  | SMB => "SMB"
  | OTA => "OTA"
  | TCP => "TCP"
  | HTTP => "HTTP"
  | ICMP => "ICMP"
  | IGMP => "IGMP"
  | IPv4 => "IPv4"
  | IPv6 => "IPv6"
  | UKNW => "UKNW"

inductive PacketDetail where
  | NONE | FULL | CHAR | RAW
deriving DecidableEq, Repr

inductive NetdumpIP where
  | unset
  | v4 (rawip : List Nat)
  | v6 (rawip : List Nat)
deriving DecidableEq, Repr

/-- What a print call puts out: the text of its format, or an argument with its conversion. -/
inductive Printed where
  | text (s : String)
  | padded (width : Nat) (s : String)
  | decimal (n : Int)
  | hex (digits n : Nat)
  | char (c : Nat)
  | address (ip : NetdumpIP)
deriving DecidableEq, Repr

inductive Event where
  /-- A byte of the frame is looked up. -/
  | read (index : Nat)
  /-- A length is worked out, which this is before it wraps. -/
  | length (value : Int)
  | print (what : Printed)
deriving DecidableEq, Repr

def printf (what : List Printed) : Watched Event Unit := (what.map Event.print).forM Watched.note

def ETH_HDR_LEN : Nat := 14

/-! ## Fields -/

structure Frame where
  /-- The memory from the start of the frame on. -/
  data : Nat → UInt8
  packetLength : Nat

namespace Frame

variable (f : Frame)

def read (index : Nat) : Watched Event Nat := do
  Watched.note (.read index)
  return (f.data index).toNat

def ntoh16 (idx : Nat) : Watched Event Nat := do
  return (← f.read (idx + 1)) ||| (← f.read idx) <<< 8

def ntoh32 (idx : Nat) : Watched Event Nat := do
  return (← f.ntoh16 (idx + 2)) ||| (← f.ntoh16 idx) <<< 16

def ethType : Watched Event Nat := f.ntoh16 12

def isARP : Watched Event Bool := do return (← f.ethType) == 0x0806

def isIPv4 : Watched Event Bool := do return (← f.ethType) == 0x0800

def isIPv6 : Watched Event Bool := do return (← f.ethType) == 0x86dd

def isIP : Watched Event Bool := f.isIPv4 <||> f.isIPv6

def ipType : Watched Event Nat := do
  if ← f.isIP then
    if ← f.isIPv4 then f.read (ETH_HDR_LEN + 9) else f.read (ETH_HDR_LEN + 6)
  else return 0

def getIpHdrLen : Watched Event Nat := do
  if ← f.isIPv4 then return ((← f.read ETH_HDR_LEN) &&& 0x0f) <<< 2
  else return 40

def getIpTotalLen : Watched Event Nat := do
  if ← f.isIP then
    if ← f.isIPv4 then f.ntoh16 (ETH_HDR_LEN + 2)
    else
      let length : Int := f.packetLength - ETH_HDR_LEN
      Watched.note (.length length)
      return (length % 2 ^ 16).toNat
  else return 0

def hasType (type : Nat) : Watched Event Bool :=
  f.isIP <&&> do return (← f.ipType) == type

def isICMP : Watched Event Bool :=
  f.isIP <&&> ((do return (← f.ipType) == 1) <||> (do return (← f.ipType) == 58))

def isIGMP : Watched Event Bool := f.hasType 2

def isTCP : Watched Event Bool := f.hasType 6

def isUDP : Watched Event Bool := f.hasType 17

def getTcpSeq : Watched Event Nat := do
  if ← f.isTCP then f.ntoh32 (ETH_HDR_LEN + (← f.getIpHdrLen) + 4) else return 0

def getTcpAck : Watched Event Nat := do
  if ← f.isTCP then f.ntoh32 (ETH_HDR_LEN + (← f.getIpHdrLen) + 8) else return 0

def getTcpFlags : Watched Event Nat := do
  if ← f.isTCP then f.ntoh16 (ETH_HDR_LEN + (← f.getIpHdrLen) + 12) else return 0

def getTcpWindow : Watched Event Nat := do
  if ← f.isTCP then f.ntoh16 (ETH_HDR_LEN + (← f.getIpHdrLen) + 14) else return 0

def getTcpHdrLen : Watched Event Nat := do
  if ← f.isTCP then
    return (← f.read (ETH_HDR_LEN + (← f.getIpHdrLen) + 12)) >>> 4 * 4
  else return 0

def getTcpLen : Watched Event Nat := do
  if ← f.isTCP then
    let length : Int := (← f.getIpTotalLen) - (← f.getIpHdrLen) - (← f.getTcpHdrLen)
    Watched.note (.length length)
    return (length % 2 ^ 16).toNat
  else return 0

def getIcmpType : Watched Event Nat := do
  if ← f.isICMP then f.read (ETH_HDR_LEN + (← f.getIpHdrLen) + 0) else return 0

def getIgmpType : Watched Event Nat := do
  if ← f.isIGMP then f.read (ETH_HDR_LEN + (← f.getIpHdrLen) + 0) else return 0

def getARPType : Watched Event Nat := do
  if ← f.isARP then f.read (ETH_HDR_LEN + 7) else return 0

def getUdpHdrLen : Watched Event Nat := do
  if ← f.isUDP then return 8 else return 0

def getUdpLen : Watched Event Nat := do
  if ← f.isUDP then f.ntoh16 (ETH_HDR_LEN + (← f.getIpHdrLen) + 4) else return 0

def getSrcPort : Watched Event Nat := do
  if ← f.isIP then f.ntoh16 (ETH_HDR_LEN + (← f.getIpHdrLen) + 0) else return 0

def getDstPort : Watched Event Nat := do
  if ← f.isIP then f.ntoh16 (ETH_HDR_LEN + (← f.getIpHdrLen) + 2) else return 0

def hasPort (p : Nat) : Watched Event Bool :=
  f.isIP <&&> ((do return (← f.getSrcPort) == p) <||> (do return (← f.getDstPort) == p))

def isMDNS : Watched Event Bool := f.isUDP <&&> f.hasPort 5353

def isDNS : Watched Event Bool := f.isUDP <&&> f.hasPort 53

def isSSDP : Watched Event Bool := f.isUDP <&&> f.hasPort 1900

def isDHCP : Watched Event Bool :=
  f.isUDP <&&> (f.hasPort 546 <||> f.hasPort 547 <||> f.hasPort 67 <||> f.hasPort 68)

def isWSDD : Watched Event Bool := f.isUDP <&&> f.hasPort 3702

def isHTTP : Watched Event Bool := f.isTCP <&&> f.hasPort 80

def isOTA : Watched Event Bool := f.isUDP <&&> f.hasPort 8266

def isNETBIOS : Watched Event Bool :=
  f.isUDP <&&> (f.hasPort 137 <||> f.hasPort 138 <||> f.hasPort 139)

def isSMB : Watched Event Bool := f.isUDP <&&> f.hasPort 445

def getIP (idx : Nat) : Watched Event NetdumpIP := do
  return .v4 [← f.read idx, ← f.read (idx + 1), ← f.read (idx + 2), ← f.read (idx + 3)]

/-- `cnt` bytes from an address on. -/
def copy : Nat → Nat → Watched Event (List Nat)
  | _, 0 => return []
  | idx, cnt + 1 => do
    let byte ← f.read idx
    return byte :: (← copy (idx + 1) cnt)

def getIP6 (idx : Nat) : Watched Event NetdumpIP := do return .v6 (← f.copy idx 16)

def sourceIP : Watched Event NetdumpIP := do
  if ← f.isIPv4 then f.getIP (ETH_HDR_LEN + 12)
  else if ← f.isIPv6 then f.getIP6 (ETH_HDR_LEN + 8)
  else return .unset

def destIP : Watched Event NetdumpIP := do
  if ← f.isIPv4 then f.getIP (ETH_HDR_LEN + 16)
  else if ← f.isIPv6 then f.getIP6 (ETH_HDR_LEN + 24)
  else return .unset

/-! ## Prints -/

def printHex (index : Nat) : Watched Event Unit := do
  printf [.hex 2 (← f.read index), .text " "]

def printChar (index : Nat) : Watched Event Unit := do
  let c ← f.read index
  printf [if 32 ≤ c ∧ c < 128 then .char c else .text "."]

def charCount (pd : PacketDetail) : Nat := if pd = .CHAR then 80 else 24

/-- The lines of `size` bytes that stand at `base` of the frame,
from the byte `start` of them on. -/
def printLines (indent : String) (base size : Nat) (pd : PacketDetail) :
    Nat → Nat → Watched Event Unit
  | 0, _ => return
  | lines + 1, start => do
    if start < size then
      let stop := min (start + charCount pd) size
      printf [.text indent]
      if pd ≠ .CHAR then
        (List.range' start (stop - start)).forM fun i => f.printHex (base + i)
        (List.range' stop (start + charCount pd - stop)).forM fun _ => printf [.text "   "]
      (List.range' start (stop - start)).forM fun i => f.printChar (base + i)
      printf [.text "\r\n"]
      printLines indent base size pd lines (start + charCount pd)

def printDetail (indent : String) (base size : Nat) (pd : PacketDetail) : Watched Event Unit := do
  if pd = .NONE then return
  f.printLines indent base size pd size 0

def MACtoString (dataIdx : Nat) : Watched Event Unit :=
  (List.range 6).forM fun i => do
    printf [.hex 2 (← f.read (dataIdx + i))]
    if i < 5 then printf [.text ":"]

def ARPtoString (netdumpDetail : PacketDetail) : Watched Event Unit := do
  let arp ← f.getARPType
  if arp = 1 then
    printf [.text "who has ", .address (← f.getIP (ETH_HDR_LEN + 24)), .text " tell ",
      .address (← f.getIP (ETH_HDR_LEN + 14))]
  else if arp = 2 then
    printf [.address (← f.getIP (ETH_HDR_LEN + 14)), .text " is at "]
    f.MACtoString (ETH_HDR_LEN + 8)
  printf [.text "\r\n"]
  let length : Int := f.packetLength - ETH_HDR_LEN
  Watched.note (.length length)
  f.printDetail "           D " ETH_HDR_LEN (length % 2 ^ 32).toNat netdumpDetail

/-- `source>destination `. -/
def printAddresses : Watched Event Unit := do
  printf [.address (← f.sourceIP), .text ">", .address (← f.destIP), .text " "]

def printCount (name : String) (offset : Nat) : Watched Event Unit := do
  let t ← f.ntoh16 (ETH_HDR_LEN + (← f.getIpHdrLen) + 8 + offset)
  if t ≠ 0 then printf [.text name, .decimal t, .text " "]

def printUdp (netdumpDetail : PacketDetail) : Watched Event Unit := do
  f.printDetail "           H " (ETH_HDR_LEN + (← f.getIpHdrLen)) (← f.getUdpHdrLen) netdumpDetail
  f.printDetail "           D " (ETH_HDR_LEN + (← f.getIpHdrLen) + (← f.getUdpHdrLen))
    (← f.getUdpLen) netdumpDetail

def DNStoString (netdumpDetail : PacketDetail) : Watched Event Unit := do
  f.printAddresses
  printf [.text "ID=0x", .hex 4 (← f.ntoh16 (ETH_HDR_LEN + (← f.getIpHdrLen) + 8)), .text " "]
  printf [.text "F=0x", .hex 4 (← f.ntoh16 (ETH_HDR_LEN + (← f.getIpHdrLen) + 8 + 2)), .text " "]
  f.printCount "Q=" 4
  f.printCount "R=" 6
  f.printCount "TR=" 8
  f.printCount "DR=" 10
  printf [.text "\r\n"]
  f.printUdp netdumpDetail

def UDPtoString (netdumpDetail : PacketDetail) : Watched Event Unit := do
  f.printAddresses
  printf [.decimal (← f.getSrcPort), .text ":", .decimal (← f.getDstPort)]
  printf [.text "\r\n"]
  f.printUdp netdumpDetail

/-- The letters of the flags, with the terminator that `sizeof` counts. -/
def flagChars : List Char := "FSRPAUECN\x00".toList

def TCPtoString (netdumpDetail : PacketDetail) : Watched Event Unit := do
  f.printAddresses
  printf [.decimal (← f.getSrcPort), .text ":", .decimal (← f.getDstPort), .text " "]
  let flags ← f.getTcpFlags
  printf [.text "["]
  flagChars.zipIdx.forM fun (c, i) => do
    if flags &&& 1 <<< i ≠ 0 then printf [.char c.toNat]
  printf [.text "]"]
  printf [.text " len: ", .decimal (← f.getTcpLen), .text " seq: ", .decimal (← f.getTcpSeq),
    .text ", ack: ", .decimal (← f.getTcpAck), .text ", wnd: ", .decimal (← f.getTcpWindow),
    .text " "]
  printf [.text "\r\n"]
  f.printDetail "           H " (ETH_HDR_LEN + (← f.getIpHdrLen)) (← f.getTcpHdrLen) netdumpDetail
  f.printDetail "           D " (ETH_HDR_LEN + (← f.getIpHdrLen) + (← f.getTcpHdrLen))
    (← f.getTcpLen) netdumpDetail

/-- The name of a type, which is looked up again where it has none. -/
def printType (type : Watched Event Nat) (names : List (Nat × String)) : Watched Event Unit := do
  match names.lookup (← type) with
  | some name => printf [.text name]
  | none => printf [.text "type(0x", .hex 2 (← type), .text ")"]

def ICMPtoString : Watched Event Unit := do
  f.printAddresses
  if ← f.isIPv4 then
    printType f.getIcmpType [(0, "ping reply"), (8, "ping request")]
  if ← f.isIPv6 then
    printType f.getIcmpType [(129, "ping reply"), (128, "ping request"),
      (135, "Neighbour solicitation"), (136, "Neighbour advertisement")]
  printf [.text "\r\n"]

def IGMPtoString : Watched Event Unit := do
  printType f.getIgmpType [(1, "Create Group Request"), (2, "Create Group Reply"),
    (3, "Join Group Request"), (4, "Join Group Reply"), (5, "Leave Group Request"),
    (6, "Leave Group Reply"), (7, "Confirm Group Request"), (8, "Confirm Group Reply"),
    (0x11, "Group Membership Query"), (0x12, "IGMPv1 Membership Report"),
    (0x22, "IGMPv3 Membership Report")]
  printf [.text "\r\n"]

def IPtoString (netdumpDetail : PacketDetail) : Watched Event Unit := do
  f.printAddresses
  printf [.text "Unknown IP type : ", .decimal (← f.ipType), .text "\r\n"]
  f.printDetail "           H " ETH_HDR_LEN (← f.getIpHdrLen) netdumpDetail
  let length : Int := (← f.getIpTotalLen) - (← f.getIpHdrLen)
  Watched.note (.length length)
  f.printDetail "           D " (ETH_HDR_LEN + (← f.getIpHdrLen)) (length % 2 ^ 32).toNat
    netdumpDetail

def UKNWtoString : Watched Event Unit := do
  printf [.text "Unknown EtherType 0x", .hex 4 (← f.ethType), .text " Src : "]
  f.MACtoString 0
  printf [.text " Dst : "]
  f.MACtoString 6
  printf [.text "\r\n"]

end Frame

/-! ## Packets -/

structure Packet extends Frame where
  netif_idx : Int
  out : Bool
  thisPacketType : PacketType
  thisAllPacketTypes : List PacketType

namespace Packet

def setPacketType (pt : PacketType) (p : Packet) : Packet :=
  { p with thisPacketType := pt, thisAllPacketTypes := p.thisAllPacketTypes ++ [pt] }

/-- One `if` of `setPacketTypes`. -/
def setPacketTypeIf (is : Frame → Watched Event Bool) (pt : PacketType) (p : Packet) :
    Watched Event Packet := do
  if ← is p.toFrame then return p.setPacketType pt else return p

def setUdpTypes (p : Packet) : Watched Event Packet := do
  if ← p.isUDP then
    let p := p.setPacketType .UDP
    let p ← p.setPacketTypeIf Frame.isMDNS .MDNS
    let p ← p.setPacketTypeIf Frame.isDNS .DNS
    let p ← p.setPacketTypeIf Frame.isSSDP .SSDP
    let p ← p.setPacketTypeIf Frame.isDHCP .DHCP
    let p ← p.setPacketTypeIf Frame.isWSDD .WSDD
    let p ← p.setPacketTypeIf Frame.isNETBIOS .NETBIOS
    let p ← p.setPacketTypeIf Frame.isSMB .SMB
    p.setPacketTypeIf Frame.isOTA .OTA
  else return p

def setTcpTypes (p : Packet) : Watched Event Packet := do
  if ← p.isTCP then (p.setPacketType .TCP).setPacketTypeIf Frame.isHTTP .HTTP else return p

def setIpTypes (p : Packet) : Watched Event Packet := do
  let p ← p.setUdpTypes
  let p ← p.setTcpTypes
  let p ← p.setPacketTypeIf Frame.isICMP .ICMP
  p.setPacketTypeIf Frame.isIGMP .IGMP

def setPacketTypes (p : Packet) : Watched Event Packet := do
  if ← p.isARP then return p.setPacketType .ARP
  else if ← p.isIP then
    let p := p.setPacketType .IP
    let p := p.setPacketType (if ← p.isIPv4 then .IPv4 else .IPv6)
    p.setIpTypes
  else return p.setPacketType .UKNW

def construct (f : Frame) (netif_idx : Int) (out : Bool) : Watched Event Packet :=
  setPacketTypes ⟨f, netif_idx, out, .UKNW, []⟩

def toString (p : Packet) (netdumpDetail : PacketDetail) : Watched Event Unit := do
  printf [.decimal p.netif_idx, .text (if p.out then " out " else " in  "),
    .padded 4 p.thisPacketType.toString, .text " "]
  if netdumpDetail = .RAW then
    printf [.text " : "]
    p.thisAllPacketTypes.forM fun at' => printf [.text at'.toString, .text " "]
    printf [.text "\r\n"]
    p.printDetail "           D " 0 p.packetLength netdumpDetail
  else
    match p.thisPacketType with
    | .ARP => p.ARPtoString netdumpDetail
    | .MDNS | .DNS => p.DNStoString netdumpDetail
    | .SSDP | .DHCP | .WSDD | .NETBIOS | .SMB | .OTA | .UDP => p.UDPtoString netdumpDetail
    | .TCP | .HTTP => p.TCPtoString netdumpDetail
    | .ICMP => p.ICMPtoString
    | .IGMP => p.IGMPtoString
    | .IPv4 | .IPv6 => p.IPtoString netdumpDetail
    | .UKNW => p.UKNWtoString
    | .IP => printf [.text "Non identified packet\r\n"]

end Packet

/-- A frame is captured, and its packet printed at a detail. -/
def netdumpCapture (data : Frame) (netif_idx : Int) (out : Bool) (ndd : PacketDetail) :
    Watched Event Unit := do
  let np ← Packet.construct data netif_idx out
  np.toString ndd

end NetCapture
