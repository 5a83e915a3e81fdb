import Mathlib.Tactic.SplitIfs
import RalioFirmware.Netdump.Packet

/-!
# How far a printed frame is read

What the constructor and a print look up is as far as the fields of the frame point.  Which bytes
these are, for every protocol and every detail, is the length a frame has to have; the payload of a
packet must not be shorter than its headers say, too.
-/

namespace NetCapture

open Observe

/-- A byte is one of the frame's `size`, and a length has not wrapped. -/
def Event.Fine (size : Nat) : Event → Prop
  | .read index => index < size
  | .length value => 0 ≤ value
  | .print _ => True

instance (size : Nat) : DecidablePred (Event.Fine size)
  | .read index => inferInstanceAs (Decidable (index < size))
  | .length value => inferInstanceAs (Decidable (0 ≤ value))
  | .print _ => inferInstanceAs (Decidable True)

namespace Frame

variable {α : Type} (f : Frame)

/-- All that a computation looks up is in the frame, and no length in it wraps. -/
abbrev Safe (m : Watched Event α) : Prop := m.All (Event.Fine f.packetLength)

/-! ## What the headers say -/

def byte (index : Nat) : Nat := (f.data index).toNat

def word (index : Nat) : Nat := f.byte index * 256 + f.byte (index + 1)

def IsIP : Prop := f.word 12 = 0x0800 ∨ f.word 12 = 0x86dd

instance : Decidable f.IsIP := inferInstanceAs (Decidable (_ ∨ _))

def protocolAt : Nat := if f.word 12 = 0x0800 then 23 else 20

def protocol : Nat := f.byte f.protocolAt

def ihl : Nat := if f.word 12 = 0x0800 then f.byte 14 % 16 * 4 else 40

/-- The length of header and data, which without a field for it is that of the frame. -/
def total : Nat :=
  if f.word 12 = 0x0800 then f.word 16 else (((f.packetLength : Int) - 14) % 65536).toNat

def addresses : Nat := if f.word 12 = 0x0800 then 34 else 54

def Port (p : Nat) : Prop := f.word (14 + f.ihl) = p ∨ f.word (16 + f.ihl) = p

instance (p : Nat) : Decidable (f.Port p) := inferInstanceAs (Decidable (_ ∨ _))

def udpLength : Nat := f.word (18 + f.ihl)

def tcpHeader : Nat := f.byte (26 + f.ihl) / 16 * 4

/-! ## Fields -/

theorem safe_printf (what : List Printed) : f.Safe (printf what) := by
  unfold Safe printf
  rw [Watched.all_forM]
  intro e he
  obtain ⟨p, -, rfl⟩ := List.mem_map.mp he
  exact (Watched.all_note _).mpr trivial

@[simp]
theorem safe_printf_iff (what : List Printed) : f.Safe (printf what) ↔ True :=
  iff_true_intro (f.safe_printf what)

@[simp]
theorem value_read (index : Nat) : (f.read index).value = f.byte index := rfl

@[simp]
theorem safe_read (index : Nat) : f.Safe (f.read index) ↔ index < f.packetLength := by
  simp [Safe, read, Event.Fine]

@[simp]
theorem value_ntoh16 (idx : Nat) : (f.ntoh16 idx).value = f.word idx := by
  have hlow : f.byte (idx + 1) < 2 ^ 8 := (f.data (idx + 1)).toNat_lt
  simp only [ntoh16, Watched.value_bind, value_read, Watched.value_pure]
  rw [Nat.or_comm, ← Nat.shiftLeft_add_eq_or_of_lt hlow, Nat.shiftLeft_eq]
  rfl

@[simp]
theorem safe_ntoh16 (idx : Nat) : f.Safe (f.ntoh16 idx) ↔ idx + 1 < f.packetLength := by
  simp [ntoh16]
  omega

@[simp]
theorem safe_ntoh32 (idx : Nat) : f.Safe (f.ntoh32 idx) ↔ idx + 3 < f.packetLength := by
  simp [ntoh32]
  omega

@[simp]
theorem value_isARP : f.isARP.value = decide (f.word 12 = 0x0806) := by
  simp [isARP, ethType]
  rfl

@[simp]
theorem safe_isARP : f.Safe f.isARP ↔ 13 < f.packetLength := by simp [isARP, ethType]

@[simp]
theorem value_isIPv4 : f.isIPv4.value = decide (f.word 12 = 0x0800) := by
  simp [isIPv4, ethType]
  rfl

@[simp]
theorem safe_isIPv4 : f.Safe f.isIPv4 ↔ 13 < f.packetLength := by simp [isIPv4, ethType]

@[simp]
theorem value_isIPv6 : f.isIPv6.value = decide (f.word 12 = 0x86dd) := by
  simp [isIPv6, ethType]
  rfl

@[simp]
theorem safe_isIPv6 : f.Safe f.isIPv6 ↔ 13 < f.packetLength := by simp [isIPv6, ethType]

@[simp]
theorem value_isIP : f.isIP.value = decide f.IsIP := by
  rw [Bool.eq_iff_iff, decide_eq_true_iff]
  simp [isIP, IsIP]

@[simp]
theorem safe_isIP : f.Safe f.isIP ↔ 13 < f.packetLength := by
  simp [isIP]
  exact fun h _ => h

@[simp]
theorem value_getIpHdrLen : f.getIpHdrLen.value = f.ihl := by
  have hmask : f.byte 14 &&& 15 = f.byte 14 % 16 := Nat.and_two_pow_sub_one_eq_mod _ 4
  simp only [getIpHdrLen, ETH_HDR_LEN, Watched.value_bind, value_isIPv4, decide_eq_true_eq,
    Watched.value_ite, value_read, Watched.value_pure, hmask, ihl, Nat.shiftLeft_eq]

@[simp]
theorem safe_getIpHdrLen : f.Safe f.getIpHdrLen ↔ 13 < f.packetLength ∧
    (f.word 12 = 0x0800 → 14 < f.packetLength) := by
  simp [getIpHdrLen, ETH_HDR_LEN]

theorem protocolAt_ge : 20 ≤ f.protocolAt := by
  unfold protocolAt
  split <;> decide

theorem addresses_gt : f.protocolAt < f.addresses ∧ 34 ≤ f.addresses := by
  unfold protocolAt addresses
  split <;> decide

theorem total_lt : f.total < 65536 := by
  have hhigh : f.byte 16 < 256 := (f.data 16).toNat_lt
  have hlow : f.byte (16 + 1) < 256 := (f.data 17).toNat_lt
  unfold total word
  split <;> omega

theorem safe_copy (idx cnt : Nat) :
    f.Safe (f.copy idx cnt) ↔ cnt = 0 ∨ idx + cnt ≤ f.packetLength := by
  induction cnt generalizing idx with
  | zero => simp [copy]
  | succ cnt ih =>
    simp only [copy, Watched.all_bind, safe_read, ih, Watched.all_pure, and_true]
    omega

@[simp]
theorem safe_getIP (idx : Nat) : f.Safe (f.getIP idx) ↔ idx + 4 ≤ f.packetLength := by
  simp [getIP]
  omega

@[simp]
theorem safe_getIP6 (idx : Nat) : f.Safe (f.getIP6 idx) ↔ idx + 16 ≤ f.packetLength := by
  simp [getIP6, safe_copy]

@[simp]
theorem safe_MACtoString (dataIdx : Nat) :
    f.Safe (f.MACtoString dataIdx) ↔ dataIdx + 6 ≤ f.packetLength := by
  simp only [MACtoString, Watched.all_forM, Watched.all_bind, safe_read, safe_printf_iff,
    Watched.all_ite, Watched.all_pure, List.mem_range, implies_true, and_true]
  constructor
  · intro h
    have hlast := h 5 (by decide)
    omega
  · intro h i hi
    omega

/-! ## Details -/

@[simp]
theorem safe_printHex (index : Nat) : f.Safe (f.printHex index) ↔ index < f.packetLength := by
  simp [printHex]

@[simp]
theorem safe_printChar (index : Nat) : f.Safe (f.printChar index) ↔ index < f.packetLength := by
  simp [printChar]

theorem charCount_pos (pd : PacketDetail) : 0 < charCount pd := by
  unfold charCount
  split <;> decide

theorem safe_printLines (indent : String) (base size : Nat) (pd : PacketDetail)
    {lines start : Nat} (hlines : size - start ≤ lines) :
    f.Safe (f.printLines indent base size pd lines start) ↔
      (start < size → base + size ≤ f.packetLength) := by
  induction lines generalizing start with
  | zero =>
    have hend : ¬ start < size := by omega
    simp [printLines, hend]
  | succ lines ih =>
    have hcount := charCount_pos pd
    by_cases hstart : start < size
    · have ih := @ih (start + charCount pd) (by omega)
      simp only [printLines, if_pos hstart, Watched.all_bind, safe_printf_iff, Watched.all_ite,
        Watched.all_forM, safe_printHex, safe_printChar, ih, List.mem_range'_1]
      constructor
      · intro h _
        have hline : (∀ a, start ≤ a ∧ a < start + (min (start + charCount pd) size - start) →
            base + a < f.packetLength) ∧
            (start + charCount pd < size → base + size ≤ f.packetLength) := by grind
        by_cases hmore : start + charCount pd < size
        · exact hline.2 hmore
        · have hlast := hline.1 (size - 1) (by omega)
          omega
      · intro h
        have hfit := h hstart
        have hline : ∀ a, start ≤ a ∧ a < start + (min (start + charCount pd) size - start) →
            base + a < f.packetLength := fun a ha => by omega
        exact ⟨trivial, fun _ => ⟨hline, fun _ _ => trivial, hline, trivial, fun _ => hfit⟩,
          fun _ => ⟨hline, trivial, fun _ => hfit⟩⟩
    · simp [printLines, hstart]

@[simp]
theorem safe_printDetail (indent : String) (base size : Nat) (pd : PacketDetail) :
    f.Safe (f.printDetail indent base size pd) ↔
      (pd ≠ .NONE → 0 < size → base + size ≤ f.packetLength) := by
  unfold printDetail
  by_cases hpd : pd = .NONE
  · simp [hpd]
  · have hfuel : size - 0 ≤ size := by omega
    have hlines := f.safe_printLines indent base size pd hfuel
    simp [hpd, hlines]

/-! ## Fields of an IP packet -/

theorem safe_printCount (name : String) (offset : Nat) : f.Safe (f.printCount name offset) ↔
    24 + f.ihl + offset ≤ f.packetLength := by
  simp only [printCount, Watched.all_bind, safe_getIpHdrLen, value_getIpHdrLen, safe_ntoh16,
    Watched.all_ite, safe_printf_iff, Watched.all_pure, implies_true, and_true, ETH_HDR_LEN]
  omega

theorem safe_printType (type : Watched Event Nat) (names : List (Nat × String)) :
    f.Safe (printType type names) ↔ f.Safe type := by
  simp only [printType, Watched.all_bind]
  cases names.lookup type.value with
  | none => simp
  | some name => simp

section IsIP

variable {f} (hip : f.IsIP)
include hip

theorem value_isIP_of : f.isIP.value = true := by
  rw [value_isIP, decide_eq_true_iff]
  exact hip

theorem isARP_of : f.isARP.value = false := by
  rw [value_isARP, decide_eq_false_iff_not]
  rcases hip with h | h <;> omega

theorem value_ipType : f.ipType.value = f.protocol := by
  simp only [ipType, Watched.value_bind, value_isIP_of hip, if_true, value_isIPv4,
    decide_eq_true_eq, Watched.value_ite, value_read, protocol, protocolAt, ETH_HDR_LEN]
  exact (apply_ite f.byte _ _ _).symm

theorem safe_ipType : f.Safe f.ipType ↔ f.protocolAt < f.packetLength := by
  simp only [ipType, Watched.all_bind, safe_isIP, value_isIP_of hip, if_true, safe_isIPv4,
    value_isIPv4, decide_eq_true_eq, Watched.all_ite, safe_read, protocolAt, ETH_HDR_LEN]
  split <;> omega

theorem value_getIpTotalLen : f.getIpTotalLen.value = f.total := by
  simp [getIpTotalLen, hip, total, ETH_HDR_LEN]

theorem safe_getIpTotalLen : f.Safe f.getIpTotalLen ↔
    (if f.word 12 = 0x0800 then 18 else 14) ≤ f.packetLength := by
  simp only [getIpTotalLen, Watched.all_bind, safe_isIP, value_isIP_of hip, if_true, safe_isIPv4,
    value_isIPv4, decide_eq_true_eq, Watched.all_ite, safe_ntoh16, Watched.all_note,
    Watched.all_pure, and_true, ETH_HDR_LEN, Event.Fine]
  split <;> omega

theorem value_hasType (type : Nat) : (f.hasType type).value = decide (f.protocol = type) := by
  simp [hasType, hip, value_ipType hip]
  rfl

theorem safe_hasType (type : Nat) : f.Safe (f.hasType type) ↔ f.protocolAt < f.packetLength := by
  have hat := f.protocolAt_ge
  simp [hasType, hip, safe_ipType hip]
  omega

theorem value_isICMP : f.isICMP.value = decide (f.protocol = 1 ∨ f.protocol = 58) := by
  rw [Bool.eq_iff_iff]
  simp [isICMP, hip, value_ipType hip]

theorem safe_isICMP : f.Safe f.isICMP ↔ f.protocolAt < f.packetLength := by
  have hat := f.protocolAt_ge
  simp [isICMP, hip, safe_ipType hip]
  omega

theorem value_getSrcPort : f.getSrcPort.value = f.word (14 + f.ihl) := by
  simp [getSrcPort, hip, ETH_HDR_LEN]

theorem safe_getSrcPort : f.Safe f.getSrcPort ↔ 16 + f.ihl ≤ f.packetLength := by
  simp [getSrcPort, hip, ETH_HDR_LEN]
  omega

theorem value_getDstPort : f.getDstPort.value = f.word (16 + f.ihl) := by
  simp [getDstPort, hip, ETH_HDR_LEN]
  congr 1
  omega

theorem safe_getDstPort : f.Safe f.getDstPort ↔ 18 + f.ihl ≤ f.packetLength := by
  simp [getDstPort, hip, ETH_HDR_LEN]
  omega

theorem value_hasPort (p : Nat) : (f.hasPort p).value = decide (f.Port p) := by
  rw [Bool.eq_iff_iff, decide_eq_true_iff]
  simp [hasPort, hip, value_getSrcPort hip, value_getDstPort hip, Port]

theorem safe_hasPort (p : Nat) : f.Safe (f.hasPort p) ↔ 16 + f.ihl ≤ f.packetLength ∧
    (f.word (14 + f.ihl) ≠ p → 18 + f.ihl ≤ f.packetLength) := by
  simp [hasPort, hip, value_getSrcPort hip, safe_getSrcPort hip, safe_getDstPort hip]
  omega

@[simp]
theorem safe_printAddresses : f.Safe f.printAddresses ↔ f.addresses ≤ f.packetLength := by
  by_cases h4 : f.word 12 = 0x0800
  · simp [printAddresses, sourceIP, destIP, h4, addresses, ETH_HDR_LEN]
    omega
  · have h6 : f.word 12 = 0x86dd := hip.resolve_left h4
    simp [printAddresses, sourceIP, destIP, h6, addresses, ETH_HDR_LEN]
    omega

/-! ## Prints of an IP packet -/

theorem value_getUdpHdrLen (hudp : f.protocol = 17) : f.getUdpHdrLen.value = 8 := by
  simp [getUdpHdrLen, isUDP, value_hasType hip, hudp]

theorem safe_getUdpHdrLen : f.Safe f.getUdpHdrLen ↔ f.protocolAt < f.packetLength := by
  simp [getUdpHdrLen, isUDP, safe_hasType hip]

theorem value_getUdpLen (hudp : f.protocol = 17) : f.getUdpLen.value = f.udpLength := by
  have hat : 14 + f.ihl + 4 = 18 + f.ihl := by omega
  simp [getUdpLen, isUDP, value_hasType hip, hudp, ETH_HDR_LEN, udpLength, hat]

theorem safe_getUdpLen (hudp : f.protocol = 17) : f.Safe f.getUdpLen ↔
    f.protocolAt < f.packetLength ∧ 20 + f.ihl ≤ f.packetLength := by
  have hat := f.protocolAt_ge
  simp [getUdpLen, isUDP, value_hasType hip, safe_hasType hip, hudp, ETH_HDR_LEN]
  omega

theorem safe_printUdp (hudp : f.protocol = 17) (pd : PacketDetail) :
    f.Safe (f.printUdp pd) ↔ f.protocolAt < f.packetLength ∧ 20 + f.ihl ≤ f.packetLength ∧
      (pd ≠ .NONE → 22 + f.ihl + f.udpLength ≤ f.packetLength) := by
  have hat := f.protocolAt_ge
  simp only [printUdp, Watched.all_bind, safe_getIpHdrLen, value_getIpHdrLen,
    safe_getUdpHdrLen hip, value_getUdpHdrLen hip hudp, safe_getUdpLen hip hudp,
    value_getUdpLen hip hudp, safe_printDetail, ETH_HDR_LEN]
  by_cases hpd : pd = .NONE
  · grind
  · grind

theorem safe_UDPtoString (hudp : f.protocol = 17) (pd : PacketDetail) :
    f.Safe (f.UDPtoString pd) ↔ f.addresses ≤ f.packetLength ∧ 20 + f.ihl ≤ f.packetLength ∧
      (pd ≠ .NONE → 22 + f.ihl + f.udpLength ≤ f.packetLength) := by
  have haddresses := f.addresses_gt
  simp only [UDPtoString, Watched.all_bind, safe_printAddresses hip, safe_getSrcPort hip,
    safe_getDstPort hip, safe_printf_iff, safe_printUdp hip hudp]
  by_cases hpd : pd = .NONE
  · grind
  · grind

theorem safe_DNStoString (hudp : f.protocol = 17) (pd : PacketDetail) :
    f.Safe (f.DNStoString pd) ↔ f.addresses ≤ f.packetLength ∧ 34 + f.ihl ≤ f.packetLength ∧
      (pd ≠ .NONE → 22 + f.ihl + f.udpLength ≤ f.packetLength) := by
  have haddresses := f.addresses_gt
  simp only [DNStoString, Watched.all_bind, safe_printAddresses hip, safe_getIpHdrLen,
    value_getIpHdrLen, safe_ntoh16, safe_printf_iff, safe_printCount, safe_printUdp hip hudp,
    ETH_HDR_LEN]
  by_cases hpd : pd = .NONE
  · grind
  · grind

theorem value_getTcpHdrLen (htcp : f.protocol = 6) : f.getTcpHdrLen.value = f.tcpHeader := by
  have hat : 14 + f.ihl + 12 = 26 + f.ihl := by omega
  simp [getTcpHdrLen, isTCP, value_hasType hip, htcp, ETH_HDR_LEN, tcpHeader, hat,
    Nat.shiftRight_eq_div_pow]

theorem safe_getTcpHdrLen (htcp : f.protocol = 6) : f.Safe f.getTcpHdrLen ↔
    f.protocolAt < f.packetLength ∧ 27 + f.ihl ≤ f.packetLength := by
  have hat := f.protocolAt_ge
  simp [getTcpHdrLen, isTCP, value_hasType hip, safe_hasType hip, htcp, ETH_HDR_LEN]
  omega

theorem value_getTcpLen (htcp : f.protocol = 6) : f.getTcpLen.value =
    (((f.total : Int) - f.ihl - f.tcpHeader) % 65536).toNat := by
  simp [getTcpLen, isTCP, value_hasType hip, htcp, value_getIpTotalLen hip,
    value_getTcpHdrLen hip htcp]

theorem safe_getTcpLen (htcp : f.protocol = 6) : f.Safe f.getTcpLen ↔
    f.protocolAt < f.packetLength ∧ 27 + f.ihl ≤ f.packetLength ∧
      f.ihl + f.tcpHeader ≤ f.total := by
  have hat := f.protocolAt_ge
  simp [getTcpLen, isTCP, value_hasType hip, safe_hasType hip, htcp, value_getIpTotalLen hip,
    safe_getIpTotalLen hip, value_getTcpHdrLen hip htcp, safe_getTcpHdrLen hip htcp, Event.Fine]
  split <;> omega

theorem safe_TCPtoString (htcp : f.protocol = 6) (pd : PacketDetail) :
    f.Safe (f.TCPtoString pd) ↔ f.addresses ≤ f.packetLength ∧ 30 + f.ihl ≤ f.packetLength ∧
      f.ihl + f.tcpHeader ≤ f.total ∧ (pd ≠ .NONE → 14 + f.total ≤ f.packetLength) := by
  have haddresses := f.addresses_gt
  have htotal := f.total_lt
  have htcp' : f.isTCP.value = true := by
    rw [isTCP, value_hasType hip, htcp]
    rfl
  have hsafe : f.Safe f.isTCP ↔ f.protocolAt < f.packetLength := safe_hasType hip 6
  simp only [TCPtoString, Watched.all_bind, safe_printAddresses hip, safe_getSrcPort hip,
    safe_getDstPort hip, safe_printf_iff, getTcpFlags, getTcpSeq, getTcpAck, getTcpWindow, hsafe,
    htcp', if_true, safe_getIpHdrLen, value_getIpHdrLen, safe_ntoh16, safe_ntoh32,
    Watched.all_forM, Watched.all_ite, Watched.all_pure, implies_true, and_self, true_and,
    safe_getTcpLen hip htcp, safe_getTcpHdrLen hip htcp, value_getTcpHdrLen hip htcp,
    value_getTcpLen hip htcp, safe_printDetail, ETH_HDR_LEN]
  by_cases hpd : pd = .NONE
  · grind
  · grind

theorem safe_getIcmpType (hicmp : f.protocol = 1 ∨ f.protocol = 58) :
    f.Safe f.getIcmpType ↔ f.protocolAt < f.packetLength ∧ 15 + f.ihl ≤ f.packetLength := by
  have hat := f.protocolAt_ge
  simp [getIcmpType, value_isICMP hip, safe_isICMP hip, hicmp, ETH_HDR_LEN]
  omega

theorem safe_getIgmpType (higmp : f.protocol = 2) :
    f.Safe f.getIgmpType ↔ f.protocolAt < f.packetLength ∧ 15 + f.ihl ≤ f.packetLength := by
  have hat := f.protocolAt_ge
  simp [getIgmpType, isIGMP, value_hasType hip, safe_hasType hip, higmp, ETH_HDR_LEN]
  omega

theorem safe_ICMPtoString (hicmp : f.protocol = 1 ∨ f.protocol = 58) :
    f.Safe f.ICMPtoString ↔ f.addresses ≤ f.packetLength ∧ 15 + f.ihl ≤ f.packetLength := by
  have haddresses := f.addresses_gt
  have htype := safe_getIcmpType hip hicmp
  by_cases h4 : f.word 12 = 0x0800
  · simp [ICMPtoString, safe_printAddresses hip, safe_printType, htype, h4]
    omega
  · have h6 : f.word 12 = 0x86dd := hip.resolve_left h4
    simp [ICMPtoString, safe_printAddresses hip, safe_printType, htype, h6]
    omega

theorem safe_IGMPtoString (higmp : f.protocol = 2) :
    f.Safe f.IGMPtoString ↔ f.protocolAt < f.packetLength ∧ 15 + f.ihl ≤ f.packetLength := by
  simp [IGMPtoString, safe_printType, safe_getIgmpType hip higmp]

theorem safe_IPtoString (pd : PacketDetail) :
    f.Safe (f.IPtoString pd) ↔ f.addresses ≤ f.packetLength ∧ f.ihl ≤ f.total ∧
      (pd ≠ .NONE → 14 + f.total ≤ f.packetLength) := by
  have haddresses := f.addresses_gt
  have htotal := f.total_lt
  simp only [IPtoString, Watched.all_bind, safe_printAddresses hip, safe_ipType hip,
    safe_printf_iff, safe_getIpHdrLen, value_getIpHdrLen, safe_getIpTotalLen hip,
    value_getIpTotalLen hip, safe_printDetail, Watched.all_note, Event.Fine, ETH_HDR_LEN, true_and]
  by_cases hpd : pd = .NONE
  · grind
  · grind

end IsIP

/-! ## The type of a packet -/

/-- What the ports of a datagram make it: the last of the types that fit. -/
def udpType : PacketType :=
  if f.Port 8266 then .OTA
  else if f.Port 445 then .SMB
  else if f.Port 137 ∨ f.Port 138 ∨ f.Port 139 then .NETBIOS
  else if f.Port 3702 then .WSDD
  else if f.Port 546 ∨ f.Port 547 ∨ f.Port 67 ∨ f.Port 68 then .DHCP
  else if f.Port 1900 then .SSDP
  else if f.Port 53 then .DNS
  else if f.Port 5353 then .MDNS
  else .UDP

end Frame

namespace Packet

variable (p : Packet)

@[simp]
theorem setPacketTypeIf_frame (is : Frame → Watched Event Bool) (pt : PacketType) :
    (p.setPacketTypeIf is pt).value.toFrame = p.toFrame := by
  simp only [setPacketTypeIf, Watched.value_bind, Watched.value_ite, Watched.value_pure]
  split <;> rfl

@[simp]
theorem setPacketTypeIf_type (is : Frame → Watched Event Bool) (pt : PacketType) :
    (p.setPacketTypeIf is pt).value.thisPacketType =
      if (is p.toFrame).value then pt else p.thisPacketType := by
  simp only [setPacketTypeIf, Watched.value_bind, Watched.value_ite, Watched.value_pure]
  split <;> rfl

@[simp]
theorem safe_setPacketTypeIf (is : Frame → Watched Event Bool) (pt : PacketType) {size : Nat} :
    (p.setPacketTypeIf is pt).All (Event.Fine size) ↔
      (is p.toFrame).All (Event.Fine size) := by
  simp [setPacketTypeIf]

@[simp]
theorem setPacketType_frame (pt : PacketType) : (p.setPacketType pt).toFrame = p.toFrame := rfl

@[simp]
theorem setPacketType_type (pt : PacketType) : (p.setPacketType pt).thisPacketType = pt := rfl

@[simp]
theorem setUdpTypes_frame : p.setUdpTypes.value.toFrame = p.toFrame := by
  simp only [setUdpTypes, Watched.value_bind, Watched.value_ite, Watched.value_pure]
  split
  · simp only [setPacketTypeIf_frame, setPacketType_frame]
  · rfl

@[simp]
theorem setTcpTypes_frame : p.setTcpTypes.value.toFrame = p.toFrame := by
  simp only [setTcpTypes, Watched.value_bind, Watched.value_ite, Watched.value_pure]
  split
  · simp only [setPacketTypeIf_frame, setPacketType_frame]
  · rfl

@[simp]
theorem setIpTypes_frame : p.setIpTypes.value.toFrame = p.toFrame := by
  simp only [setIpTypes, Watched.value_bind, setPacketTypeIf_frame, setTcpTypes_frame,
    setUdpTypes_frame]

variable {p} (hip : p.IsIP)
include hip

theorem setUdpTypes_type : p.setUdpTypes.value.thisPacketType =
    if p.protocol = 17 then p.udpType else p.thisPacketType := by
  by_cases hudp : p.protocol = 17
  · simp [setUdpTypes, Frame.isUDP, Frame.isMDNS, Frame.isDNS, Frame.isSSDP, Frame.isDHCP,
      Frame.isWSDD, Frame.isNETBIOS, Frame.isSMB, Frame.isOTA, Frame.value_hasType hip, hudp,
      Frame.value_hasPort hip, Frame.udpType]
  · simp [setUdpTypes, Frame.isUDP, Frame.value_hasType hip, hudp]

theorem safe_setUdpTypes : p.Safe p.setUdpTypes ↔ p.protocolAt < p.packetLength ∧
    (p.protocol = 17 → 18 + p.ihl ≤ p.packetLength) := by
  by_cases hudp : p.protocol = 17
  · simp only [setUdpTypes, Watched.all_bind, Frame.isUDP, Frame.safe_hasType hip,
      Frame.value_hasType hip, hudp, decide_true, if_true, safe_setPacketTypeIf,
      setPacketTypeIf_frame, setPacketType_frame, Frame.isMDNS, Frame.isDNS, Frame.isSSDP,
      Frame.isDHCP, Frame.isWSDD, Frame.isNETBIOS, Frame.isSMB, Frame.isOTA, Watched.all_andM,
      Watched.all_orM, Frame.safe_hasPort hip, forall_const]
    by_cases h18 : 18 + p.ihl ≤ p.packetLength
    · have h16 : 16 + p.ihl ≤ p.packetLength := by omega
      simp only [h16, h18, implies_true, and_true, and_self]
    · refine iff_of_false (fun h => h18 ?_) (fun h => h18 h.2)
      obtain ⟨-, ⟨-, -, hmdns⟩, ⟨-, -, hdns⟩, -⟩ := h
      by_cases hsource : p.word (14 + p.ihl) = 53
      · exact hmdns (by omega)
      · exact hdns hsource
  · simp [setUdpTypes, Frame.isUDP, Frame.value_hasType hip, Frame.safe_hasType hip, hudp]

theorem setTcpTypes_type : p.setTcpTypes.value.thisPacketType =
    if p.protocol = 6 then if p.Port 80 then .HTTP else .TCP else p.thisPacketType := by
  by_cases htcp : p.protocol = 6
  · simp [setTcpTypes, Frame.isTCP, Frame.isHTTP, Frame.value_hasType hip, htcp,
      Frame.value_hasPort hip]
  · simp [setTcpTypes, Frame.isTCP, Frame.value_hasType hip, htcp]

theorem safe_setTcpTypes : p.Safe p.setTcpTypes ↔ p.protocolAt < p.packetLength ∧
    (p.protocol = 6 → (if p.word (14 + p.ihl) = 80 then 16 else 18) + p.ihl ≤ p.packetLength) := by
  by_cases htcp : p.protocol = 6
  · simp only [setTcpTypes, Watched.all_bind, Frame.isTCP, Frame.safe_hasType hip,
      Frame.value_hasType hip, htcp, decide_true, if_true, safe_setPacketTypeIf,
      setPacketType_frame, Frame.isHTTP, Watched.all_andM, Frame.safe_hasPort hip, forall_const]
    split <;> omega
  · simp [setTcpTypes, Frame.isTCP, Frame.value_hasType hip, Frame.safe_hasType hip, htcp]

theorem setIpTypes_type : p.setIpTypes.value.thisPacketType =
    if p.protocol = 17 then p.udpType
    else if p.protocol = 6 then if p.Port 80 then .HTTP else .TCP
    else if p.protocol = 1 ∨ p.protocol = 58 then .ICMP
    else if p.protocol = 2 then .IGMP
    else p.thisPacketType := by
  have hudp := setUdpTypes_type hip
  have hip' : p.setUdpTypes.value.IsIP := by
    rw [setUdpTypes_frame]
    exact hip
  have htcp := setTcpTypes_type hip'
  rw [setUdpTypes_frame] at htcp
  simp only [setIpTypes, Watched.value_bind, setPacketTypeIf_type, setPacketTypeIf_frame,
    setTcpTypes_frame, setUdpTypes_frame, Frame.isIGMP, Frame.value_hasType hip,
    Frame.value_isICMP hip, decide_eq_true_eq, htcp, hudp]
  split_ifs <;> first | rfl | omega

theorem safe_setIpTypes : p.Safe p.setIpTypes ↔ p.protocolAt < p.packetLength ∧
    (p.protocol = 17 → 18 + p.ihl ≤ p.packetLength) ∧
    (p.protocol = 6 → (if p.word (14 + p.ihl) = 80 then 16 else 18) + p.ihl ≤ p.packetLength) := by
  have hip' : p.setUdpTypes.value.IsIP := by
    rw [setUdpTypes_frame]
    exact hip
  have htcp := safe_setTcpTypes hip'
  rw [setUdpTypes_frame] at htcp
  simp only [setIpTypes, Watched.all_bind, safe_setUdpTypes hip, htcp, safe_setPacketTypeIf,
    setPacketTypeIf_frame, setTcpTypes_frame, setUdpTypes_frame, Frame.isIGMP,
    Frame.safe_hasType hip, Frame.safe_isICMP hip]
  split <;> omega

end Packet

namespace Frame

variable (f : Frame)

def packetType : PacketType :=
  if f.word 12 = 0x0806 then .ARP
  else if ¬ f.IsIP then .UKNW
  else if f.protocol = 17 then f.udpType
  else if f.protocol = 6 then if f.Port 80 then .HTTP else .TCP
  else if f.protocol = 1 ∨ f.protocol = 58 then .ICMP
  else if f.protocol = 2 then .IGMP
  else if f.word 12 = 0x0800 then .IPv4
  else .IPv6

variable (netif_idx : Int) (out : Bool)

/-- The packet before what is above its IP header is looked at. -/
def ipPacket : Packet :=
  (Packet.setPacketType .IP ⟨f, netif_idx, out, .UKNW, []⟩).setPacketType
    (if f.word 12 = 0x0800 then .IPv4 else .IPv6)

theorem construct_ip (hip : f.IsIP) : (Packet.construct f netif_idx out).value =
    (f.ipPacket netif_idx out).setIpTypes.value := by
  have harp := isARP_of hip
  simp only [Packet.construct, Packet.setPacketTypes, Watched.value_bind, harp, Bool.false_eq_true,
    if_false, value_isIP_of hip, if_true, Packet.setPacketType_frame, value_isIPv4,
    decide_eq_true_eq, ipPacket]

theorem construct_packet : (Packet.construct f netif_idx out).value.toFrame = f ∧
    (Packet.construct f netif_idx out).value.thisPacketType = f.packetType := by
  by_cases hip : f.IsIP
  · have harp : ¬ f.word 12 = 0x0806 := by rcases hip with h | h <;> omega
    have htype := Packet.setIpTypes_type (p := f.ipPacket netif_idx out) hip
    rw [construct_ip f netif_idx out hip, Packet.setIpTypes_frame, htype]
    refine ⟨rfl, ?_⟩
    simp only [packetType, if_neg harp, hip, not_true_eq_false, if_false]
    rfl
  · by_cases harp : f.word 12 = 0x0806
    · simp [Packet.construct, Packet.setPacketTypes, harp, packetType]
    · simp [Packet.construct, Packet.setPacketTypes, harp, hip, packetType]

theorem safe_construct : f.Safe (Packet.construct f netif_idx out) ↔ 14 ≤ f.packetLength ∧
    (f.IsIP → f.protocolAt < f.packetLength ∧
      (f.protocol = 17 → 18 + f.ihl ≤ f.packetLength) ∧
      (f.protocol = 6 →
        (if f.word (14 + f.ihl) = 80 then 16 else 18) + f.ihl ≤ f.packetLength)) := by
  by_cases hip : f.IsIP
  · have htypes := Packet.safe_setIpTypes (p := f.ipPacket netif_idx out) hip
    have hpacket : (f.ipPacket netif_idx out).toFrame = f := rfl
    rw [hpacket] at htypes
    simp only [Packet.construct, Packet.setPacketTypes, Watched.all_bind, safe_isARP,
      isARP_of hip, Bool.false_eq_true, if_false, safe_isIP, value_isIP_of hip, if_true,
      Packet.setPacketType_frame, safe_isIPv4, value_isIPv4, decide_eq_true_eq]
    have hat := f.protocolAt_ge
    rw [← ipPacket]
    simp only [htypes, hip, forall_const]
    split <;> omega
  · by_cases harp : f.word 12 = 0x0806
    · simp [Packet.construct, Packet.setPacketTypes, harp, hip]
      omega
    · simp [Packet.construct, Packet.setPacketTypes, harp, hip]
      omega

/-! ## What a print needs -/

/-- The ports of the datagrams that are not printed as those of a name service, even if the other
port is that of one. -/
def otherPorts : List Nat := [1900, 546, 547, 67, 68, 3702, 137, 138, 139, 445, 8266]

def IsNameService : Prop := (f.Port 5353 ∨ f.Port 53) ∧ ∀ p ∈ otherPorts, ¬ f.Port p

instance : Decidable f.IsNameService := inferInstanceAs (Decidable (_ ∧ _))

theorem udpType_nameService :
    (f.udpType = .MDNS ∨ f.udpType = .DNS) ↔ f.IsNameService := by
  simp only [udpType, IsNameService, otherPorts, List.forall_mem_cons, List.not_mem_nil,
    false_implies, implies_true, and_true]
  split_ifs <;> grind

/-- **What a frame must have** to be printed at a detail: its headers as far as the fields of its
protocol go, and where a detail of the payload is printed, as many bytes as the headers promise.
The length field of TCP and of IP must cover the headers. -/
def Enough (pd : PacketDetail) : Prop :=
  let size := f.packetLength
  if f.word 12 = 0x0806 then
    if pd = .RAW then 14 ≤ size
    else (if f.byte 21 = 1 then 42 else if f.byte 21 = 2 then 32 else 22) ≤ size
  else if ¬ f.IsIP then 14 ≤ size
  else if f.protocol = 17 then
    if pd = .RAW then f.protocolAt < size ∧ 18 + f.ihl ≤ size
    else f.addresses ≤ size ∧ (if f.IsNameService then 34 else 20) + f.ihl ≤ size ∧
      (pd ≠ .NONE → 22 + f.ihl + f.udpLength ≤ size)
  else if f.protocol = 6 then
    if pd = .RAW then
      f.protocolAt < size ∧ (if f.word (14 + f.ihl) = 80 then 16 else 18) + f.ihl ≤ size
    else f.addresses ≤ size ∧ 30 + f.ihl ≤ size ∧ f.ihl + f.tcpHeader ≤ f.total ∧
      (pd ≠ .NONE → 14 + f.total ≤ size)
  else if pd = .RAW then f.protocolAt < size
  else if f.protocol = 1 ∨ f.protocol = 58 then f.addresses ≤ size ∧ 15 + f.ihl ≤ size
  else if f.protocol = 2 then f.protocolAt < size ∧ 15 + f.ihl ≤ size
  else f.addresses ≤ size ∧ f.ihl ≤ f.total ∧ (pd ≠ .NONE → 14 + f.total ≤ size)

theorem safe_ARPtoString (harp : f.word 12 = 0x0806) (pd : PacketDetail) :
    f.Safe (f.ARPtoString pd) ↔
      (if f.byte 21 = 1 then 42 else if f.byte 21 = 2 then 32 else 22) ≤ f.packetLength := by
  have hvalue : f.getARPType.value = f.byte 21 := by simp [getARPType, harp, ETH_HDR_LEN]
  have hsafe : f.Safe f.getARPType ↔ 22 ≤ f.packetLength := by
    simp [getARPType, harp, ETH_HDR_LEN]
    omega
  have hdetail : pd ≠ .NONE → 0 < (((f.packetLength : Int) - 14) % 2 ^ 32).toNat →
      14 ≤ f.packetLength → 14 + (((f.packetLength : Int) - 14) % 2 ^ 32).toNat ≤
          f.packetLength := by
    omega
  by_cases hpd : pd = .NONE
  · simp [ARPtoString, hvalue, hsafe, Event.Fine, hpd, ETH_HDR_LEN]
    split_ifs <;> omega
  · simp [ARPtoString, hvalue, hsafe, Event.Fine, hpd, ETH_HDR_LEN]
    split_ifs <;> omega

theorem safe_UKNWtoString : f.Safe f.UKNWtoString ↔ 14 ≤ f.packetLength := by
  simp [UKNWtoString, ethType]
  omega

theorem safe_toString_raw (p : Packet) : p.Safe (p.toString .RAW) := by
  simp only [Packet.toString, if_true, Watched.all_bind, safe_printf_iff, Watched.all_forM,
    implies_true, safe_printDetail, true_and]
  omega

variable {pd : PacketDetail}

theorem safe_toString_udp {p : Packet} (hraw : pd ≠ .RAW)
    (htype : p.thisPacketType = p.udpType) : p.Safe (p.toString pd) ↔
      if p.IsNameService then p.Safe (p.DNStoString pd) else p.Safe (p.UDPtoString pd) := by
  have hname := p.udpType_nameService
  unfold udpType at hname htype
  split_ifs at hname htype <;> simp at hname <;> simp [Packet.toString, hraw, htype, hname]

theorem safe_toString_tcp {p : Packet} (hraw : pd ≠ .RAW)
    (htype : p.thisPacketType = if p.Port 80 then .HTTP else .TCP) :
    p.Safe (p.toString pd) ↔ p.Safe (p.TCPtoString pd) := by
  split_ifs at htype <;> simp [Packet.toString, hraw, htype]

theorem safe_toString_ip {p : Packet} (hraw : pd ≠ .RAW)
    (htype : p.thisPacketType = if p.word 12 = 0x0800 then .IPv4 else .IPv6) :
    p.Safe (p.toString pd) ↔ p.Safe (p.IPtoString pd) := by
  split_ifs at htype <;> simp [Packet.toString, hraw, htype]

theorem enough_raw : f.Enough .RAW ↔ 14 ≤ f.packetLength ∧
    (f.IsIP → f.protocolAt < f.packetLength ∧
      (f.protocol = 17 → 18 + f.ihl ≤ f.packetLength) ∧
      (f.protocol = 6 →
        (if f.word (14 + f.ihl) = 80 then 16 else 18) + f.ihl ≤ f.packetLength)) := by
  have hat := f.protocolAt_ge
  by_cases harp : f.word 12 = 0x0806
  · have hip : ¬ f.IsIP := fun hip => by rcases hip with h | h <;> omega
    simp only [Enough, if_pos harp, if_true, hip, false_implies, and_true]
  · by_cases hip : f.IsIP
    · simp only [Enough, if_neg harp, hip, not_true_eq_false, if_false, if_true, forall_const]
      split_ifs <;> omega
    · simp only [Enough, if_neg harp, hip, not_false_eq_true, if_true, false_implies, and_true]

theorem enough_ip {p : Packet} (hraw : pd ≠ .RAW) (hip : p.IsIP)
    (htype : p.thisPacketType = p.packetType) :
    p.Enough .RAW ∧ p.Safe (p.toString pd) ↔ p.Enough pd := by
  have hat := p.protocolAt_ge
  have haddresses := p.addresses_gt
  have harp : ¬ p.word 12 = 0x0806 := by rcases hip with h | h <;> omega
  simp only [packetType, if_neg harp, hip, not_true_eq_false, if_false] at htype
  rw [enough_raw]
  simp only [Enough, if_neg harp, if_neg hraw, hip, not_true_eq_false, if_false, forall_const]
  by_cases h17 : p.protocol = 17
  · rw [if_pos h17] at htype
    simp only [safe_toString_udp hraw htype, safe_DNStoString hip h17, safe_UDPtoString hip h17,
      h17, if_true, forall_const]
    by_cases hpd : pd = .NONE
    · grind
    · grind
  rw [if_neg h17] at htype ⊢
  by_cases h6 : p.protocol = 6
  · rw [if_pos h6] at htype
    simp only [safe_toString_tcp hraw htype, safe_TCPtoString hip h6, h6, if_true, forall_const]
    by_cases hpd : pd = .NONE
    · grind
    · grind
  rw [if_neg h6] at htype ⊢
  simp only [h17, h6, false_implies, and_true]
  by_cases hicmp : p.protocol = 1 ∨ p.protocol = 58
  · rw [if_pos hicmp] at htype ⊢
    have hprint : p.Safe (p.toString pd) ↔ p.Safe p.ICMPtoString := by
      simp [Packet.toString, hraw, htype]
    rw [hprint, safe_ICMPtoString hip hicmp]
    omega
  rw [if_neg hicmp] at htype ⊢
  by_cases h2 : p.protocol = 2
  · rw [if_pos h2] at htype ⊢
    have hprint : p.Safe (p.toString pd) ↔ p.Safe p.IGMPtoString := by
      simp [Packet.toString, hraw, htype]
    rw [hprint, safe_IGMPtoString hip h2]
    omega
  rw [if_neg h2] at htype ⊢
  rw [safe_toString_ip hraw htype, safe_IPtoString hip]
  by_cases hpd : pd = .NONE
  · grind
  · grind

/-- **A print reads only bytes of its frame, and wraps no length**, just when the frame has what the
print needs. -/
theorem safe_netdumpCapture_iff (netif_idx : Int) (out : Bool) (pd : PacketDetail) :
    f.Safe (netdumpCapture f netif_idx out pd) ↔ f.Enough pd := by
  obtain ⟨hframe, htype⟩ := f.construct_packet netif_idx out
  have hconstruct := (f.safe_construct netif_idx out).trans f.enough_raw.symm
  unfold netdumpCapture
  rw [Safe, Watched.all_bind]
  simp only [hconstruct]
  generalize (Packet.construct f netif_idx out).value = p at hframe htype
  subst hframe
  by_cases hraw : pd = .RAW
  · simp only [hraw, safe_toString_raw p, and_true]
  by_cases hip : p.IsIP
  · exact enough_ip hraw hip htype
  by_cases harp : p.word 12 = 0x0806
  · have hprint : p.Safe (p.toString pd) ↔ p.Safe (p.ARPtoString pd) := by
      simp [Packet.toString, hraw, htype, packetType, harp]
    simp only [hprint, safe_ARPtoString p.toFrame harp pd, Enough, if_pos harp, if_neg hraw]
    split_ifs <;> omega
  · have hprint : p.Safe (p.toString pd) ↔ p.Safe p.UKNWtoString := by
      simp [Packet.toString, hraw, htype, packetType, harp, hip]
    simp only [hprint, safe_UKNWtoString, hip, Enough, if_neg harp, not_false_eq_true, if_true,
      and_self]

def datagram : Frame where
  data i := [1, 2, 3, 4, 5, 6, 7, 8, 9, 10, 11, 12, 8, 0,
    69, 0, 0, 30, 0, 0, 0, 0, 64, 17, 0, 0, 192, 168, 4, 1, 192, 168, 4, 2,
    48, 57, 48, 58, 0, 10, 0, 0, 104, 105].getD i 0
  packetLength := 44

/-- **A datagram that is printed in full** is read eight bytes beyond its end: the length that its
header has covers the header, which is printed before. -/
theorem not_safe_netdumpCapture : ¬ ∀ (f : Frame) (netif_idx : Int) (out : Bool)
    (pd : PacketDetail), f.Safe (netdumpCapture f netif_idx out pd) :=
  fun hclaim => absurd (hclaim datagram 0 false .FULL) (by decide +kernel)

end Frame

end NetCapture
