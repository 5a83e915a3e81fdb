import Mathlib.Data.Nat.Digits.Defs
import RalioFirmware.Basis.CString
import RalioFirmware.Http.Hex

/-!
# `IPAddress`

An address of either version takes the same memory: eight groups of sixteen bits, of which an IPv4
address has the first two.  It is read from a text group by group, each stored as soon as it is
over, and printed with one run of zeros left out.
-/

namespace Net

open CString Http

/-- `lwip_ip_addr_type`. -/
inductive AddrType
  | v4
  | v6
  | any
deriving DecidableEq

/-- `ip_addr_t`: the groups are as they are written, high byte first. -/
structure IPAddress where
  type : AddrType
  raw : List UInt16
  zone : Nat
  size : raw.length = 8
deriving DecidableEq

namespace IPAddress

/-! ## The memory -/

/-- `raw6()[i]`. -/
def group (a : IPAddress) (i : Nat) : UInt16 := a.raw.getD i 0

/-- `raw6()[i] = PP_HTONS(acc)`. -/
def setGroup (a : IPAddress) (i acc : Nat) : IPAddress where
  type := .v6
  raw := a.raw.set i (UInt16.ofNat acc)
  zone := a.zone
  size := List.length_set.trans a.size

def octet (a : IPAddress) (i : Nat) : Nat :=
  if i % 2 = 0 then (a.group (i / 2)).toNat / 256 else (a.group (i / 2)).toNat % 256

/-- `(*this)[i] = acc`. -/
def setOctet (a : IPAddress) (i acc : Nat) : IPAddress where
  type := .v4
  raw := a.raw.set (i / 2) (UInt16.ofNat
    (if i % 2 = 0 then acc % 256 * 256 + a.octet (i / 2 * 2 + 1)
      else a.octet (i / 2 * 2) * 256 + acc % 256))
  zone := a.zone
  size := List.length_set.trans a.size

def setV4 (a : IPAddress) : IPAddress := { a with type := .v4 }

def setV6 (a : IPAddress) : IPAddress := { a with type := .v6 }

/-- `ip_addr_isany`. -/
def isAny (a : IPAddress) : Bool :=
  if a.type = .v6 then a.raw.all (· = 0) else a.group 0 = 0 ∧ a.group 1 = 0

def isSet (a : IPAddress) : Bool :=
  !a.isAny && !decide (a.type = .v4 ∧ a.group 0 = 0xffff ∧ a.group 1 = 0xffff)

/-- `operator==`. -/
def equals (a b : IPAddress) : Bool :=
  decide (a.type = b.type) &&
    if a.type = .v6 then decide (a.raw = b.raw ∧ a.zone = b.zone)
    else decide (a.group 0 = b.group 0 ∧ a.group 1 = b.group 1)

/-- `IPAddress()`. -/
def unset : IPAddress := ⟨.any, List.replicate 8 0, 0, rfl⟩

/-! ## Reading -/

/-- The loop of `fromString4`. -/
def fromString4 : List UInt8 → Nat → Nat → IPAddress → Bool × IPAddress
  | [], acc, dots, a =>
    if dots ≠ 3 then (false, a) else (true, (a.setOctet 3 acc).setV4)
  | c :: address, acc, dots, a =>
    if isdigit c then
      let acc := (acc * 10 + (c.toNat - 48)) % 65536
      if acc > 255 then (false, a) else fromString4 address acc dots a
    else if c = 46 then
      if dots = 3 then (false, a) else fromString4 address 0 (dots + 1) (a.setOctet dots acc)
    else (false, a)

def isalnum (c : UInt8) : Bool := isdigit c || (65 ≤ c && c ≤ 90) || (97 ≤ c && c ≤ 122)

def alnumValue (c : UInt8) : Nat :=
  let c := if c ≥ 97 then c.toNat - 39 else c.toNat
  c - 48

/-- The loop that moves the groups behind the `::` to the end; `n` of them are left. -/
def moveUp (dots doubledots : Nat) : Nat → List UInt16 → List UInt16
  | 0, raw => raw
  | i + 1, raw =>
    moveUp dots doubledots i (raw.set (8 - dots + doubledots + i) (raw.getD (doubledots + i) 0))

/-- The loop that clears `n` groups from `i` on. -/
def clearFrom : Nat → Nat → List UInt16 → List UInt16
  | 0, _, raw => raw
  | n + 1, i, raw => clearFrom n (i + 1) (raw.set i 0)

theorem moveUp_length (dots doubledots n : Nat) (raw : List UInt16) :
    (moveUp dots doubledots n raw).length = raw.length := by
  induction n generalizing raw with
  | zero => rfl
  | succ n ih => rw [moveUp, ih, List.length_set]

theorem clearFrom_length (n i : Nat) (raw : List UInt16) :
    (clearFrom n i raw).length = raw.length := by
  induction n generalizing i raw with
  | zero => rfl
  | succ n ih => rw [clearFrom, ih, List.length_set]

/-- The groups spread out, with zeros for the `::`. -/
def expand (a : IPAddress) (dots doubledots : Nat) : IPAddress where
  type := .v6
  raw := clearFrom (8 - dots) doubledots (moveUp dots doubledots (dots - doubledots) a.raw)
  zone := a.zone
  size := by rw [clearFrom_length, moveUp_length, a.size]

/-- What `fromString6` does behind the last character. -/
def finish6 (acc dots : Nat) (doubledots : Option Nat) (a : IPAddress) : Bool × IPAddress :=
  if doubledots = none ∧ dots ≠ 7 then (false, a)
  else
    let a := a.setGroup dots acc
    match doubledots with
    | none => (true, a.setV6)
    | some i => (true, (a.expand (dots + 1) i).setV6)

/-- The loop of `fromString6`; `passed` is the step over the second colon of a `::`. -/
def fromString6 (passed : Bool) : List UInt8 → Nat → Nat → Option Nat → IPAddress →
    Bool × IPAddress
  | [], acc, dots, doubledots, a => finish6 acc dots doubledots a
  | c :: address, acc, dots, doubledots, a =>
    let c := tolower c
    if passed then fromString6 false address acc dots doubledots a
    else if isalnum c then
      let acc := acc * 16 + alnumValue c
      if acc > 65535 then (false, a) else fromString6 false address acc dots doubledots a
    else if c = 58 then
      let double := address.head? = some 58
      if double ∧ doubledots.isSome then (false, a)
      else
        let doubledots := if double then some (dots + if acc = 0 then 0 else 1) else doubledots
        if dots = 7 then (false, a)
        else fromString6 double address 0 (dots + 1) doubledots (a.setGroup dots acc)
    else (false, a)

def fromString (a : IPAddress) (address : List UInt8) : Bool × IPAddress :=
  match fromString4 (cstr address) 0 0 a with
  | (true, a) => (true, a)
  | (false, a) => fromString6 false (cstr address) 0 0 none a

/-! ## Printing -/

/-- `print(n, DEC)`. -/
def printDec (n : Nat) : List UInt8 :=
  if n = 0 then [48] else (Nat.digits 10 n).reverse.map fun d => UInt8.ofNat (48 + d)

/-- The loop of `printTo` for IPv6: from group `i` on, with `count0` zeros left out before, or
negative where no more are to be. -/
def printGroups : List UInt16 → Nat → Int → List UInt8
  | [], _, _ => []
  | bit :: rest, i, count0 =>
    let shown := bit ≠ 0 ∨ count0 < 0
    let text := if shown then printHex bit.toNat else []
    let count0 := if shown then (if count0 > 0 then -8 else count0) else count0 + 1
    let separator := if i ≠ 7 ∧ count0 < 2 ∨ count0 = 7 then [58] else []
    text ++ separator ++ printGroups rest (i + 1) count0

/-- The text for an address that is not set: `(IP unset)`. -/
def unsetText : List UInt8 := [40, 73, 80, 32, 117, 110, 115, 101, 116, 41]

/-- `printTo`, and `toString`. -/
def toString (a : IPAddress) : List UInt8 :=
  if !a.isSet then unsetText
  else if a.type = .v6 then printGroups a.raw 0 0
  else
    let byte (i : Nat) := printDec (if a.type = .v4 then a.octet i else 0)
    byte 0 ++ [46] ++ byte 1 ++ [46] ++ byte 2 ++ [46] ++ byte 3

end IPAddress

end Net
