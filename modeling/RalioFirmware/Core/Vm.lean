import RalioFirmware.Basis.Word
import RalioFirmware.Basis.Links

/-!
# Memory behind the SPI bus

`core_esp8266_vm.cpp` serves loads and stores to an address range that has no memory
of its own from a RAM chip on the SPI bus.  Four lines of sixteen words stand in
between; they are linked from the one used last to the one not used for longest, and
that one makes room when another line is needed.
-/

namespace Vm

open Word Bytes

def cacheWays : Nat := 4

/-- The bytes of a line: `cache_words` of them are four times as many. -/
def lineBytes : Nat := 64

/-- `cache_line`; `b` are the bytes of the union. -/
structure Line where
  addr : Int
  dirty : Bool
  next : Option (Fin cacheWays)
  b : List UInt8

def overwrite (mem : Nat → UInt8) (addr : Nat) (data : List UInt8) : Nat → UInt8 := fun x =>
  if addr ≤ x ∧ x < addr + data.length then data.getD (x - addr) 0 else mem x

/-- The bus with the chip: a write goes on while the program does something else. -/
structure Spi where
  ram : Nat → UInt8
  busy : Option (Nat × List UInt8)

namespace Spi

/-- The loop on `SPIBUSY`. -/
def wait (spi : Spi) : Spi :=
  match spi.busy with
  | some (addr, data) => ⟨overwrite spi.ram addr data, none⟩
  | none => spi

/-- `spi_readtransaction` of a line. -/
def readtransaction (spi : Spi) (addr : Nat) : List UInt8 × Spi :=
  ((List.range lineBytes).map fun i => spi.wait.ram (addr + i), spi.wait)

/-- `spi_writetransaction` of a line. -/
def writetransaction (spi : Spi) (addr : Nat) (data : List UInt8) : Spi :=
  ⟨spi.wait.ram, some (addr, data)⟩

end Spi

/-- `__vm_cache_line`, `__vm_cache` and the bus. -/
structure Cache where
  lines : Fin cacheWays → Line
  head : Fin cacheWays
  spi : Spi

inductive Width
  | byte
  | half
  | word
deriving DecidableEq

def Width.bytes : Width → Nat
  | byte => 1
  | half => 2
  | word => 4

/-- Where a load or store goes: a place in the range, aligned to its own width. -/
structure Place where
  width : Width
  addr : Nat
  aligned : addr % width.bytes = 0
  inside : addr < 0x800000

/-- How the search for a line ends: before `way`, behind `last`, or on a null pointer. -/
inductive Search
  | hit (last way : Fin cacheWays)
  | miss (last : Fin cacheWays)
  | fault

namespace Cache

/-- The state that `install_vm_exception_handler` leaves. -/
def install (ram : Nat → UInt8) : Cache where
  lines i := ⟨-1, false, if h : i.val + 1 < cacheWays then some ⟨i.val + 1, h⟩ else none,
    List.replicate lineBytes 0⟩
  head := ⟨0, by decide⟩
  spi := ⟨ram, none⟩

def next (c : Cache) (i : Fin cacheWays) : Option (Fin cacheWays) := (c.lines i).next

/-- The loop of `cache_flushrefill`. -/
def search (c : Cache) (addr : Int) :
    Nat → Fin cacheWays → Option (Fin cacheWays) → Search
  | 0, last, _ => .miss last
  | _ + 1, _, none => .fault
  | n + 1, last, some way =>
    if (c.lines way).addr = addr then .hit last way
    else c.search addr n way (c.next way)

def link (c : Cache) (i : Fin cacheWays) (target : Option (Fin cacheWays)) : Cache :=
  { c with lines := Function.update c.lines i { c.lines i with next := target } }

/-- What `cache_flushrefill` does when the line is not there: the read goes first, and the
old bytes are written back behind it. -/
def replaceLast (c : Cache) (last : Fin cacheWays) (addr : Nat) : Cache :=
  let wb := (c.lines last).b
  let c := { c.link last (some c.head) with head := last }
  let (w, spi) := c.spi.readtransaction addr
  let line := c.lines last
  let spi := if line.dirty then spi.writetransaction line.addr.toNat wb else spi
  { c with
    lines := Function.update c.lines last { line with b := w, dirty := false, addr := addr }
    spi := spi }

/-- `cache_flushrefill`; none if it follows a null pointer. -/
def flushrefill (c : Cache) (addr : Nat) : Option Cache :=
  let addr := addr / lineBytes * lineBytes
  if (c.lines c.head).addr = addr then some c
  else
    match c.search addr (cacheWays - 1) c.head (c.next c.head) with
    | .hit last way =>
      let c := c.link last (c.next way)
      some { c.link way (some c.head) with head := way }
    | .miss last => some (c.replaceLast last addr)
    | .fault => none

/-- `spi_ramwrite`. -/
def ramwrite (c : Cache) (p : Place) (val : Nat) : Option Cache :=
  (c.flushrefill p.addr).map fun c =>
    let line := c.lines c.head
    let addr := ((p.addr : Int) - line.addr).toNat
    let n := p.width.bytes
    { c with
      lines := Function.update c.lines c.head
        { line with dirty := true, b := memcpy line.b (addr / n * n) ((le32 val).take n) } }

/-- `spi_ramread`. -/
def ramread (c : Cache) (p : Place) : Option (Nat × Cache) :=
  (c.flushrefill p.addr).map fun c =>
    let line := c.lines c.head
    let addr := ((p.addr : Int) - line.addr).toNat
    let n := p.width.bytes
    (ofLe ((line.b.drop (addr / n * n)).take n), c)

end Cache

/-! ## Programs -/

inductive Access
  | load (p : Place)
  | store (p : Place) (val : Nat)

/-- The loads of a program and what they return, through the cache; none if it follows a
null pointer. -/
def run : List Access → Cache → Option (List Nat × Cache)
  | [], c => some ([], c)
  | .load p :: rest, c =>
    match c.ramread p with
    | some (val, c) => (run rest c).map fun (vals, c) => (val :: vals, c)
    | none => none
  | .store p val :: rest, c => (c.ramwrite p val).bind (run rest)

def flatRun : List Access → (Nat → UInt8) → List Nat × (Nat → UInt8)
  | [], mem => ([], mem)
  | .load p :: rest, mem =>
    let (vals, after) := flatRun rest mem
    (ofLe ((List.range p.width.bytes).map fun i => mem (p.addr + i)) :: vals, after)
  | .store p val :: rest, mem =>
    flatRun rest (overwrite mem p.addr ((le32 val).take p.width.bytes))

end Vm
