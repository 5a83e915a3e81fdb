/-!
# Pages of a target that is programmed

A client sends the commands of a programmer, and the target is written and read over SPI.  A page
comes into a buffer first; what is read for the client stands in one of the heap.

Noted are the bytes of both buffers that are touched and the transactions of the target.  The bytes
behind the buffers are those of the memory there: what a write to them hits is not looked at.
-/

namespace AVRISP

def Sync_CRC_EOP : UInt8 := 0x20
def Resp_STK_OK : UInt8 := 0x10
def Resp_STK_FAILED : UInt8 := 0x11
def Resp_STK_INSYNC : UInt8 := 0x14
def Resp_STK_NOSYNC : UInt8 := 0x15

def EECHUNK : Nat := 32

def LOW : Nat := 0
def HIGH : Nat := 1

structure Spi where
  a : UInt8
  b : UInt8
  c : UInt8
  d : UInt8
deriving DecidableEq, Repr

/-- A byte that is touched: of the command buffer, or of a buffer with `size` bytes. -/
inductive Access where
  | buff (x : Nat)
  | data (size x : Nat)
deriving DecidableEq, Repr

structure ESP8266AVRISP where
  pagesize : Nat
  eepromsize : Nat
  buff : Nat → UInt8
  error : Nat
  here : Nat
  /-- What the client is going to send. -/
  input : Nat → UInt8
  /-- What the target answers, by the transactions up to then. -/
  target : List Spi → UInt8
  /-- The memory that `malloc` gives, if there is as much. -/
  malloc : Nat → Option (Nat → UInt8)
  spi : List Spi
  accesses : List Access
  sent : List UInt8

namespace ESP8266AVRISP

def getch (s : ESP8266AVRISP) : UInt8 × ESP8266AVRISP :=
  (s.input 0, { s with input := fun k => s.input (k + 1) })

def print (b : UInt8) (s : ESP8266AVRISP) : ESP8266AVRISP := { s with sent := s.sent ++ [b] }

def touch (a : Access) (s : ESP8266AVRISP) : ESP8266AVRISP :=
  { s with accesses := s.accesses ++ [a] }

/-- `buff[x] = b` -/
def setBuff (x : Nat) (b : UInt8) (s : ESP8266AVRISP) : ESP8266AVRISP :=
  { s.touch (.buff x) with buff := fun i => if i = x then b else s.buff i }

/-- `fill`, from the byte `x` on. -/
def fillFrom : Nat → Nat → ESP8266AVRISP → ESP8266AVRISP
  | 0, _, s => s
  | n + 1, x, s =>
    let (b, s) := s.getch
    fillFrom n (x + 1) (s.setBuff x b)

def fill (n : Nat) (s : ESP8266AVRISP) : ESP8266AVRISP := s.fillFrom n 0

def spi_transaction (a b c d : UInt8) (s : ESP8266AVRISP) : UInt8 × ESP8266AVRISP :=
  let spi := s.spi ++ [⟨a, b, c, d⟩]
  (s.target spi, { s with spi })

/-! ## Programming -/

def flash (hilo addr : Nat) (data : UInt8) (s : ESP8266AVRISP) : ESP8266AVRISP :=
  (s.spi_transaction (UInt8.ofNat (0x40 + 8 * hilo)) (UInt8.ofNat (addr >>> 8)) (UInt8.ofNat addr)
    data).2

def commit (addr : Nat) (s : ESP8266AVRISP) : ESP8266AVRISP :=
  (s.spi_transaction 0x4C (UInt8.ofNat (addr >>> 8)) (UInt8.ofNat addr) 0).2

/-- The masks clear the lowest four, five, six or seven bits. -/
def addr_page (pagesize addr : Nat) : Nat :=
  if pagesize = 32 then addr - addr % 16
  else if pagesize = 64 then addr - addr % 32
  else if pagesize = 128 then addr - addr % 64
  else if pagesize = 256 then addr - addr % 128
  else addr

/-- The rounds of the loop of `write_flash_pages`, from the byte `x` on: the last page, and the
programmer. -/
def flashWords (length : Nat) : Nat → Nat → Nat → ESP8266AVRISP → Nat × ESP8266AVRISP
  | 0, _, page, s => (page, s)
  | rounds + 1, x, page, s =>
    if x < length then
      let (page, s) :=
        if page ≠ addr_page s.pagesize s.here then
          (addr_page s.pagesize s.here, s.commit page)
        else (page, s)
      let s := (s.touch (.buff x)).flash LOW s.here (s.buff x)
      let s := (s.touch (.buff (x + 1))).flash HIGH s.here (s.buff (x + 1))
      flashWords length rounds (x + 2) page { s with here := s.here + 1 }
    else (page, s)

def write_flash_pages (length : Nat) (s : ESP8266AVRISP) : UInt8 × ESP8266AVRISP :=
  let (page, s) := s.flashWords length length 0 (addr_page s.pagesize s.here)
  (Resp_STK_OK, s.commit page)

def write_flash (length : Nat) (s : ESP8266AVRISP) : ESP8266AVRISP :=
  let (ch, s) := (s.fill length).getch
  if ch = Sync_CRC_EOP then
    let (result, s) := (s.print Resp_STK_INSYNC).write_flash_pages length
    s.print result
  else { s with error := s.error + 1 }.print Resp_STK_NOSYNC

/-- The bytes of a chunk, from `x` on. -/
def eepromBytes (start : Nat) : Nat → Nat → ESP8266AVRISP → ESP8266AVRISP
  | 0, _, s => s
  | n + 1, x, s =>
    let addr := start + x
    let s := ((s.touch (.buff x)).spi_transaction 0xC0 (UInt8.ofNat (addr >>> 8))
      (UInt8.ofNat addr) (s.buff x)).2
    eepromBytes start n (x + 1) s

def write_eeprom_chunk (start length : Nat) (s : ESP8266AVRISP) : ESP8266AVRISP :=
  (s.fill length).eepromBytes start length 0

/-- The chunks of `write_eeprom`, the last one in any case. -/
def eepromChunks : Nat → Nat → Nat → ESP8266AVRISP → ESP8266AVRISP
  | 0, start, remaining, s => s.write_eeprom_chunk start remaining
  | rounds + 1, start, remaining, s =>
    if remaining > EECHUNK then
      eepromChunks rounds (start + EECHUNK) (remaining - EECHUNK)
        (s.write_eeprom_chunk start EECHUNK)
    else s.write_eeprom_chunk start remaining

def write_eeprom (length : Nat) (s : ESP8266AVRISP) : UInt8 × ESP8266AVRISP :=
  if length > s.eepromsize then (Resp_STK_FAILED, { s with error := s.error + 1 })
  else (Resp_STK_OK, s.eepromChunks length (s.here * 2) length)

def program_page (s : ESP8266AVRISP) : ESP8266AVRISP :=
  let (high, s) := s.getch
  let (low, s) := s.getch
  let length := 256 * high.toNat + low.toNat
  let (memtype, s) := s.getch
  if memtype = 0x46 then s.write_flash length
  else if memtype = 0x45 then
    let (result, s) := s.write_eeprom length
    let (ch, s) := s.getch
    if ch = Sync_CRC_EOP then (s.print Resp_STK_INSYNC).print result
    else { s with error := s.error + 1 }.print Resp_STK_NOSYNC
  else s.print Resp_STK_FAILED

/-! ## Reading -/

def flash_read (hilo addr : Nat) (s : ESP8266AVRISP) : UInt8 × ESP8266AVRISP :=
  s.spi_transaction (UInt8.ofNat (0x20 + hilo * 8)) (UInt8.ofNat (addr >>> 8)) (UInt8.ofNat addr) 0

/-- `data[x] = b`, of a buffer with `size` bytes. -/
def setData (size x : Nat) (b : UInt8) (data : Nat → UInt8) (s : ESP8266AVRISP) :
    (Nat → UInt8) × ESP8266AVRISP :=
  (fun i => if i = x then b else data i, s.touch (.data size x))

/-- `_client.write` of a buffer. -/
def writeData (size : Nat) (data : Nat → UInt8) (s : ESP8266AVRISP) : ESP8266AVRISP :=
  { s with
    accesses := s.accesses ++ (List.range size).map (.data size)
    sent := s.sent ++ (List.range size).map data }

/-- The rounds of the loop of `flash_read_page`, from the byte `x` on. -/
def readWords (length : Nat) : Nat → Nat → (Nat → UInt8) → ESP8266AVRISP →
    (Nat → UInt8) × ESP8266AVRISP
  | 0, _, data, s => (data, s)
  | rounds + 1, x, data, s =>
    if x < length then
      let (b, s) := s.flash_read LOW s.here
      let (data, s) := s.setData (length + 1) x b data
      let (b, s) := s.flash_read HIGH s.here
      let (data, s) := s.setData (length + 1) (x + 1) b data
      readWords length rounds (x + 2) data { s with here := s.here + 1 }
    else (data, s)

def flash_read_page (length : Nat) (s : ESP8266AVRISP) : Bool × ESP8266AVRISP :=
  match s.malloc (length + 1) with
  | none => (false, s)
  | some data =>
    let (data, s) := s.readWords length length 0 data
    let (data, s) := s.setData (length + 1) length Resp_STK_OK data
    (true, s.writeData (length + 1) data)

/-- The rounds of the loop of `eeprom_read_page`, from the byte `x` on. -/
def readBytes (length start : Nat) : Nat → Nat → (Nat → UInt8) → ESP8266AVRISP →
    (Nat → UInt8) × ESP8266AVRISP
  | 0, _, data, s => (data, s)
  | n + 1, x, data, s =>
    let addr := start + x
    let (ee, s) := s.spi_transaction 0xA0 (UInt8.ofNat (addr >>> 8)) (UInt8.ofNat addr) 0xFF
    let (data, s) := s.setData (length + 1) x ee data
    readBytes length start n (x + 1) data s

def eeprom_read_page (length : Nat) (s : ESP8266AVRISP) : Bool × ESP8266AVRISP :=
  match s.malloc (length + 1) with
  | none => (false, s)
  | some data =>
    let (data, s) := s.readBytes length (s.here * 2) length 0 data
    let (data, s) := s.setData (length + 1) length Resp_STK_OK data
    (true, s.writeData (length + 1) data)

def read_page (s : ESP8266AVRISP) : ESP8266AVRISP :=
  let (high, s) := s.getch
  let (low, s) := s.getch
  let length := 256 * high.toNat + low.toNat
  let (memtype, s) := s.getch
  let (ch, s) := s.getch
  if ch ≠ Sync_CRC_EOP then { s with error := s.error + 1 }.print Resp_STK_NOSYNC
  else
    let s := s.print Resp_STK_INSYNC
    if memtype = 0x46 then (s.flash_read_page length).2
    else if memtype = 0x45 then (s.eeprom_read_page length).2
    else s

end ESP8266AVRISP

end AVRISP
