import Mathlib.Data.List.Basic
import RalioFirmware.Basis.Word

/-!
# The I²C master's reads

`Twi::readFrom` bit-bangs a read over two pins and stores what it reads in the
buffer of its caller, `TwoWire::requestFrom`.  The pins, the slaves behind
them and the passing of time are `Wires`, and may do as they please.

The loop runs up to an unsigned `len - 1`, so a read of no bytes that a slave
answers is one of 2^32 bytes.
-/

open Word

namespace Twi

/-- What the driver drives and listens to.  The wait for a slave that
stretches the clock is limited in time. -/
structure Wires where
  State : Type
  SCL_HIGH : State → State
  SCL_LOW : State → State
  SDA_HIGH : State → State
  SDA_LOW : State → State
  SDA_READ : State → Bool × State
  busywait : Nat → State → State
  WAIT_CLOCK_STRETCH : State → State

/-- The driver: its half period, the wires, the bytes it has read off them and
the stores it has made, by index into the caller's buffer. -/
structure Driver (W : Wires) where
  twi_dcount : Nat
  wires : W.State
  bytesRead : Nat
  stores : List (Nat × UInt8)

variable {W : Wires}

namespace Driver

def on (f : W.State → W.State) (d : Driver W) : Driver W := { d with wires := f d.wires }

def sdaRead (d : Driver W) : Bool × Driver W :=
  ((W.SDA_READ d.wires).1, { d with wires := (W.SDA_READ d.wires).2 })

def writeStart (d : Driver W) : Bool × Driver W :=
  let d := (d.on W.SCL_HIGH).on W.SDA_HIGH
  match d.sdaRead with
  | (false, d) => (false, d)
  | (true, d) =>
    let d := (d.on (W.busywait d.twi_dcount)).on W.SDA_LOW
    let d := (d.on (W.busywait d.twi_dcount)).on W.SCL_LOW
    (true, d.on (W.busywait d.twi_dcount))

def writeStop (d : Driver W) : Driver W :=
  let d := (d.on W.SCL_LOW).on W.SDA_LOW
  let d := (d.on (W.busywait d.twi_dcount)).on W.SCL_HIGH
  let d := (d.on W.WAIT_CLOCK_STRETCH).on (W.busywait d.twi_dcount)
  (d.on W.SDA_HIGH).on (W.busywait d.twi_dcount)

def writeBit (bit : Bool) (d : Driver W) : Driver W :=
  let d := d.on W.SCL_LOW
  let d := if bit then d.on W.SDA_HIGH else d.on W.SDA_LOW
  let d := (d.on (W.busywait (d.twi_dcount + 1))).on W.SCL_HIGH
  (d.on W.WAIT_CLOCK_STRETCH).on (W.busywait d.twi_dcount)

def readBit (d : Driver W) : Bool × Driver W :=
  let d := (d.on W.SCL_LOW).on W.SDA_HIGH
  let d := (d.on (W.busywait (d.twi_dcount + 2))).on W.SCL_HIGH
  let (bit, d) := (d.on W.WAIT_CLOCK_STRETCH).sdaRead
  (bit, d.on (W.busywait d.twi_dcount))

/-- The bits of `write_byte`, the highest first. -/
def writeBits : Nat → UInt8 → Driver W → Driver W
  | 0, _, d => d
  | bits+1, byte, d => writeBits bits (byte <<< 1) (d.writeBit (byte &&& 0x80 ≠ 0))

/-- `write_byte`: whether the slave has acknowledged it. -/
def writeByte (byte : UInt8) (d : Driver W) : Bool × Driver W :=
  let (nack, d) := (d.writeBits 8 byte).readBit
  (!nack, d)

/-- The bits of `read_byte`. -/
def readBits : Nat → UInt8 → Driver W → UInt8 × Driver W
  | 0, byte, d => (byte, d)
  | bits+1, byte, d =>
    let (bit, d) := d.readBit
    readBits bits ((byte <<< 1) ||| (if bit then 1 else 0)) d

def readByte (nack : Bool) (d : Driver W) : UInt8 × Driver W :=
  let (byte, d) := d.readBits 8 0
  let d := d.writeBit nack
  (byte, { d with bytesRead := d.bytesRead + 1 })

def twi_scl_valley (d : Driver W) : Driver W :=
  let d := d.on W.SCL_LOW
  ((d.on (W.busywait d.twi_dcount)).on W.SCL_HIGH).on W.WAIT_CLOCK_STRETCH

/-- The loop after a transfer, which clocks out a slave that holds the line. -/
def clockOut : Nat → Driver W → Driver W
  | 0, d => d.sdaRead.2
  | rounds+1, d =>
    match d.sdaRead with
    | (true, d) => d
    | (false, d) =>
      let d := d.twi_scl_valley
      clockOut rounds (d.on (W.busywait d.twi_dcount))

/-- `buf[i] = read_byte(nack)`. -/
def readInto (i : Nat) (nack : Bool) (d : Driver W) : Driver W :=
  let (byte, d) := d.readByte nack
  { d with stores := d.stores ++ [(i, byte)] }

/-- The loop of `readFrom`, with `n` bytes to go. -/
def readLoop : Nat → Nat → Driver W → Driver W
  | 0, _, d => d
  | n+1, i, d => readLoop n (i + 1) (d.readInto i false)

def readFrom (address : UInt8) (len : Nat) (sendStop : Bool) (d : Driver W) : Nat × Driver W :=
  match d.writeStart with
  | (false, d) => (4, d)
  | (true, d) =>
    match d.writeByte ((address <<< 1) ||| 1) with
    | (false, d) => (2, if sendStop then d.writeStop else d)
    | (true, d) =>
      let d := d.readLoop (sub32 len 1) 0
      let d := d.readInto (sub32 len 1) true
      let d := if sendStop then d.writeStop else d.twi_scl_valley
      (0, d.clockOut 10)

end Driver

def I2C_BUFFER_LENGTH : Nat := 128

/-- What `TwoWire` keeps of its receive buffer besides the bytes. -/
structure TwoWire where
  rxBufferIndex : Nat
  rxBufferLength : Nat

/-- `TwoWire::requestFrom`: the length it returns, what it keeps, and the
driver. -/
def requestFrom (address : UInt8) (size : Nat) (sendStop : Bool) (d : Driver W) :
    Nat × TwoWire × Driver W :=
  let size := if size > I2C_BUFFER_LENGTH then I2C_BUFFER_LENGTH else size
  let (res, d) := d.readFrom address size sendStop
  let read := if res = 0 then size else 0
  (read, { rxBufferIndex := 0, rxBufferLength := read }, d)

/-! ## The stores -/

namespace Driver

variable {d : Driver W}

structure SameReads (d d' : Driver W) : Prop where
  bytesRead : d'.bytesRead = d.bytesRead
  stores : d'.stores = d.stores

theorem SameReads.refl (d : Driver W) : SameReads d d := ⟨rfl, rfl⟩

theorem SameReads.trans {d' d'' : Driver W} (h : SameReads d d') (h' : SameReads d' d'') :
    SameReads d d'' :=
  ⟨h'.bytesRead.trans h.bytesRead, h'.stores.trans h.stores⟩

theorem writeStart_same (d : Driver W) : SameReads d d.writeStart.2 := by
  unfold writeStart
  dsimp only
  split <;> rename_i h <;> obtain rfl := congrArg (·.2) h <;> exact ⟨rfl, rfl⟩

theorem writeStop_same (d : Driver W) : SameReads d d.writeStop := ⟨rfl, rfl⟩

theorem twi_scl_valley_same (d : Driver W) : SameReads d d.twi_scl_valley := ⟨rfl, rfl⟩

theorem writeBit_same (bit : Bool) (d : Driver W) : SameReads d (d.writeBit bit) := by
  cases bit <;> exact ⟨rfl, rfl⟩

theorem readBit_same (d : Driver W) : SameReads d d.readBit.2 := ⟨rfl, rfl⟩

theorem writeBits_same (bits : Nat) (byte : UInt8) (d : Driver W) :
    SameReads d (d.writeBits bits byte) := by
  induction bits generalizing byte d with
  | zero => exact .refl d
  | succ bits ih => exact (writeBit_same _ d).trans (ih _ _)

theorem writeByte_same (byte : UInt8) (d : Driver W) : SameReads d (d.writeByte byte).2 :=
  (writeBits_same 8 byte d).trans (readBit_same _)

theorem readBits_same (bits : Nat) (byte : UInt8) (d : Driver W) :
    SameReads d (d.readBits bits byte).2 := by
  induction bits generalizing byte d with
  | zero => exact .refl d
  | succ bits ih => exact (readBit_same d).trans (ih _ _)

theorem clockOut_same (rounds : Nat) (d : Driver W) : SameReads d (d.clockOut rounds) := by
  induction rounds generalizing d with
  | zero => exact ⟨rfl, rfl⟩
  | succ rounds ih =>
    unfold clockOut
    split <;> rename_i h <;> obtain rfl := congrArg (·.2) h
    · exact ⟨rfl, rfl⟩
    · have hvalley : SameReads d (d.sdaRead.2.twi_scl_valley.on
          (W.busywait d.sdaRead.2.twi_scl_valley.twi_dcount)) := ⟨rfl, rfl⟩
      exact hvalley.trans (ih _)

theorem readInto_stores (i : Nat) (nack : Bool) (d : Driver W) :
    (d.readInto i nack).bytesRead = d.bytesRead + 1 ∧
      ∃ byte, (d.readInto i nack).stores = d.stores ++ [(i, byte)] := by
  have hbits := readBits_same 8 0 d
  unfold readInto readByte
  generalize d.readBits 8 0 = r at hbits ⊢
  obtain ⟨byte, d₁⟩ := r
  have hsame := hbits.trans (writeBit_same nack d₁)
  refine ⟨?_, byte, ?_⟩
  · show (d₁.writeBit nack).bytesRead + 1 = _
    rw [hsame.bytesRead]
  · show (d₁.writeBit nack).stores ++ _ = _
    rw [hsame.stores]

theorem readLoop_stores (n i : Nat) (d : Driver W) :
    (d.readLoop n i).bytesRead = d.bytesRead + n ∧
      ∃ new, (d.readLoop n i).stores = d.stores ++ new ∧
        new.map Prod.fst = List.range' i n := by
  induction n generalizing i d with
  | zero => exact ⟨rfl, [], (List.append_nil _).symm, rfl⟩
  | succ n ih =>
    obtain ⟨hread, byte, hstore⟩ := readInto_stores i false d
    obtain ⟨hreads, new, hstores, hnew⟩ := ih (i + 1) (d.readInto i false)
    refine ⟨?_, (i, byte) :: new, ?_, ?_⟩
    · show ((d.readInto i false).readLoop n (i + 1)).bytesRead = _
      omega
    · show ((d.readInto i false).readLoop n (i + 1)).stores = _
      rw [hstores, hstore, List.append_assoc]
      rfl
    · rw [List.map_cons, hnew]
      rfl

/-- The slave is there: the line is free for a start, and the address is
acknowledged. -/
def Answers (address : UInt8) (d : Driver W) : Prop :=
  d.writeStart.1 = true ∧ (d.writeStart.2.writeByte ((address <<< 1) ||| 1)).1 = true

theorem readFrom_stores (address : UInt8) (len : Nat) (sendStop : Bool) (d : Driver W) :
    (Answers address d → (d.readFrom address len sendStop).1 = 0 ∧
      (d.readFrom address len sendStop).2.bytesRead = d.bytesRead + (sub32 len 1 + 1) ∧
      ∃ new, (d.readFrom address len sendStop).2.stores = d.stores ++ new ∧
        new.map Prod.fst = List.range' 0 (sub32 len 1 + 1)) ∧
    (¬ Answers address d → (d.readFrom address len sendStop).1 ≠ 0 ∧
      SameReads d (d.readFrom address len sendStop).2) := by
  have hstart := writeStart_same d
  unfold readFrom Answers
  generalize d.writeStart = r at hstart ⊢
  obtain ⟨started, d₁⟩ := r
  have hbyte := writeByte_same ((address <<< 1) ||| 1) d₁
  cases started with
  | false => exact ⟨fun h => absurd h.1 (by simp), fun _ => ⟨by simp, hstart⟩⟩
  | true =>
    dsimp only
    generalize d₁.writeByte ((address <<< 1) ||| 1) = r at hbyte ⊢
    obtain ⟨acked, d₂⟩ := r
    have hsame := hstart.trans hbyte
    cases acked with
    | false =>
      refine ⟨fun h => absurd h.2 (by simp), fun _ => ⟨by simp, ?_⟩⟩
      dsimp only
      split
      · exact hsame.trans (writeStop_same _)
      · exact hsame
    | true =>
      refine ⟨fun _ => ?_, fun h => absurd ⟨rfl, rfl⟩ h⟩
      obtain ⟨hread, new, hstores, hnew⟩ := readLoop_stores (sub32 len 1) 0 d₂
      obtain ⟨hlast, byte, hstored⟩ :=
        readInto_stores (sub32 len 1) true (d₂.readLoop (sub32 len 1) 0)
      dsimp only at hsame ⊢
      generalize (d₂.readLoop (sub32 len 1) 0).readInto (sub32 len 1) true = d₃
        at hlast hstored ⊢
      have hend : SameReads d₃
          ((if sendStop then d₃.writeStop else d₃.twi_scl_valley).clockOut 10) := by
        refine SameReads.trans ?_ (clockOut_same 10 _)
        split
        · exact writeStop_same _
        · exact twi_scl_valley_same _
      refine ⟨rfl, ?_, new ++ [(sub32 len 1, byte)], ?_, ?_⟩
      · rw [hend.bytesRead, hlast, hread, hsame.bytesRead, Nat.add_assoc]
      · rw [hend.stores, hstored, hstores, hsame.stores, List.append_assoc]
      · rw [List.map_append, hnew, List.range'_concat]
        simp

end Driver

/-! ## The bounds -/

/-- The driver is handed a buffer of `len` bytes; it stores within it, and what
is reported as received has been read. -/
structure Bounded (len : Nat) (d : Driver W) (wire : TwoWire) (d' : Driver W) : Prop where
  within : ∃ new, d'.stores = d.stores ++ new ∧ ∀ st ∈ new, st.1 < len
  received : wire.rxBufferLength ≤ d'.bytesRead - d.bytesRead

/-- **A read keeps within the buffer** unless it is one of no bytes that a
slave answers. -/
theorem readFrom_within_iff (address : UInt8) {len : Nat} (hlen : len < 4294967296)
    (sendStop : Bool) (d : Driver W) :
    (∃ new, (d.readFrom address len sendStop).2.stores = d.stores ++ new ∧
      ∀ st ∈ new, st.1 < len) ↔ len ≠ 0 ∨ ¬ d.Answers address := by
  obtain ⟨hyes, hno⟩ := Driver.readFrom_stores address len sendStop d
  by_cases ha : d.Answers address
  · obtain ⟨-, -, new, hstores, hnew⟩ := hyes ha
    have hindex : ∀ i, (∃ st ∈ new, st.1 = i) ↔ i < sub32 len 1 + 1 := by
      intro i
      have hmem : i ∈ new.map Prod.fst ↔ ∃ st ∈ new, st.1 = i := List.mem_map
      rw [← hmem, hnew, List.mem_range'_1]
      omega
    constructor
    · rintro ⟨new', hstores', hlt⟩
      obtain rfl := List.append_cancel_left (hstores.symm.trans hstores')
      obtain ⟨st, hst, h0⟩ := (hindex 0).mpr (by omega)
      have := hlt st hst
      left
      omega
    · rintro (hne | hn)
      · refine ⟨new, hstores, fun st hst => ?_⟩
        have hlt := (hindex st.1).mp ⟨st, hst, rfl⟩
        rw [sub32_of_le (by omega) hlen] at hlt
        omega
      · exact absurd ha hn
  · refine iff_of_true ⟨[], ?_, by simp⟩ (.inr ha)
    rw [(hno ha).2.stores, List.append_nil]

theorem requestFrom_bounded_iff (address : UInt8) (size : Nat) (sendStop : Bool) (d : Driver W) :
    Bounded (min size I2C_BUFFER_LENGTH) d (requestFrom address size sendStop d).2.1
        (requestFrom address size sendStop d).2.2 ↔ size ≠ 0 ∨ ¬ d.Answers address := by
  have hclamp : (if size > I2C_BUFFER_LENGTH then I2C_BUFFER_LENGTH else size) =
      min size I2C_BUFFER_LENGTH := by grind
  have hlen : min size I2C_BUFFER_LENGTH < 4294967296 := by
    unfold I2C_BUFFER_LENGTH
    omega
  have hzero : min size I2C_BUFFER_LENGTH ≠ 0 ↔ size ≠ 0 := by
    unfold I2C_BUFFER_LENGTH
    omega
  obtain ⟨hyes, hno⟩ := Driver.readFrom_stores address (min size I2C_BUFFER_LENGTH) sendStop d
  unfold requestFrom
  rw [hclamp, ← hzero, ← readFrom_within_iff address hlen sendStop d]
  generalize min size I2C_BUFFER_LENGTH = len at *
  dsimp only
  refine ⟨fun h => h.within, fun h => ⟨h, ?_⟩⟩
  by_cases ha : d.Answers address
  · obtain ⟨hres, hread, -⟩ := hyes ha
    show (if _ then len else 0) ≤ _
    rw [if_pos hres, hread]
    have := u32_of_lt hlen
    unfold sub32
    omega
  · grind

/-- **The bounds of the master's reads.**  The driver stores within a buffer
of any length, and through `requestFrom` reports no more than it has read,
unless it is asked for no bytes and a slave answers. -/
theorem reads_bounded_iff (address : UInt8) (sendStop : Bool) (d : Driver W) :
    (∀ len < 4294967296,
      (∃ new, (d.readFrom address len sendStop).2.stores = d.stores ++ new ∧
        ∀ st ∈ new, st.1 < len) ↔ len ≠ 0 ∨ ¬ d.Answers address) ∧
    ∀ size, Bounded (min size I2C_BUFFER_LENGTH) d (requestFrom address size sendStop d).2.1
      (requestFrom address size sendStop d).2.2 ↔ size ≠ 0 ∨ ¬ d.Answers address :=
  ⟨fun _ hlen => readFrom_within_iff address hlen sendStop d,
    fun size => requestFrom_bounded_iff address size sendStop d⟩

def answering : Wires where
  State := Nat
  SCL_HIGH n := n
  SCL_LOW n := n
  SDA_HIGH n := n
  SDA_LOW n := n
  SDA_READ n := (n = 0, n + 1)
  busywait _ n := n
  WAIT_CLOCK_STRETCH n := n

def idleDriver : Driver answering where
  twi_dcount := 18
  wires := (0 : Nat)
  bytesRead := 0
  stores := []

/-- The slave answers the read of no bytes, so something is stored. -/
theorem not_reads_bounded :
    ¬ Bounded (min 0 I2C_BUFFER_LENGTH) idleDriver (requestFrom 0x40 0 true idleDriver).2.1
      (requestFrom 0x40 0 true idleDriver).2.2 := by
  have hanswers : idleDriver.Answers 0x40 := ⟨by decide, by decide⟩
  rw [requestFrom_bounded_iff]
  exact fun h => h.elim (absurd rfl) (absurd hanswers)

end Twi
