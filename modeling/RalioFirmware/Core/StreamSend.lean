import RalioFirmware.Basis.Word

/-!
# Sending from a stream to a print

`Stream::sendGeneric` has three loops: over the peek buffer of a source, byte by
byte up to a terminator, and through a buffer on the stack.  What the source has
at hand, what the destination has room for and takes, and when the timeout
strikes is up to them, round by round; a transfer is a run over such rounds.
-/

namespace StreamSend

/-! ## The loops -/

/-- The arguments of `sendGeneric`, and what source and destination say of
themselves. -/
structure Transfer where
  len : Int
  readUntilChar : Option UInt8
  timeoutMs : Nat
  inputCanTimeout : Bool
  outputCanTimeout : Bool

/-- What a round meets: the bytes at hand, the room said to be there, the bytes that
`write` takes and that `read` gives of those asked for, whether `read` fails, and
whether time is up at the round's end. -/
structure Round where
  avail : Nat
  room : Nat
  accept : Nat
  got : Nat
  readFails : Bool
  expired : Bool

/-- The bytes that the destination has, and those that the source still has. -/
structure Sent where
  delivered : List UInt8
  rest : List UInt8
deriving DecidableEq

inductive Stop
  | limit
  | dry
  | full
  | terminator
  | timeout
  | readError
  | writeError
deriving DecidableEq

inductive Report
  | success
  | timedOut
  | readError
  | writeError
  | shortOperation
deriving DecidableEq

namespace Transfer

/-- `maxLen`: none for a negative length. -/
def maxLen (c : Transfer) : Nat := c.len.toNat

def asks (s : Sent) (c : Transfer) : Prop := c.maxLen = 0 ∨ s.delivered.length < c.maxLen

instance (s : Sent) (c : Transfer) : Decidable (c.asks s) :=
  inferInstanceAs (Decidable (_ ∨ _))

def temporaryStackBufferSize : Nat := 64

/-- `w`, cut to what is still asked for. -/
def cut (s : Sent) (w : Nat) (c : Transfer) : Nat :=
  if c.maxLen ≠ 0 then min w (c.maxLen - s.delivered.length) else w

def roundEnd (r : Round) (s : Sent) : Sent × Option Stop :=
  (s, if r.expired then some .timeout else none)

def starved (r : Round) (s : Sent) (c : Transfer) : Option Stop :=
  if min r.avail s.rest.length = 0 ∧ c.inputCanTimeout = false then some .dry
  else if r.room = 0 ∧ c.outputCanTimeout = false then some .full
  else none

def block (r : Round) (s : Sent) (c : Transfer) : List UInt8 :=
  s.rest.take (c.cut s (min r.room (min r.avail s.rest.length)))

/-- A round of `SendGenericPeekBuffer`. -/
def peekBufferRound (r : Round) (s : Sent) (c : Transfer) : Sent × Option Stop :=
  match c.starved r s with
  | some stop => (s, some stop)
  | none =>
    let directbuf := c.block r s
    let w := match c.readUntilChar with
      | some char => if char ∈ directbuf then directbuf.idxOf char else directbuf.length
      | none => directbuf.length
    let foundChar := match c.readUntilChar with
      | some char => decide (char ∈ directbuf)
      | none => false
    let w := min r.accept w
    let s := ⟨s.delivered ++ s.rest.take w, s.rest.drop w⟩
    if foundChar then (⟨s.delivered, s.rest.drop 1⟩, some .terminator)
    else roundEnd r s

/-- A round of `SendGenericRegularUntil`. -/
def regularUntilRound (r : Round) (s : Sent) (c : Transfer) : Sent × Option Stop :=
  match c.starved r s with
  | some stop => (s, some stop)
  | none =>
    match s.rest.take r.avail with
    | [] => roundEnd r s
    | char :: _ =>
      if c.readUntilChar = some char then (⟨s.delivered, s.rest.drop 1⟩, some .terminator)
      else if r.accept = 0 then (⟨s.delivered, s.rest.drop 1⟩, some .writeError)
      else roundEnd r ⟨s.delivered ++ [char], s.rest.drop 1⟩

/-- A round of `SendGenericRegular`. -/
def regularRound (r : Round) (s : Sent) (c : Transfer) : Sent × Option Stop :=
  match c.starved r s with
  | some stop => (s, some stop)
  | none =>
    let w := min (c.cut s (min r.room (min r.avail s.rest.length))) temporaryStackBufferSize
    if w = 0 then roundEnd r s
    else if r.readFails then (s, some .readError)
    else
      let temp := s.rest.take (min r.got w)
      let w := min r.accept temp.length
      let s := ⟨s.delivered ++ temp.take w, s.rest.drop temp.length⟩
      if temp.length ≠ w then (s, some .writeError) else roundEnd r s

/-- The loop around a round; it has not ended when the rounds are used up. -/
def loop (round : Round → Sent → Transfer → Sent × Option Stop) (c : Transfer) :
    List Round → Sent → Sent × Option Stop
  | [], s => (s, if c.asks s then none else some .limit)
  | r :: rounds, s =>
    if c.asks s then
      match round r s c with
      | (s, some stop) => (s, some stop)
      | (s, none) => loop round c rounds s
    else (s, some .limit)

/-- The report after a loop; `late` is what the timeout says when it is asked again. -/
def report (late : Bool) (s : Sent) (stop : Stop) (c : Transfer) : Report :=
  match stop with
  | .readError => .readError
  | .writeError => .writeError
  | _ =>
    if 0 < c.maxLen then
      if c.timeoutMs ≠ 0 ∧ (stop = .timeout ∨ late = true) then .timedOut
      else if (s.delivered.length : Int) ≠ c.len then .shortOperation
      else .success
    else .success

/-- The round of the loop that `sendGeneric` chooses. -/
def chosen (hasPeekBufferAPI : Bool) (c : Transfer) :
    Round → Sent → Transfer → Sent × Option Stop :=
  if hasPeekBufferAPI then peekBufferRound
  else if c.readUntilChar.isSome then regularUntilRound
  else regularRound

/-- What a transfer comes to, over some rounds: no stop and no report while it goes
on. -/
structure Outcome where
  delivered : List UInt8
  rest : List UInt8
  stop : Option Stop
  report : Option Report
deriving DecidableEq

def sendGeneric (hasPeekBufferAPI late : Bool) (rounds : List Round) (src : List UInt8)
    (c : Transfer) : Outcome :=
  if c.len = 0 then ⟨[], src, some .limit, some .success⟩
  else
    let (s, stop) := loop (chosen hasPeekBufferAPI c) c rounds ⟨[], src⟩
    ⟨s.delivered, s.rest, stop, stop.map fun stop => c.report late s stop⟩

end Transfer

end StreamSend
