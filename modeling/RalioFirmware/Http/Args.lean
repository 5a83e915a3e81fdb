import RalioFirmware.Http.Text

/-!
# The arguments of a request

The server keeps the arguments of a request in an array that it makes anew for each, and
those of a form in another one while it reads the form.  How many there are is kept
apart from the arrays, and so is whether the body of a request was put behind them.  An
access to an array names the index; one outside of the array is out of bounds.
-/

namespace Http

structure RequestArgument where
  key : Text
  value : Text
deriving DecidableEq

def RequestArgument.named (name : Text) (a : RequestArgument) : Bool := a.key.equals name

/-- How the code may fail to come to an end: an index out of bounds, a loop without end, or
a client that nothing more comes from. -/
inductive Halt
  | outOfBounds
  | loops
  | waits
deriving DecidableEq

/-- `_currentArgs` and `_postArgs` are null or an array. -/
structure Server where
  currentArgs : Option (List RequestArgument)
  currentArgCount : Nat
  currentArgsHavePlain : Nat
  postArgs : Option (List RequestArgument)
  postArgsLen : Nat

def load (array : Option (List RequestArgument)) (i : Nat) : Except Halt RequestArgument :=
  match array.bind (·[i]?) with
  | none => .error .outOfBounds
  | some a => .ok a

def store (array : Option (List RequestArgument)) (i : Nat) (a : RequestArgument) :
    Except Halt (Option (List RequestArgument)) :=
  match array with
  | none => .error .outOfBounds
  | some as => if i < as.length then .ok (some (as.set i a)) else .error .outOfBounds

/-- `new RequestArgument[n]`. -/
def newArgs (n : Nat) : Option (List RequestArgument) := some (List.replicate n ⟨[], []⟩)

/-- The loops that look for a name: the first of the elements `i`, …, `i + n - 1` with it. -/
def search (array : Option (List RequestArgument)) (name : Text) :
    Nat → Nat → Except Halt (Option RequestArgument)
  | 0, _ => .ok none
  | n + 1, i => do
    let a ← load array i
    if a.named name then return some a
    search array name n (i + 1)

namespace Server

def init : Server := ⟨none, 0, 0, none, 0⟩

/-! ## What a handler asks -/

/-- `arg(name)` and `hasArg(name)` up to what they return of it. -/
def find (name : Text) (s : Server) : Except Halt (Option RequestArgument) := do
  match ← search s.postArgs name s.postArgsLen 0 with
  | some a => return some a
  | none => search s.currentArgs name (s.currentArgCount + s.currentArgsHavePlain) 0

/-- `arg(name)`. -/
def argNamed (name : Text) (s : Server) : Except Halt Text := do
  let a ← s.find name
  return (a.map RequestArgument.value).getD []

def hasArg (name : Text) (s : Server) : Except Halt Bool := do
  let a ← s.find name
  return a.isSome

/-- `arg(i)` and `argName(i)` up to what they return of it. -/
def nth (i : Int) (s : Server) : Except Halt (Option RequestArgument) :=
  if 0 ≤ i ∧ i < s.currentArgCount + s.currentArgsHavePlain then do
    let a ← load s.currentArgs i.toNat
    return some a
  else .ok none

def arg (i : Int) (s : Server) : Except Halt Text := do
  let a ← s.nth i
  return (a.map RequestArgument.value).getD []

def argName (i : Int) (s : Server) : Except Halt Text := do
  let a ← s.nth i
  return (a.map RequestArgument.key).getD []

def args (s : Server) : Nat := s.currentArgCount

inductive Query
  | arg (i : Int)
  | argName (i : Int)
  | argNamed (name : Text)
  | hasArg (name : Text)
  | args

def ask (s : Server) : Query → Except Halt Unit
  | .arg i => do let _ ← s.arg i
  | .argName i => do let _ ← s.argName i
  | .argNamed name => do let _ ← s.argNamed name
  | .hasArg name => do let _ ← s.hasArg name
  | .args => .ok ()

def askAll (s : Server) : List Query → Except Halt Unit
  | [] => .ok ()
  | q :: rest => do
    s.ask q
    s.askAll rest

end Server

/-! ## `_parseArguments` -/

/-- `strtol(temp, NULL, 16)`, where `temp` is "0x" and two characters. -/
def strtol (a b : UInt8) : Nat :=
  match hexDigit a, hexDigit b with
  | none, _ => 0
  | some m, none => m
  | some m, some n => 16 * m + n

def urlDecode : Text → Text
  | [] => []
  | [c] => [if c = 43 then 32 else c]
  | [c, d] => [if c = 43 then 32 else c, if d = 43 then 32 else d]
  | c :: a :: b :: rest =>
    if c = 37 then UInt8.ofNat (strtol a b) :: urlDecode rest
    else (if c = 43 then 32 else c) :: urlDecode (a :: b :: rest)

structure Place where
  equal_index : Int
  pos : Nat
  key_end_pos : Int
  next_index : Int

/-- `storeArgHandler`: what it makes of an argument. -/
def storeArg (data : Text) (p : Place) (a : RequestArgument) : RequestArgument :=
  { key := urlDecode (data.substring p.pos (Text.unsigned p.key_end_pos))
    value :=
      if p.equal_index ≠ -1 ∧ (p.equal_index < p.next_index - 1 ∨ p.next_index = -1) then
        urlDecode (data.substring (Text.unsigned (p.equal_index + 1)) (Text.unsigned p.next_index))
      else a.value }

/-- The separators `&` and `;`. -/
def isSeparator (b : UInt8) : Bool := b = 38 || b = 59

def skipEmpty (data : Text) : Nat → Nat → Nat
  | 0, pos => pos
  | n + 1, pos =>
    if isSeparator (data.charAt pos) then
      if pos + 1 ≥ data.length then pos + 1 else skipEmpty data n (pos + 1)
    else pos

/-- The separators from `pos` on. -/
def locate (data : Text) (pos : Nat) : Place :=
  let equal_index := data.indexOf 61 pos
  let next_index := data.indexOf 38 pos
  let next_index2 := data.indexOf 59 pos
  let next_index :=
    if next_index = -1 ∨ (next_index2 ≠ -1 ∧ next_index2 < next_index) then next_index2
    else next_index
  let key_end_pos := equal_index
  let key_end_pos :=
    if key_end_pos = -1 ∨ (key_end_pos > next_index ∧ next_index ≠ -1) then next_index
    else key_end_pos
  ⟨equal_index, pos, if key_end_pos = -1 then data.length else key_end_pos, next_index⟩

/-- The loop of `_parseArgumentsPrivate`, with what its handler does to the arguments `A`.
Where it meets no key and goes on, it goes on from the same place without end. -/
def parseLoop {A : Type} (handler : Place → Nat → A → Except Halt A) (data : Text) :
    Nat → Nat → Nat → A → Except Halt (Nat × A)
  | 0, _, _, _ => .error .outOfBounds
  | fuel + 1, pos, arg_total, as => do
    let p := locate data (skipEmpty data data.length pos)
    if (p.pos : Int) < p.key_end_pos then
      let as ← handler p arg_total as
      if p.next_index = -1 then return (arg_total + 1, as)
      parseLoop handler data fuel (p.next_index.toNat + 1) (arg_total + 1) as
    else
      if p.next_index = -1 then return (arg_total, as)
      .error .loops

def parseArgumentsPrivate {A : Type} (handler : Place → Nat → A → Except Halt A)
    (data : Text) (as : A) : Except Halt (Nat × A) :=
  parseLoop handler data (data.length + 1) 0 0 as

/-- `nullArgHandler`, which does nothing to the argument. -/
def nullArgHandler (_ : Place) (_ : Nat) (u : Unit) : Except Halt Unit := .ok u

/-- `storeArgHandler`, on the array. -/
def storeArgHandler (data : Text) (p : Place) (i : Nat)
    (array : Option (List RequestArgument)) : Except Halt (Option (List RequestArgument)) := do
  let a ← load array i
  store array i (storeArg data p a)

namespace Server

/-- `_parseArguments`: one more is allocated, for the body. -/
def parseArguments (data : Text) (s : Server) : Except Halt Server := do
  let (currentArgCount, ()) ← parseArgumentsPrivate nullArgHandler data ()
  let currentArgs := newArgs (currentArgCount + 1)
  let (_, currentArgs) ← parseArgumentsPrivate (storeArgHandler data) data currentArgs
  return { s with currentArgs, currentArgCount }

end Server

end Http
