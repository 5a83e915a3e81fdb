import RalioFirmware.Basis.Word
import RalioFirmware.Basis.CString

/-!
# The Arduino `String`

The characters of a `String` stand in the object itself as long as ten of them are
enough, and in a block of the heap from then on.  A length goes with them, so that
a `String` knows its end twice: by the length, and by the NUL behind the last
character.  Each function of `WString.cpp` sees to the two on its own.

`buffer()` is never null here, as the object's own characters take the place of a
null pointer; the tests for it are left out.
-/

namespace WString

open Word Bytes CString

/-- A `String`: `buff` is the object's own buffer, or the block on the heap.  `cap` is
read on the heap only. -/
structure Str where
  isHeap : Bool
  buff : List UInt8
  cap : Nat
  len : Nat
deriving DecidableEq

/-- What a call meets: whether `realloc` finds a block, and the bytes that stand where
the object keeps its own characters while it has no use for them. -/
structure Env where
  granted : Bool
  storage : Vector UInt8 11

namespace Str

/-! ## Accessors -/

def isSSO (s : Str) : Bool := !s.isHeap

def capacity (s : Str) : Nat := if s.isSSO then 10 else s.cap

/-- `setLen`: seven bits in the object, sixteen on the heap. -/
def setLen (s : Str) (len : Nat) : Str :=
  { s with len := if s.isSSO then len % 128 else len % 65536 }

/-- `memmove` into the buffer. -/
def write (s : Str) (off : Nat) (src : List UInt8) : Str :=
  { s with buff := memcpy s.buff off src }

def contents (s : Str) : List UInt8 := s.buff.take s.len

def ownBytes (s : Str) (env : Env) : List UInt8 :=
  if s.isSSO then s.buff else env.storage.toList

/-- `init`: four of the eleven bytes are left as they are. -/
def init (s : Str) (env : Env) : Str where
  isHeap := false
  buff := List.replicate 4 0 ++ ((s.ownBytes env).drop 4).take 4 ++ List.replicate 3 0
  cap := 0
  len := 0

/-- `invalidate`: a block goes back to the heap. -/
def invalidate (s : Str) (env : Env) : Str := s.init env

/-! ## Memory -/

/-- `changeBuffer`.  A size of zero, after the round-up has wrapped, makes `realloc` free
the block. -/
def changeBuffer (s : Str) (env : Env) (maxStrLen : Nat) : Bool × Str :=
  if maxStrLen < 10 then
    if s.isSSO then (true, s.setLen s.len)
    else
      let temp := s.buff
      let s := { s with isHeap := false, buff := env.storage.toList }.setLen s.len
      (true, s.write 0 (temp.take maxStrLen))
  else
    let newSize := u32 (maxStrLen + 16) / 16 * 16
    if newSize > 65535 then (false, s)
    else if newSize = 0 then (false, if s.isSSO then s else { s with buff := [] })
    else if env.granted then
      let oldSize := s.capacity + 1
      let newbuffer := s.buff.take newSize ++ List.replicate (newSize - oldSize) 0
      (true, { isHeap := true, buff := newbuffer, cap := newSize - 1, len := s.len % 65536 })
    else (false, s)

def reserve (s : Str) (env : Env) (size : Nat) : Bool × Str :=
  if s.capacity ≥ size then (true, s)
  else
    match s.changeBuffer env size with
    | (true, s) => (true, if s.len = 0 then s.write 0 [0] else s)
    | (false, s) => (false, s)

/-! ## Copy, move and concat -/

def copy (s : Str) (env : Env) (cstr : List UInt8) (length : Nat) : Str :=
  match s.reserve env length with
  | (false, s) => s.invalidate env
  | (true, s) => ((s.setLen length).write 0 (cstr.take length)).write length [0]

/-- `operator =(const char *)`, with no bytes for a null pointer. -/
def assignCstr (s : Str) (env : Env) : Option (List UInt8) → Str
  | none => s.invalidate env
  | some cstr => s.copy env cstr (u32 (strlen cstr))

def concat (s : Str) (env : Env) (cstr : List UInt8) (length : Nat) : Bool × Str :=
  let newlen := u32 (s.len + length)
  if length = 0 then (true, s)
  else
    match s.reserve env newlen with
    | (false, s) => (false, s)
    | (true, s) => (true, ((s.write s.len (cstr.take length)).setLen newlen).write newlen [0])

/-- `concat` of a `String` to itself. -/
def concatSelf (s : Str) (env : Env) : Bool × Str :=
  let newlen := 2 * s.len
  if s.len = 0 then (true, s)
  else
    match s.reserve env newlen with
    | (false, s) => (false, s)
    | (true, s) => (true, ((s.write s.len s.contents).setLen newlen).write newlen [0])

/-- `concat(const char *)`. -/
def concatCstr (s : Str) (env : Env) : Option (List UInt8) → Bool × Str
  | none => (false, s)
  | some cstr => s.concat env cstr (u32 (strlen cstr))

/-- `clear` leaves the characters as they are. -/
def clear (s : Str) : Str := s.setLen 0

/-! ## Modification -/

def setCharAt (s : Str) (loc : Nat) (c : UInt8) : Str :=
  if loc < s.len then s.write loc [c] else s

def remove (s : Str) (index count : Nat) : Str :=
  if index ≥ s.len then s
  else if count = 0 then s
  else
    let count := if count > s.len - index then s.len - index else count
    let newlen := s.len - count
    let moved := (s.buff.drop (index + count)).take (newlen - index)
    ((s.setLen newlen).write index moved).write newlen [0]

def toLowerCase (s : Str) : Str := { s with buff := mapCstr tolower s.buff }

def toUpperCase (s : Str) : Str := { s with buff := mapCstr toupper s.buff }

/-- `replace(char, char)`. -/
def replaceChar (s : Str) (find replace : UInt8) : Str :=
  { s with buff := mapCstr (fun b => if b = find then replace else b) s.buff }

/-- The second loop of `trim`: `stop` is `end + 1`. -/
def trimEnd (s : Str) (start : Nat) : Nat → Nat
  | 0 => 0
  | stop + 1 =>
    if isspace (s.buff.getD stop 0) ∧ stop ≥ start then s.trimEnd start stop else stop + 1

def trim (s : Str) : Str :=
  if s.len = 0 then s
  else
    let start := (s.buff.takeWhile isspace).length
    let newlen := sub32 (s.trimEnd start s.len) start
    let moved := if start > 0 then (s.buff.drop start).take newlen else []
    ((s.setLen newlen).write 0 moved).write newlen [0]

/-! ## Comparison, search and conversion -/

/-- `c_str`, up to its NUL. -/
def c_str (s : Str) : List UInt8 := cstr s.buff

def compareTo (s t : Str) : Int := strcmp s.buff t.buff

def equals (s t : Str) : Bool := decide (s.len = t.len ∧ s.compareTo t = 0)

/-- `equals(const char *)`. -/
def equalsCstr (s : Str) : Option (List UInt8) → Bool
  | none => s.len = 0 || s.buff.getD 0 0 = 0
  | some mem => if s.len = 0 then (cstr mem).isEmpty else strcmp s.buff mem = 0

/-- `indexOf(char)`, with none for -1. -/
def indexOfChar (s : Str) (ch : UInt8) (fromIndex : Nat) : Option Nat :=
  if fromIndex ≥ s.len then none
  else (strchr ch (s.buff.drop fromIndex)).map (fromIndex + ·)

/-- `indexOf(const char *)`. -/
def indexOfCstr (s : Str) (s2 : List UInt8) (fromIndex : Nat) : Option Nat :=
  if fromIndex ≥ s.len then none
  else (strstr (cstr s2) (s.buff.drop fromIndex)).map (fromIndex + ·)

def indexOf (s s2 : Str) (fromIndex : Nat) : Option Nat := s.indexOfCstr s2.c_str fromIndex

/-- The loop of `lastIndexOf`; each round moves `p` on. -/
def lastIndexLoop (needle mem : List UInt8) (fromIndex : Nat) :
    Nat → Nat → Option Nat → Option Nat
  | 0, _, found => found
  | fuel + 1, p, found =>
    if p ≤ fromIndex then
      match strstr needle (mem.drop p) with
      | none => found
      | some n =>
        lastIndexLoop needle mem fromIndex fuel (p + n + 1)
          (if p + n ≤ fromIndex then some (p + n) else found)
    else found

def lastIndexOf (s s2 : Str) (fromIndex : Nat) : Option Nat :=
  if s2.len = 0 ∨ s.len = 0 ∨ s2.len > s.len then none
  else
    let fromIndex := if fromIndex ≥ s.len then s.len - 1 else fromIndex
    lastIndexLoop (cstr s2.buff) s.buff fromIndex (fromIndex + 1) 0 none

def toInt (s : Str) : Int := atol s.buff

/-! ## Replacement of strings -/

/-- An operand of `replace`: the `String` itself, or another one. -/
inductive Operand
  | self
  | other (t : Str)

def Operand.str (s : Str) : Operand → Str
  | self => s
  | other t => t

/-- What `strstr` finds from `readFrom` on. -/
def foundFrom (s : Str) (find : Operand) (readFrom : Nat) : Option Nat :=
  strstr (cstr (find.str s).buff) (s.buff.drop readFrom)

/-- The loop for a replacement of the same length; none if it does not come to an
end. -/
def replaceSame (find replace : Operand) : Nat → Nat → Str → Option Str
  | 0, _, _ => none
  | fuel + 1, readFrom, s =>
    match s.foundFrom find readFrom with
    | none => some s
    | some n =>
      replaceSame find replace fuel (readFrom + n + (replace.str s).len)
        (s.write (readFrom + n) (replace.str s).contents)

/-- The loop for a replacement that is `diff` bytes shorter, and the move of what is
left. -/
def replaceShorter (find replace : Operand) (diff : Nat) : Nat → Nat → Nat → Str → Option Str
  | 0, _, _, _ => none
  | fuel + 1, readFrom, writeTo, s =>
    match s.foundFrom find readFrom with
    | none =>
      let rest := s.buff.drop readFrom
      some (s.write writeTo (rest.take (strlen rest + 1)))
    | some n =>
      let s := s.write writeTo ((s.buff.drop readFrom).take n)
      let writeTo := writeTo + n
      let s := s.write writeTo (replace.str s).contents
      let writeTo := writeTo + (replace.str s).len
      let readFrom := readFrom + n + (find.str s).len
      replaceShorter find replace diff fuel readFrom writeTo (s.setLen (sub32 s.len diff))

def sizeNeeded (s : Str) (find : Operand) (diff : Nat) : Nat → Nat → Nat → Option Nat
  | 0, _, _ => none
  | fuel + 1, readFrom, size =>
    match s.foundFrom find readFrom with
    | none => some size
    | some n => s.sizeNeeded find diff fuel (readFrom + n + (find.str s).len) (u32 (size + diff))

/-- A round of the loop for a longer replacement, at the place found. -/
def widen (s : Str) (find replace : Operand) (diff index : Nat) : Str :=
  let readFrom := index + (find.str s).len
  let s := s.write (readFrom + diff) ((s.buff.drop readFrom).take (sub32 s.len readFrom))
  let newLen := s.len + diff
  let s := s.write index (replace.str s).contents
  (s.setLen newLen).write newLen [0]

/-- The loop for a longer replacement, backwards; `stop` is `index + 1`, and less in each
round. -/
def replaceLonger (find replace : Operand) (diff : Nat) : Nat → Nat → Str → Str
  | 0, _, s => s
  | fuel + 1, stop, s =>
    if stop = 0 then s
    else
      match s.lastIndexOf (find.str s) (stop - 1) with
      | none => s
      | some index => replaceLonger find replace diff fuel index (s.widen find replace diff index)

/-- `replace(const String &, const String &)`; none if a loop does not come to an
end. -/
def replace (s : Str) (env : Env) (find replace : Operand) : Option Str :=
  let m := (find.str s).len
  let r := (replace.str s).len
  if s.len = 0 ∨ m = 0 then some s
  else if r = m then replaceSame find replace (s.len + 1) 0 s
  else if r < m then replaceShorter find replace (m - r) (s.len + 1) 0 0 s
  else
    match s.sizeNeeded find (r - m) (s.len + 1) 0 s.len with
    | none => none
    | some size =>
      if size = s.len then some s
      else
        match if size > s.capacity then s.changeBuffer env size else (true, s) with
        | (false, s) => some s
        | (true, s) => some (replaceLonger find replace (r - m) s.len s.len s)

end Str

/-! ## Programs with Strings -/

/-- What a program does with its Strings, which go by their place in a list. -/
inductive Op
  | construct (cstr : Option (List UInt8))
  | constructChar (c : UInt8)
  | constructCopy (j : Nat)
  | constructMove (j : Nat)
  | assign (i j : Nat)
  | assignMove (i j : Nat)
  | assignCstr (i : Nat) (cstr : Option (List UInt8))
  | assignChar (i : Nat) (c : UInt8)
  | concat (i j : Nat)
  | concatCstr (i : Nat) (cstr : Option (List UInt8))
  | concatBytes (i : Nat) (bytes : List UInt8)
  | concatChar (i : Nat) (c : UInt8)
  | reserve (i size : Nat)
  | clear (i : Nat)
  | remove (i index count : Nat)
  | replaceChar (i : Nat) (find replace : UInt8)
  | replace (i find replace : Nat)
  | trim (i : Nat)
  | setCharAt (i loc : Nat) (c : UInt8)
  | toLowerCase (i : Nat)
  | toUpperCase (i : Nat)

structure Call where
  op : Op
  env : Env

namespace Call

def fresh (env : Env) : Str := ⟨false, env.storage.toList, 0, 0⟩

/-- `String(const char *)`. -/
def constructCstr (env : Env) : Option (List UInt8) → Str
  | none => (fresh env).init env
  | some cstr => ((fresh env).init env).copy env cstr (u32 (strlen cstr))

/-- `String(char)`: the two bytes that it writes, and the length. -/
def constructOf (env : Env) (c : UInt8) : Str :=
  { fresh env with buff := memcpy (fresh env).buff 0 [c, 0], len := 1 }

def update (strings : List Str) (i : Nat) (f : Str → Str) : List Str :=
  match strings[i]? with
  | some s => strings.set i (f s)
  | none => strings

/-- The `j`-th String as an operand of the `i`-th. -/
def operand (strings : List Str) (i j : Nat) : Option Str.Operand :=
  if j = i then some .self else (strings[j]?).map .other

def step (call : Call) (strings : List Str) : Option (List Str) :=
  let env := call.env
  match call.op with
  | .construct cstr => some (strings ++ [constructCstr env cstr])
  | .constructChar c => some (strings ++ [constructOf env c])
  | .constructCopy j =>
    match strings[j]? with
    | some t => some (strings ++ [((fresh env).init env).copy env t.buff t.len])
    | none => some strings
  | .constructMove j =>
    match strings[j]? with
    | some t => some (strings.set j (t.init env) ++ [t])
    | none => some strings
  | .assign i j =>
    match strings[j]? with
    | some t => if i = j then some strings else some (update strings i (·.copy env t.buff t.len))
    | none => some strings
  | .assignMove i j =>
    match strings[i]?, strings[j]? with
    | some _, some t =>
      if i = j then some strings else some ((strings.set i t).set j (t.init env))
    | _, _ => some strings
  | .assignCstr i cstr => some (update strings i (·.assignCstr env cstr))
  | .assignChar i c => some (update strings i (·.assignCstr env (some [c, 0])))
  | .concat i j =>
    if i = j then some (update strings i fun s => (s.concatSelf env).2)
    else
      match strings[j]? with
      | some t => some (update strings i fun s => (s.concat env t.buff t.len).2)
      | none => some strings
  | .concatCstr i cstr => some (update strings i fun s => (s.concatCstr env cstr).2)
  | .concatBytes i bytes =>
    some (update strings i fun s => (s.concat env bytes (u32 bytes.length)).2)
  | .concatChar i c => some (update strings i fun s => (s.concat env [c] 1).2)
  | .reserve i size => some (update strings i fun s => (s.reserve env (u32 size)).2)
  | .clear i => some (update strings i (·.clear))
  | .remove i index count => some (update strings i (·.remove index count))
  | .replaceChar i find replace => some (update strings i (·.replaceChar find replace))
  | .replace i find replace =>
    match strings[i]?, operand strings i find, operand strings i replace with
    | some s, some f, some r => (s.replace env f r).map (strings.set i ·)
    | _, _, _ => some strings
  | .trim i => some (update strings i (·.trim))
  | .setCharAt i loc c => some (update strings i (·.setCharAt loc c))
  | .toLowerCase i => some (update strings i (·.toLowerCase))
  | .toUpperCase i => some (update strings i (·.toUpperCase))

def run : List Call → List Str → Option (List Str)
  | [], strings => some strings
  | call :: rest, strings => (call.step strings).bind (run rest)

end Call

end WString
