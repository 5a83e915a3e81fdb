import RalioFirmware.Basis.Runs
import RalioFirmware.Http.Args

/-!
# Requests with a form

`_parseForm` reads the parts of a form one after the other, puts the fields into an array
for `WEBSERVER_MAX_POST_ARGS` of them, hands the files to the upload handler, and at the
end makes one array of the fields and the arguments of the URL.
-/

namespace Http

/-- `WEBSERVER_MAX_POST_ARGS`. -/
def maxPostArgs : Nat := 32

/-- What comes of the client: a line, as `readStringUntil('\r')` gives it, or the content of
a file.  With the content goes what the upload handler asks meanwhile, and whether all of
it comes, up to the boundary, from a client that is connected then. -/
inductive Event
  | line (s : Text)
  | content (whole : Bool) (asked : List Server.Query)

def readLine : List Event → Except Halt (Text × List Event)
  | .line s :: rest => .ok (s, rest)
  | _ => .error .waits

/-- A part of a form: a field, a file, or a line that is neither.  After the last one nothing
follows. -/
inductive Part
  | field (name value : Text) (last : Bool)
  | file (name filename type : Text) (whole : Bool) (asked : List Server.Query) (last : Bool)
  | other

/-- The names in a line that begins a part: the field's, and the file's if it is one. -/
def disposition (line : Text) : Option (Text × Option Text) :=
  if line.length ≤ 19 || !(line.substring 0 19).equalsIgnoreCase (text "Content-Disposition") then
    none
  else
    let nameStart := line.indexOf 61 0
    if nameStart = -1 then none
    else
      let argName := line.substring (nameStart.toNat + 2) line.length
      let nameStart := argName.indexOf 61 0
      if nameStart = -1 then some (argName.substring 0 (argName.length - 1), none)
      else
        some (argName.substring 0 (Text.unsigned (argName.indexOf 34 0)),
          some (argName.substring (nameStart.toNat + 2) (argName.length - 1)))

/-- The type of a part, for which one line is read, or two. -/
def readType (events : List Event) : Except Halt (Text × List Event) := do
  let (line, events) ← readLine events
  if line.length > 12 && (line.substring 0 12).equalsIgnoreCase (text "Content-Type") then do
    let (_, events) ← readLine events
    return (line.substring (Text.unsigned (line.indexOf 58 0 + 2)) line.length, events)
  else return (text "text/plain", events)

/-- The lines of a value, up to a line that begins with the boundary: the value, and that
line. -/
def readValue (boundary : Text) : List Event → Text → Except Halt ((Text × Text) × List Event)
  | .line s :: rest, argValue =>
    if Text.startsWith s (text "--" ++ boundary) then .ok ((argValue, s), rest)
    else readValue boundary rest ((if argValue.length > 0 then argValue ++ [10] else []) ++ s)
  | _, _ => .error .waits

/-- The content of a file, and the rest of the line behind it. -/
def readFile (name filename type : Text) : List Event → Except Halt (Part × List Event)
  | .content false asked :: events => .ok (.file name filename type false asked false, events)
  | .content true asked :: events => do
    let (line, events) ← readLine events
    return (.file name filename type true asked (line.equals (text "--")), events)
  | _ => .error .waits

def readPart (boundary : Text) (events : List Event) : Except Halt (Part × List Event) := do
  let (line, events) ← readLine events
  match disposition line with
  | none => return (.other, events)
  | some (name, filename) => do
    let (type, events) ← readType events
    match filename with
    | some filename => readFile name filename type events
    | none => do
      let ((value, line), events) ← readValue boundary events []
      return (.field name value (line.equals (text "--" ++ boundary ++ text "--")), events)

namespace Server

/-- The arguments of `_currentArgs` from `iarg` on are put behind the fields. -/
def appendArgs : Nat → Nat → Server → Except Halt Server
  | 0, _, s => .ok s
  | n + 1, iarg, s => do
    let a ← load s.currentArgs iarg
    let postArgs ← Http.store s.postArgs s.postArgsLen a
    appendArgs n (iarg + 1) { s with postArgs, postArgsLen := s.postArgsLen + 1 }

/-- The elements of `_postArgs` from `iarg` on are copied. -/
def copyArgs : Nat → Nat → Server → Except Halt Server
  | 0, _, s => .ok s
  | n + 1, iarg, s => do
    let a ← load s.postArgs iarg
    let currentArgs ← Http.store s.currentArgs iarg a
    copyArgs n (iarg + 1) { s with currentArgs }

/-- What `_parseForm` does behind the last part. -/
def finishForm (s : Server) : Except Halt Server := do
  let totalArgs : Int :=
    if (maxPostArgs : Int) - s.postArgsLen < s.currentArgCount then maxPostArgs - s.postArgsLen
    else s.currentArgCount
  let s ← appendArgs totalArgs.toNat 0 s
  let s ← copyArgs s.postArgsLen 0 { s with currentArgs := newArgs s.postArgsLen }
  return { s with currentArgCount := s.postArgsLen, postArgs := none, postArgsLen := 0 }

/-- What a part of a form comes to; whether the form goes on, ends or is given up. -/
def takePart (s : Server) : Part → Except Halt (Server × Option Bool)
  | .other => .ok (s, none)
  | .field name value last => do
    let postArgs ← Http.store s.postArgs s.postArgsLen ⟨name, value⟩
    return ({ s with postArgs, postArgsLen := s.postArgsLen + 1 }, if last then some true else none)
  | .file _ filename _ whole asked last => do
    -- The name of the file is asked for where it is "blob".
    let known ← if filename.equals (text "blob") then s.hasArg (text "filename") else .ok false
    let _ ← if known then s.argNamed (text "filename") else .ok []
    s.askAll asked
    return (s, if !whole then some false else if last then some true else none)

/-- The loop of `_parseForm`. -/
def formLoop (boundary : Text) : Nat → List Event → Server → Except Halt (Bool × Server)
  | 0, _, _ => .error .outOfBounds
  | fuel + 1, events, s => do
    let (part, events) ← readPart boundary events
    match ← s.takePart part with
    | (s, none) => formLoop boundary fuel events s
    | (s, some false) => return (false, s)
    | (s, some true) => do
      let s ← s.finishForm
      return (true, s)

/-- The first line of a form, which may be empty twice before. -/
def firstLine : Nat → List Event → Except Halt (Text × List Event)
  | 0, events => .ok ([], events)
  | retries + 1, events => do
    let (line, events) ← readLine events
    if line.length = 0 && retries ≠ 0 then firstLine retries events else return (line, events)

def parseForm (boundary : Text) (events : List Event) (s : Server) :
    Except Halt (Bool × Server) := do
  let (line, events) ← firstLine 3 events
  if line.equals (text "--" ++ boundary) then
    formLoop boundary (events.length + 1) events
      { s with postArgs := newArgs maxPostArgs, postArgsLen := 0 }
  else return (false, s)

end Server

/-- What the request line and the headers of a request come to, and what follows them.
`plainBuf` is what `readBytesWithTimeout` reads, if it reads all. -/
structure Request where
  hasBody : Bool
  searchStr : Text
  isForm : Bool
  isEncoded : Bool
  contentLength : Nat
  plainBuf : Option Text
  boundaryStr : Text
  events : List Event

namespace Server

def searchOf (r : Request) (plainBuf : Text) : Text :=
  if r.isEncoded then
    (if r.searchStr.length ≠ 0 then r.searchStr ++ [38] else r.searchStr) ++ plainBuf
  else r.searchStr

/-- `_parseRequest` behind the headers: whether the request can be handled. -/
def parseRequest (r : Request) (s : Server) : Except Halt (Bool × Server) :=
  if r.hasBody then
    if r.isForm then do
      let s ← s.parseArguments (searchOf r [])
      s.parseForm r.boundaryStr r.events
    else match r.plainBuf with
      | none => .ok (false, s)
      | some plainBuf =>
        if plainBuf.length < r.contentLength then .ok (false, s)
        else do
          let s ← s.parseArguments (searchOf r plainBuf)
          if r.contentLength ≠ 0 then do
            let currentArgs ← Http.store s.currentArgs s.currentArgCount ⟨text "plain", plainBuf⟩
            return (true, { s with currentArgs, currentArgsHavePlain := 1 })
          else return (true, s)
  else do
    let s ← s.parseArguments r.searchStr
    return (true, s)

end Server

end Http
