import RalioFirmware.Core.SendConserves
import RalioFirmware.Http.Hex

/-!
# Chunked transfer

The web server sends a content of which it does not know the length in chunks, each behind
a line with its size, and `HTTPClient` reads them.  The two share no code.  The connection
of the server takes all that it is given, and so does what the client writes to; what the
client gets is a text, behind which the connection is closed or silent.
-/

namespace Http

/-- An `int`, and a `ssize_t`, which wrap. -/
def int32 (i : Int) : Int := Int.bmod i 4294967296

def crlf : Text := [13, 10]

/-! ## The server -/

inductive ContentLength
  | notSet
  | unknown
  | known (n : Nat)
deriving DecidableEq

/-- What the server keeps of a response, with what it has sent behind the headers. -/
structure Response where
  currentVersion : Nat
  isHead : Bool
  contentLength : ContentLength
  chunked : Bool
  sent : Text

namespace Response

def setContentLength (contentLength : ContentLength) (r : Response) : Response :=
  { r with contentLength }

/-- `_prepareHeader`, as to whether the response is chunked. -/
def prepareHeader (r : Response) : Response :=
  match r.contentLength with
  | .unknown => if r.currentVersion ≠ 0 then { r with chunked := true } else r
  | _ => r

/-- `sendContent`, of a content that is at hand. -/
def sendContent (content : Text) (r : Response) : Response :=
  if r.isHead then r
  else
    let content_length := (max 0 (int32 content.length)).toNat
    let line := if r.chunked then printHex content_length ++ crlf else []
    let trailing := if r.chunked then crlf else []
    { r with
      sent := r.sent ++ (line ++ content.take content_length ++ trailing)
      chunked := r.chunked && content_length ≠ 0 }

/-- `send` with no content of its own, or `chunkedResponseModeStart`. -/
def start (r : Response) : Response := (r.setContentLength .unknown).prepareHeader

/-- A chunked response: each content is sent, and an empty one at the end. -/
def respond (contents : List Text) (r : Response) : Response :=
  (contents.foldl (fun r content => r.sendContent content) r.start).sendContent []

end Response

/-! ## The client -/

def errorNotConnected : Int := -4

def errorConnectionLost : Int := -5

def errorStreamWrite : Int := -10

def errorReadTimeout : Int := -11

/-- What `readStringUntil` gives, and what is left. -/
def readStringUntil (terminator : UInt8) (coming : Text) : Text × Text :=
  (coming.takeWhile (· ≠ terminator), (coming.dropWhile (· ≠ terminator)).tail)

/-- A `HTTPClient` behind the headers: what comes of its connection, whether the connection is
closed behind that, and `_size`, which is what the headers say of the length. -/
structure HTTPClient where
  coming : Text
  closes : Bool
  size : Int

/-- The variables of the loop: what comes, what has been written, and the two sums. -/
structure Reader where
  coming : Text
  written : Text
  size : Int
  ret : Int

inductive Turn
  | again (s : Reader)
  | error (code : Int) (s : Reader)
  | break (s : Reader)

namespace HTTPClient

def connected (coming : Text) (c : HTTPClient) : Bool := coming ≠ [] || !c.closes

def readTrailing (s : Reader) : Turn :=
  if s.coming.take 2 = crlf then .again { s with coming := s.coming.drop 2 }
  else .error errorReadTimeout { s with coming := s.coming.drop 2 }

/-- A turn of the loop of `writeToPrint`. -/
def turn (s : Reader) (c : HTTPClient) : Turn :=
  if c.connected s.coming = false then .error errorConnectionLost s
  else
    let (chunkHeader, coming) := readStringUntil 10 s.coming
    if chunkHeader.length ≤ 0 then .error errorReadTimeout { s with coming }
    else
      let len := strtolHex chunkHeader.trim
      let size := int32 (s.size + len)
      if len > 0 then
        let r := coming.take len.toNat
        let s := ⟨coming.drop len.toNat, s.written ++ r, size, int32 (s.ret + r.length)⟩
        if r.length < len.toNat then
          .error (if c.connected [] then errorReadTimeout else errorStreamWrite) s
        else readTrailing s
      else
        let total := if c.size ≤ 0 then size else c.size
        let s := { s with coming, size }
        if s.ret ≠ total then .error errorStreamWrite s else .break s

/-- The loop of `writeToPrint`. -/
def loop (c : HTTPClient) : Nat → Reader → Option Turn
  | 0, _ => none
  | fuel + 1, s =>
    match c.turn s with
    | .again s => loop c fuel s
    | stop => some stop

/-- What `writeToPrint` returns, what it has written, and what it has left to read. -/
structure Outcome where
  returned : Int
  written : Text
  left : Text
deriving DecidableEq

/-- `writeToPrint` of a chunked body.  Once it is read, `disconnect` takes what is at hand of
what is left. -/
def writeToPrint (atHand : Nat) (c : HTTPClient) : Option Outcome :=
  if c.connected c.coming = false ∧ c.size > 0 then some ⟨errorNotConnected, [], c.coming⟩
  else
    match c.loop (c.coming.length + 1) ⟨c.coming, [], 0, 0⟩ with
    | some (.error code s) => some ⟨code, s.written, s.coming⟩
    | some (.break s) => some ⟨s.ret, s.written, s.coming.drop atHand⟩
    | _ => none

end HTTPClient

end Http
