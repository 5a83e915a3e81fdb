import RalioFirmware.Basis.Word
import RalioFirmware.Http.Args
import RalioFirmware.Http.Hex

/-!
# The header loops

`_parseRequest` has two loops over the header lines, one for the methods whose requests
carry a body and one for the others.  They take the lines apart alike but for the value:
the first loop trims what stands behind the colon, the second cuts off its first byte.

Either loop leaves in a place the value of the last line that goes there.  So what the two
make of a request can be told from these lines alone, `headers_agree_iff`.
-/

namespace Http

open CString Bytes List

inductive HTTPMethod
  | HTTP_ANY
  | HTTP_GET
  | HTTP_HEAD
  | HTTP_POST
  | HTTP_PUT
  | HTTP_PATCH
  | HTTP_DELETE
  | HTTP_OPTIONS
deriving DecidableEq

def HTTPMethod.hasBody : HTTPMethod → Bool
  | .HTTP_POST | .HTTP_PUT | .HTTP_PATCH | .HTTP_DELETE => true
  | _ => false

/-- What the loops write: members of the server, and variables of the first loop. -/
structure Parsed where
  currentHeaders : List RequestArgument
  hostHeader : Text
  keepAlive : Bool
  contentLength : Nat
  boundaryStr : Text
  isForm : Bool
  isEncoded : Bool
deriving DecidableEq

/-- `_collectHeader`: the first header with the name gets the value. -/
def collectHeader (headerName headerValue : Text) : List RequestArgument → List RequestArgument
  | [] => []
  | h :: rest =>
    if h.key.equalsIgnoreCase (cstr headerName) then { h with value := cstr headerValue } :: rest
    else h :: collectHeader headerName headerValue rest

/-- `replace("\"", "")`, which goes on as far as the first NUL. -/
def unquote (s : Text) : Text :=
  (memcpy (s ++ [0]) 0 ((cstr s).filter (· ≠ 34) ++ [0])).take (s.length - (cstr s).count 34)

/-- The name in a header line with a colon at `headerDiv`. -/
def headerName (req : Text) (headerDiv : Nat) : Text := req.substring 0 headerDiv

def trimmedValue (req : Text) (headerDiv : Nat) : Text :=
  (req.substring (headerDiv + 1) req.length).trim

def cutValue (req : Text) (headerDiv : Nat) : Text := req.substring (headerDiv + 2) req.length

def formHeader (req : Text) (headerDiv : Nat) (p : Parsed) : Parsed :=
  let name := headerName req headerDiv
  let value := trimmedValue req headerDiv
  let p := { p with currentHeaders := collectHeader name value p.currentHeaders }
  if name.equalsIgnoreCase (text "Content-Type") then
    if value.startsWith (text "text/plain") then { p with isForm := false }
    else if value.startsWith (text "application/x-www-form-urlencoded") then
      { p with isForm := false, isEncoded := true }
    else if value.startsWith (text "multipart/") then
      { p with
        boundaryStr :=
          unquote (value.substring (Text.unsigned (value.indexOf 61 0 + 1)) value.length),
        isForm := true }
    else p
  else if name.equalsIgnoreCase (text "Content-Length") then
    { p with contentLength := Text.unsigned (atol value) }
  else if name.equalsIgnoreCase (text "Host") then { p with hostHeader := value }
  else if name.equalsIgnoreCase (text "Connection") then
    { p with keepAlive := value.equalsIgnoreCase (text "keep-alive") }
  else p

def otherHeader (req : Text) (headerDiv : Nat) (p : Parsed) : Parsed :=
  let name := headerName req headerDiv
  let value := cutValue req headerDiv
  let p := { p with currentHeaders := collectHeader name value p.currentHeaders }
  if name.equalsIgnoreCase (text "Host") then { p with hostHeader := value }
  else if name.equalsIgnoreCase (text "Connection") then
    { p with keepAlive := value.equalsIgnoreCase (text "keep-alive") }
  else p

/-- Either loop: it ends with an empty line, with one that has no colon, and when nothing
more comes. -/
def headerLoop (handle : Text → Nat → Parsed → Parsed) : List Text → Parsed → Parsed
  | [], p => p
  | req :: rest, p =>
    if req = [] then p
    else
      let headerDiv := req.indexOf 58 0
      if headerDiv = -1 then p else headerLoop handle rest (handle req headerDiv.toNat p)

/-- `_parseRequest`, from the values it clears at its start to the end of the headers. -/
def parseHeaders (method : HTTPMethod) (lines : List Text) (p : Parsed) : Parsed :=
  let p := { p with
    currentHeaders := p.currentHeaders.map fun h => { h with value := [] }
    contentLength := 0, boundaryStr := [], isForm := false, isEncoded := false }
  if method.hasBody then headerLoop formHeader lines p else headerLoop otherHeader lines p

/-! ## The last line that counts -/

/-- What stands behind the colon in the last of the header lines whose name passes the
test. -/
def lastField (test : Text → Bool) : List Text → Option Text
  | [] => none
  | req :: rest =>
    if req = [] then none
    else
      let headerDiv := req.indexOf 58 0
      if headerDiv = -1 then none
      else
        (lastField test rest).or
          (if test (headerName req headerDiv.toNat) then some (req.drop (headerDiv.toNat + 1))
            else none)

def collector (keys : List Text) (name : Text) : Option Nat :=
  keys.findIdx? fun key => key.equalsIgnoreCase (cstr name)

def Collects (keys : List Text) (i : Nat) (name : Text) : Bool := collector keys name = some i
def isHost (name : Text) : Bool := name.equalsIgnoreCase (text "Host")
def isContentLength (name : Text) : Bool := name.equalsIgnoreCase (text "Content-Length")

def Parsed.keys (p : Parsed) : List Text := p.currentHeaders.map RequestArgument.key

/-- The bodies of the loops, as far as the collected headers and the host go: a header line
sends its value, as `value` makes it of what stands behind the colon, to the places that
its name says. -/
structure Sends (value : Text → Text) (handle : Text → Nat → Parsed → Parsed) : Prop where
  currentHeaders : ∀ req headerDiv p, (handle req headerDiv p).currentHeaders =
    collectHeader (headerName req headerDiv) (value (req.drop (headerDiv + 1))) p.currentHeaders
  hostHeader : ∀ req headerDiv p, (handle req headerDiv p).hostHeader =
    if isHost (headerName req headerDiv) then value (req.drop (headerDiv + 1)) else p.hostHeader

theorem substring_length (req : Text) (left : Nat) :
    req.substring left req.length = req.drop left := by
  unfold Text.substring
  by_cases hgt : left > req.length
  · rw [if_pos hgt]
    dsimp only
    rw [if_pos (Nat.le_refl _), drop_eq_nil_of_le (by omega)]
  · rw [if_neg hgt]
    dsimp only
    by_cases hge : left ≥ req.length
    · rw [if_pos hge, drop_eq_nil_of_le hge]
    · rw [if_neg hge, Nat.min_self]
      exact take_of_length_le (by rw [length_drop])

theorem trimmedValue_eq (req : Text) (headerDiv : Nat) :
    trimmedValue req headerDiv = Text.trim (req.drop (headerDiv + 1)) := by
  rw [trimmedValue, substring_length]

theorem cutValue_eq (req : Text) (headerDiv : Nat) :
    cutValue req headerDiv = (req.drop (headerDiv + 1)).drop 1 := by
  rw [cutValue, substring_length, drop_drop]

theorem not_equalsIgnoreCase {name s t : Text} (h : name.equalsIgnoreCase s = true)
    (hlen : s.length ≠ t.length) : name.equalsIgnoreCase t = false := by
  simp only [Text.equalsIgnoreCase, Bool.and_eq_true, decide_eq_true_eq] at h
  simp [Text.equalsIgnoreCase, h.1, hlen]

theorem formHeader_sends : Sends Text.trim formHeader := by
  constructor
  · intro req headerDiv p
    unfold formHeader
    rw [trimmedValue_eq]
    dsimp only
    split_ifs <;> rfl
  · intro req headerDiv p
    unfold formHeader
    rw [trimmedValue_eq]
    cases hhost : isHost (headerName req headerDiv) with
    | true =>
      have htype := not_equalsIgnoreCase hhost
        (show (text "Host").length ≠ (text "Content-Type").length by decide)
      have hlength := not_equalsIgnoreCase hhost
        (show (text "Host").length ≠ (text "Content-Length").length by decide)
      rw [isHost] at hhost
      simp [htype, hlength, hhost]
    | false =>
      rw [isHost] at hhost
      simp only [hhost, Bool.false_eq_true, if_false]
      split_ifs <;> rfl

theorem otherHeader_sends : Sends (List.drop 1) otherHeader := by
  constructor
  · intro req headerDiv p
    unfold otherHeader
    rw [cutValue_eq]
    dsimp only
    split_ifs <;> rfl
  · intro req headerDiv p
    unfold otherHeader
    rw [cutValue_eq]
    cases hhost : isHost (headerName req headerDiv) with
    | true =>
      rw [isHost] at hhost
      simp [hhost]
    | false =>
      rw [isHost] at hhost
      simp only [hhost, Bool.false_eq_true, if_false]
      split_ifs <;> rfl

theorem formHeader_contentLength (req : Text) (headerDiv : Nat) (p : Parsed) :
    (formHeader req headerDiv p).contentLength =
      if isContentLength (headerName req headerDiv) then
        Text.unsigned (atol (Text.trim (req.drop (headerDiv + 1))))
      else p.contentLength := by
  unfold formHeader
  rw [trimmedValue_eq]
  cases hlength : isContentLength (headerName req headerDiv) with
  | true =>
    have htype := not_equalsIgnoreCase hlength
      (show (text "Content-Length").length ≠ (text "Content-Type").length by decide)
    rw [isContentLength] at hlength
    simp [htype, hlength]
  | false =>
    rw [isContentLength] at hlength
    simp only [hlength, Bool.false_eq_true, if_false]
    split_ifs <;> rfl

theorem otherHeader_contentLength (req : Text) (headerDiv : Nat) (p : Parsed) :
    (otherHeader req headerDiv p).contentLength = p.contentLength := by
  unfold otherHeader
  dsimp only
  split_ifs <;> rfl

/-! ## What a loop leaves -/

theorem collectHeader_keys (name value : Text) (hs : List RequestArgument) :
    (collectHeader name value hs).map RequestArgument.key = hs.map RequestArgument.key := by
  induction hs with
  | nil => rfl
  | cons h rest ih =>
    unfold collectHeader
    split
    · rfl
    · rw [map_cons, ih, map_cons]

theorem collectHeader_getElem? (name value : Text) (hs : List RequestArgument) (i : Nat) :
    (collectHeader name value hs)[i]? = hs[i]?.map fun h =>
      if Collects (hs.map RequestArgument.key) i name then { h with value := cstr value }
      else h := by
  induction hs generalizing i with
  | nil => rfl
  | cons h rest ih =>
    unfold collectHeader
    cases hkey : h.key.equalsIgnoreCase (cstr name) with
    | true =>
      cases i with
      | zero => simp [Collects, collector, findIdx?_cons, hkey]
      | succ i => simp [Collects, collector, findIdx?_cons, hkey]
    | false =>
      cases i with
      | zero => simp [Collects, collector, findIdx?_cons, hkey]
      | succ i =>
        simp only [Bool.false_eq_true, if_false, getElem?_cons_succ, ih]
        simp [Collects, collector, findIdx?_cons, hkey]

variable {value : Text → Text} {handle : Text → Nat → Parsed → Parsed}

theorem Sends.keys (h : Sends value handle) (req : Text) (headerDiv : Nat) (p : Parsed) :
    (handle req headerDiv p).keys = p.keys := by
  rw [Parsed.keys, h.currentHeaders, collectHeader_keys, Parsed.keys]

theorem headerLoop_invariant {Inv : Parsed → Prop}
    (hstep : ∀ req headerDiv p, Inv p → Inv (handle req headerDiv p)) (lines : List Text)
    {p : Parsed} (hp : Inv p) : Inv (headerLoop handle lines p) := by
  induction lines generalizing p with
  | nil => exact hp
  | cons req rest ih =>
    unfold headerLoop
    dsimp only
    split
    · exact hp
    · split
      · exact hp
      · exact ih (hstep _ _ p hp)

theorem headerLoop_last {α : Type} {place : Parsed → α} {test : Text → Bool}
    {make : Text → α} {Same : Parsed → Prop}
    (hsame : ∀ req headerDiv p, Same p → Same (handle req headerDiv p))
    (hplace : ∀ req headerDiv p, Same p → place (handle req headerDiv p) =
      if test (headerName req headerDiv) then make (req.drop (headerDiv + 1)) else place p)
    (lines : List Text) {p : Parsed} (hp : Same p) :
    place (headerLoop handle lines p) = ((lastField test lines).map make).getD (place p) := by
  induction lines generalizing p with
  | nil => rfl
  | cons req rest ih =>
    unfold headerLoop lastField
    by_cases hnil : req = []
    · grind
    · rw [if_neg hnil, if_neg hnil]
      dsimp only
      by_cases hdiv : req.indexOf 58 0 = -1
      · grind
      · rw [if_neg hdiv, if_neg hdiv, ih (hsame _ _ p hp), hplace _ _ p hp]
        cases lastField test rest with
        | some raw => rfl
        | none => split <;> rfl

def Parsed.collected (i : Nat) (p : Parsed) : Text :=
  ((p.currentHeaders[i]?).map RequestArgument.value).getD []

theorem currentHeaders_eq_iff {p q : Parsed} (hkeys : p.keys = q.keys) :
    p.currentHeaders = q.currentHeaders ↔ ∀ i, p.collected i = q.collected i := by
  constructor
  · intro h i
    rw [Parsed.collected, Parsed.collected, h]
  · intro h
    have hlen : p.currentHeaders.length = q.currentHeaders.length := by
      simpa [Parsed.keys] using congrArg length hkeys
    apply ext_getElem hlen
    intro i hi hi'
    have hkey : p.currentHeaders[i].key = q.currentHeaders[i].key := by
      have := congrArg (·[i]?) hkeys
      simpa [Parsed.keys, hi, hi'] using this
    have hvalue : p.currentHeaders[i].value = q.currentHeaders[i].value := by
      have := h i
      simpa [Parsed.collected, hi, hi'] using this
    generalize p.currentHeaders[i] = a at hkey hvalue
    generalize q.currentHeaders[i] = b at hkey hvalue
    cases a
    cases b
    simp_all

theorem collector_lt {keys : List Text} {name : Text} {i : Nat} (h : Collects keys i name = true) :
    i < keys.length := by
  rw [Collects, decide_eq_true_eq, collector, findIdx?_eq_some_iff_getElem] at h
  exact h.1

theorem Sends.collected (h : Sends value handle) {keys : List Text} (i : Nat) (req : Text)
    (headerDiv : Nat) (p : Parsed) (hp : p.keys = keys) :
    (handle req headerDiv p).collected i =
      if Collects keys i (headerName req headerDiv) then cstr (value (req.drop (headerDiv + 1)))
      else p.collected i := by
  rw [Parsed.collected, h.currentHeaders, collectHeader_getElem?]
  rw [Parsed.keys] at hp
  rw [hp]
  cases hi : p.currentHeaders[i]? with
  | some a =>
    rw [Parsed.collected, hi]
    split <;> rfl
  | none =>
    have hout : ¬ Collects keys i (headerName req headerDiv) = true := by
      intro hc
      have hlt := collector_lt hc
      rw [← hp, length_map] at hlt
      rw [List.getElem?_eq_none_iff] at hi
      omega
    rw [if_neg hout, Parsed.collected, hi]
    rfl

/-! ## The two loops compared -/

/-- What the server has of the headers: those it collects, the host, and the length of a
body. -/
structure Agree (p q : Parsed) : Prop where
  currentHeaders : p.currentHeaders = q.currentHeaders
  hostHeader : p.hostHeader = q.hostHeader
  contentLength : p.contentLength = q.contentLength

/-- Trimming a value and cutting off its first byte come to the same where the value is used:
in the last line for each header to collect, up to a NUL, and in the last one for the host.
The last one for the content length says 0. -/
structure Spaced (keys lines : List Text) : Prop where
  collected : ∀ i raw, lastField (Collects keys i) lines = some raw →
    cstr (Text.trim raw) = cstr (raw.drop 1)
  host : ∀ raw, lastField isHost lines = some raw → Text.trim raw = raw.drop 1
  contentLength : ∀ raw, lastField isContentLength lines = some raw →
    Text.unsigned (atol (Text.trim raw)) = 0

theorem getD_map_eq_iff {α β : Type} (f g : α → β) (b : β) (o : Option α) :
    (o.map f).getD b = (o.map g).getD b ↔ ∀ a, o = some a → f a = g a := by
  cases o with
  | none => simp
  | some a => simp

/-- **The two loops read the same headers alike just when the values are spaced as the second
one expects.** -/
theorem headers_agree_iff {method other : HTTPMethod} (hbody : method.hasBody = true)
    (hother : other.hasBody = false) (lines : List Text) (p : Parsed) :
    Agree (parseHeaders method lines p) (parseHeaders other lines p) ↔ Spaced p.keys lines := by
  rw [parseHeaders, parseHeaders, hbody, hother, if_pos rfl, if_neg Bool.false_ne_true]
  set p₀ : Parsed := { p with
    currentHeaders := p.currentHeaders.map fun h => { h with value := [] }
    contentLength := 0, boundaryStr := [], isForm := false, isEncoded := false } with hp₀
  have hkeys : p₀.keys = p.keys := by
    simp [hp₀, Parsed.keys, Function.comp_def]
  have kept {value : Text → Text} {handle} (h : Sends value handle) (req headerDiv q)
      (hq : Parsed.keys q = p.keys) : (handle req headerDiv q).keys = p.keys :=
    (h.keys req headerDiv q).trans hq
  have collected {value : Text → Text} {handle} (h : Sends value handle) (i : Nat) :
      (headerLoop handle lines p₀).collected i =
        ((lastField (Collects p.keys i) lines).map (cstr ∘ value)).getD (p₀.collected i) :=
    headerLoop_last (kept h) (fun req d q hq => h.collected i req d q hq) lines hkeys
  have host {value : Text → Text} {handle} (h : Sends value handle) :
      (headerLoop handle lines p₀).hostHeader =
        ((lastField isHost lines).map value).getD p₀.hostHeader :=
    headerLoop_last (kept h) (fun req d q _ => h.hostHeader req d q) lines hkeys
  have hlength : (headerLoop formHeader lines p₀).contentLength =
      ((lastField isContentLength lines).map fun raw =>
        Text.unsigned (atol (Text.trim raw))).getD 0 :=
    headerLoop_last (kept formHeader_sends) (fun req d q _ => formHeader_contentLength req d q)
      lines hkeys
  have hnone : (headerLoop otherHeader lines p₀).contentLength =
      ((lastField isContentLength lines).map fun _ => 0).getD 0 := by
    have hzero : (headerLoop otherHeader lines p₀).contentLength = 0 :=
      headerLoop_invariant (fun req d q hq => (otherHeader_contentLength req d q).trans hq) lines
        rfl
    rw [hzero]
    cases lastField isContentLength lines <;> rfl
  have hsame : (headerLoop formHeader lines p₀).keys = (headerLoop otherHeader lines p₀).keys :=
    (headerLoop_invariant (kept formHeader_sends) lines hkeys).trans
      (headerLoop_invariant (kept otherHeader_sends) lines hkeys).symm
  constructor
  · rintro ⟨hheaders, hhost, hlen⟩
    refine ⟨fun i => ?_, ?_, ?_⟩
    · have hi := (currentHeaders_eq_iff hsame).mp hheaders i
      rw [collected formHeader_sends, collected otherHeader_sends] at hi
      exact (getD_map_eq_iff _ _ _ _).mp hi
    · rw [host formHeader_sends, host otherHeader_sends] at hhost
      exact (getD_map_eq_iff _ _ _ _).mp hhost
    · grind
  · rintro ⟨hheaders, hhost, hlen⟩
    refine ⟨(currentHeaders_eq_iff hsame).mpr fun i => ?_, ?_, ?_⟩
    · rw [collected formHeader_sends, collected otherHeader_sends]
      exact (getD_map_eq_iff _ _ _ _).mpr (hheaders i)
    · rw [host formHeader_sends, host otherHeader_sends]
      exact (getD_map_eq_iff _ _ _ _).mpr hhost
    · rw [hlength, hnone]
      exact (getD_map_eq_iff _ _ _ _).mpr hlen

def sampleParsed : Parsed where
  currentHeaders := [⟨text "Authorization", []⟩, ⟨text "If-None-Match", []⟩]
  hostHeader := []
  keepAlive := true
  contentLength := 0
  boundaryStr := []
  isForm := false
  isEncoded := false

theorem headers_agree_iff_spaced :
    Agree (parseHeaders .HTTP_POST [text "Host: x"] sampleParsed)
      (parseHeaders .HTTP_GET [text "Host: x"] sampleParsed) ↔
      Spaced sampleParsed.keys [text "Host: x"] :=
  headers_agree_iff rfl rfl _ _

/-- Without a blank behind the colon the second loop loses the first byte of the value. -/
theorem not_headers_agree :
    ¬ ∀ (method other : HTTPMethod) (lines : List Text) (p : Parsed), method.hasBody = true →
      other.hasBody = false → Agree (parseHeaders method lines p) (parseHeaders other lines p) := by
  intro h
  have hhost := (h .HTTP_POST .HTTP_GET [text "Host:x"] sampleParsed rfl rfl).hostHeader
  exact absurd hhost (by decide +kernel)

end Http
