import RalioFirmware.Http.Headers

/-!
# Digest authentication

The server takes the parameters of an `Authorization: Digest` header out of its raw text:
it looks for the name of a parameter with `indexOf`, and what stands behind the first place
it is found at counts as the value.  A name can stand in front of its parameter, as the end
of another name or in another value.

`Reads` says what is found behind a key.  `authenticateDigest_judges_iff` says which headers
are judged by the values they were made of.
-/

namespace Http

open CString List

/-- `indexOf` for a string. -/
def Text.indexOfText (s needle : Text) (fromIndex : Nat) : Int :=
  if fromIndex ≥ s.length then -1
  else match strstr (cstr needle) (s.drop fromIndex) with
    | none => -1
    | some i => (fromIndex + i : Nat)

def extractParam (authReq param : Text) (delimit : UInt8) : Text :=
  let start := authReq.indexOfText param 0
  if start = -1 then []
  else
    authReq.substring (start.toNat + param.length)
      (Text.unsigned (authReq.indexOf delimit (start.toNat + param.length)))

/-- What the server knows of a request and of the challenge it sent. -/
structure Challenge where
  currentMethod : HTTPMethod
  snonce : Text
  sopaque : Text
  srealm : Text

def methodPrefix : HTTPMethod → Text
  | .HTTP_GET => text "GET:"
  | .HTTP_POST => text "POST:"
  | .HTTP_PUT => text "PUT:"
  | .HTTP_DELETE => text "DELETE:"
  | _ => text "GET:"

def hasQopAuth (authReq : Text) : Bool :=
  authReq.indexOfText (text "qop=auth") 0 ≠ -1 ||
    authReq.indexOfText (text "qop=\"auth\"") 0 ≠ -1

/-- `authenticateDigest`, for the value of the header.  `md5` is the hash of the ROM, in
hexadecimal; it gets a text up to its NUL. -/
def authenticateDigest (md5 : Text → Text) (c : Challenge) (authReq username H1 : Text) : Bool :=
  if authReq.length = 0 then false
  else if !authReq.startsWith (text "Digest") then false
  else
    let authReq := authReq.substring 7 authReq.length
    let user := extractParam authReq (text "username=\"") 34
    if user.length = 0 || !user.equals username then false
    else
      let realm := extractParam authReq (text "realm=\"") 34
      let nonce := extractParam authReq (text "nonce=\"") 34
      let uri := extractParam authReq (text "uri=\"") 34
      let response := extractParam authReq (text "response=\"") 34
      let opaqueValue := extractParam authReq (text "opaque=\"") 34
      if realm.length = 0 || nonce.length = 0 || uri.length = 0 || response.length = 0 ||
          opaqueValue.length = 0 then false
      else if !opaqueValue.equals c.sopaque || !nonce.equals c.snonce ||
          !realm.equals c.srealm then false
      else
        let nc := if hasQopAuth authReq then extractParam authReq (text "nc=") 44 else []
        let cnonce :=
          if hasQopAuth authReq then extractParam authReq (text "cnonce=\"") 34 else []
        let H2 := md5 (cstr (methodPrefix c.currentMethod ++ uri))
        let responsecheck :=
          if hasQopAuth authReq then
            md5 (cstr (H1 ++ text ":" ++ nonce ++ text ":" ++ nc ++ text ":" ++ cnonce ++
              text ":auth:" ++ H2))
          else md5 (cstr (H1 ++ text ":" ++ nonce ++ text ":" ++ H2))
        response.equals responsecheck

/-! ## What is found behind a key -/

/-- Behind the first place of the key the value stands, up to the delimiter; without such a
place there is none. -/
def Reads (s key : Text) (delimit : UInt8) (value : Text) : Prop :=
  (value = [] ∧ ∀ j, ¬ key <+: s.drop j) ∨
    ∃ i, key <+: s.drop i ∧ (∀ j < i, ¬ key <+: s.drop j) ∧
      value = (s.drop (i + key.length)).takeWhile (· ≠ delimit)

variable {s : Text} {delimit : UInt8}

theorem Reads.unique {key : Text} {v w : Text} (hv : Reads s key delimit v)
    (hw : Reads s key delimit w) : v = w := by
  rcases hv with ⟨rfl, hnone⟩ | ⟨i, hi, hfirst, rfl⟩
  · rcases hw with ⟨rfl, -⟩ | ⟨j, hj, -⟩
    · rfl
    · exact absurd hj (hnone j)
  · rcases hw with ⟨-, hnone⟩ | ⟨j, hj, hfirst', rfl⟩
    · exact absurd hi (hnone i)
    · obtain rfl : i = j := by
        rcases Nat.lt_trichotomy i j with hlt | heq | hgt
        · exact absurd hi (hfirst' i hlt)
        · exact heq
        · exact absurd hj (hfirst j hgt)
      rfl

/-- A text without a NUL, short enough for a `String`. -/
structure Plain (s : Text) : Prop where
  zero : (0 : UInt8) ∉ s
  short : s.length < 65536

theorem Plain.occurs_iff (hs : Plain s) {key : Text} {i : Nat} (hkey : key ≠ []) :
    Occurs key s i ↔ key <+: s.drop i := by
  rw [Occurs, cstr_eq_self hs.zero]
  constructor
  · exact fun h => h.2
  · intro h
    refine ⟨?_, h⟩
    by_contra hgt
    rw [drop_eq_nil_of_le (by omega), prefix_nil] at h
    exact hkey h

theorem Plain.indexOfText (hs : Plain s) {key : Text} (hkey : key ≠ [])
    (hzero : (0 : UInt8) ∉ key) :
    (s.indexOfText key 0 = -1 ∧ ∀ j, ¬ key <+: s.drop j) ∨
      ∃ i : Nat, s.indexOfText key 0 = i ∧ key <+: s.drop i ∧ ∀ j < i, ¬ key <+: s.drop j := by
  unfold Text.indexOfText
  by_cases hnil : 0 ≥ s.length
  · rw [if_pos hnil]
    obtain rfl : s = [] := length_eq_zero_iff.mp (by omega)
    refine .inl ⟨rfl, fun j h => hkey ?_⟩
    rwa [drop_nil, prefix_nil] at h
  · rw [if_neg hnil, cstr_eq_self hzero, drop_zero]
    cases hfound : strstr key s with
    | none =>
      refine .inl ⟨rfl, fun j h => strstr_none hfound j ?_⟩
      exact (hs.occurs_iff hkey).mpr h
    | some i =>
      obtain ⟨hi, hfirst⟩ := strstr_some hfound
      refine .inr ⟨i, by simp, (hs.occurs_iff hkey).mp hi, fun j hj h => hfirst j hj ?_⟩
      exact (hs.occurs_iff hkey).mpr h

theorem strchr_takeWhile {ch : UInt8} (hch : ch ≠ 0) {mem : Text} (hzero : (0 : UInt8) ∉ mem) :
    mem.takeWhile (· ≠ ch) =
      match strchr ch mem with
      | none => mem
      | some i => mem.take i := by
  induction mem with
  | nil =>
    rw [strchr, if_neg hch]
    rfl
  | cons b rest ih =>
    have hb : b ≠ 0 := fun h => hzero (h ▸ mem_cons_self)
    have hrest := ih fun h => hzero (mem_cons_of_mem b h)
    rw [strchr]
    by_cases hbch : b = ch
    · simp [hbch]
    · rw [if_neg hbch, if_neg hb, takeWhile_cons_of_pos (by simpa using hbch), hrest]
      cases strchr ch rest <;> simp

theorem Plain.substring_indexOf (hs : Plain s) (hdelimit : delimit ≠ 0)
    (start : Nat) :
    s.substring start (Text.unsigned (s.indexOf delimit start)) =
      (s.drop start).takeWhile (· ≠ delimit) := by
  have hshort := hs.short
  unfold Text.indexOf
  by_cases hout : start ≥ s.length
  · have hdrop : s.drop start = [] := drop_eq_nil_of_le hout
    rw [if_pos hout, hdrop, show Text.unsigned (-1) = 4294967295 by decide, Text.substring]
    by_cases hgt : start > 4294967295
    · rw [if_pos hgt]
      dsimp only
      rw [if_pos (by omega)]
      rfl
    · rw [if_neg hgt]
      dsimp only
      rw [if_pos hout]
      rfl
  · rw [if_neg hout]
    have hzero : (0 : UInt8) ∉ s.drop start := fun h => hs.zero (mem_of_mem_drop h)
    rw [strchr_takeWhile hdelimit hzero]
    cases hfound : strchr delimit (s.drop start) with
    | none =>
      dsimp only
      rw [show Text.unsigned (-1) = 4294967295 by decide, Text.substring, if_neg (by omega)]
      dsimp only
      rw [if_neg hout, Nat.min_eq_right (by omega)]
      exact take_of_length_le (by rw [length_drop])
    | some i =>
      have hlt := strchr_lt hdelimit hfound
      rw [length_drop] at hlt
      dsimp only
      rw [Text.unsigned, show (((start + i : Nat) : Int) % 4294967296).toNat = start + i by omega,
        Text.substring, if_neg (by omega)]
      dsimp only
      rw [if_neg hout, Nat.min_eq_left (by omega), Nat.add_sub_cancel_left]

/-- **`_extractParam` finds what `Reads` says.** -/
theorem Plain.extractParam_reads (hs : Plain s) {key : Text} (hkey : key ≠ [])
    (hzero : (0 : UInt8) ∉ key) (hdelimit : delimit ≠ 0) :
    Reads s key delimit (extractParam s key delimit) := by
  unfold extractParam
  rcases hs.indexOfText hkey hzero with ⟨hnone, h⟩ | ⟨i, hi, h, hfirst⟩
  · dsimp only
    rw [if_pos hnone]
    exact .inl ⟨rfl, h⟩
  · dsimp only
    rw [hi, if_neg (by omega)]
    refine .inr ⟨i, h, hfirst, ?_⟩
    rw [Int.toNat_natCast, hs.substring_indexOf hdelimit]

theorem Plain.extractParam_iff (hs : Plain s) {key : Text} (hkey : key ≠ [])
    (hzero : (0 : UInt8) ∉ key) (hdelimit : delimit ≠ 0) {value : Text} :
    extractParam s key delimit = value ↔ Reads s key delimit value := by
  have hreads := hs.extractParam_reads hkey hzero hdelimit
  constructor
  · rintro rfl
    exact hreads
  · exact fun h => hreads.unique h

theorem Reads.plain {key : Text} (hs : Plain s) {value : Text}
    (h : Reads s key delimit value) : (0 : UInt8) ∉ value := by
  rcases h with ⟨rfl, -⟩ | ⟨i, -, -, rfl⟩
  · simp
  · exact fun hmem => hs.zero (mem_of_mem_drop ((List.takeWhile_prefix _).subset hmem))

theorem Plain.hasQopAuth_iff (hs : Plain s) :
    hasQopAuth s = true ↔ (∃ j, text "qop=auth" <+: s.drop j) ∨
      ∃ j, text "qop=\"auth\"" <+: s.drop j := by
  have found {key : Text} (hkey : key ≠ []) (hzero : (0 : UInt8) ∉ key) :
      s.indexOfText key 0 ≠ -1 ↔ ∃ j, key <+: s.drop j := by
    rcases hs.indexOfText hkey hzero with ⟨hnone, h⟩ | ⟨i, hi, h, -⟩
    · exact iff_of_false (fun hne => hne hnone) fun ⟨j, hj⟩ => h j hj
    · exact iff_of_true (by omega) ⟨i, h⟩
  rw [hasQopAuth, Bool.or_eq_true, decide_eq_true_eq, decide_eq_true_eq,
    found (by decide) (by decide), found (by decide) (by decide)]

/-! ## Headers and what they stand for -/

inductive Param
  | username
  | realm
  | nonce
  | uri
  | response
  | opaqueValue
  | qop
  | nc
  | cnonce
deriving DecidableEq

def Param.name : Param → Text
  | .username => text "username"
  | .realm => text "realm"
  | .nonce => text "nonce"
  | .uri => text "uri"
  | .response => text "response"
  | .opaqueValue => text "opaque"
  | .qop => text "qop"
  | .nc => text "nc"
  | .cnonce => text "cnonce"

/-- The parameters without which the server refuses a header. -/
def Param.required : List Param := [.username, .realm, .nonce, .uri, .response, .opaqueValue]

/-- A parameter as it stands in a header: the values are quoted, but for the count, and
for the `qop` if the client leaves its quotes out. -/
def Param.render (values : Param → Text) (qopQuoted : Bool) (p : Param) : Text :=
  if p = .nc ∨ p = .qop ∧ qopQuoted = false then p.name ++ text "=" ++ values p
  else p.name ++ text "=\"" ++ values p ++ text "\""

/-- The parameters in an order, with a comma and `gap` blanks between them. -/
def parameters (values : Param → Text) (qopQuoted : Bool) (gap : Nat) (order : List Param) : Text :=
  List.intercalate (44 :: List.replicate gap 32) (order.map (Param.render values qopQuoted))

def digestHeader (values : Param → Text) (qopQuoted : Bool) (gap : Nat) (order : List Param) :
    Text :=
  text "Digest " ++ parameters values qopQuoted gap order

def HTTPMethod.name : HTTPMethod → Text
  | .HTTP_ANY => text "ANY"
  | .HTTP_GET => text "GET"
  | .HTTP_HEAD => text "HEAD"
  | .HTTP_POST => text "POST"
  | .HTTP_PUT => text "PUT"
  | .HTTP_PATCH => text "PATCH"
  | .HTTP_DELETE => text "DELETE"
  | .HTTP_OPTIONS => text "OPTIONS"

/-- What the digest is the hash of; `counted` is what the newer one has between the nonce and
the `qop`. -/
def digestText (newer : Bool) (H1 nonce counted H2 : Text) : Text :=
  H1 ++ text ":" ++ nonce ++ text ":" ++ (if newer then counted ++ text ":auth:" else []) ++ H2

/-- The digest of the values: the newer one for `qop=auth`. -/
def digest (md5 : Text → Text) (method : HTTPMethod) (values : Param → Text) (H1 : Text) : Text :=
  md5 (cstr (digestText (values .qop = text "auth") H1 (values .nonce)
    (values .nc ++ text ":" ++ values .cnonce)
    (md5 (cstr (method.name ++ text ":" ++ values .uri)))))

/-- The values are those of a client that the challenge was for and that knows the
password. -/
structure Accepts (md5 : Text → Text) (c : Challenge) (username H1 : Text)
    (values : Param → Text) : Prop where
  username : values .username = username
  realm : values .realm = c.srealm
  nonce : values .nonce = c.snonce
  opaqueValue : values .opaqueValue = c.sopaque
  response : values .response = digest md5 c.currentMethod values H1

/-- A header is judged by its values: whatever the hash, the challenge and the account, it is
accepted just when the values are right. -/
def Judged (method : HTTPMethod) (values : Param → Text) (header : Text) : Prop :=
  ∀ (md5 : Text → Text) (snonce sopaque srealm username H1 : Text),
    authenticateDigest md5 ⟨method, snonce, sopaque, srealm⟩ header username H1 = true ↔
      Accepts md5 ⟨method, snonce, sopaque, srealm⟩ username H1 values

/-- The parameters of a header read as they were written: behind the first place of each
name stands the value of its parameter, and the `qop` is there when it should be.  The method
is one of those that the server hashes under their own name. -/
structure Readable (method : HTTPMethod) (values : Param → Text) (s : Text) : Prop where
  method : method ∈ [HTTPMethod.HTTP_GET, .HTTP_POST, .HTTP_PUT, .HTTP_DELETE]
  required : ∀ p ∈ Param.required,
    values p ≠ [] ∧ Reads s (p.name ++ text "=\"") 34 (values p)
  qop : ((∃ j, text "qop=auth" <+: s.drop j) ∨ ∃ j, text "qop=\"auth\"" <+: s.drop j) ↔
    values .qop = text "auth"
  counted : values .qop = text "auth" → ∃ nc cnonce, Reads s (text "nc=") 44 nc ∧
    Reads s (text "cnonce=\"") 34 cnonce ∧
    nc ++ text ":" ++ cnonce = values .nc ++ text ":" ++ values .cnonce

/-! ## The verdict -/

/-- What the server takes for the value of a quoted parameter. -/
def found (s : Text) (p : Param) : Text := extractParam s (p.name ++ text "=\"") 34

def responsecheck (md5 : Text → Text) (method : HTTPMethod) (s H1 : Text) : Text :=
  md5 (cstr (digestText (hasQopAuth s) H1 (found s .nonce)
    (extractParam s (text "nc=") 44 ++ text ":" ++ found s .cnonce)
    (md5 (cstr (methodPrefix method ++ found s .uri)))))

theorem Plain.found_iff (hs : Plain s) {p : Param} {value : Text} :
    found s p = value ↔ Reads s (p.name ++ text "=\"") 34 value :=
  hs.extractParam_iff (by cases p <;> decide) (by cases p <;> decide) (by decide)

/-- **When a header is accepted.** -/
theorem Plain.authenticateDigest_iff (hs : Plain s) (md5 : Text → Text) (c : Challenge)
    (username H1 : Text) :
    authenticateDigest md5 c (text "Digest " ++ s) username H1 = true ↔
      (∀ p ∈ Param.required, found s p ≠ []) ∧ found s .username = username ∧
        found s .realm = c.srealm ∧ found s .nonce = c.snonce ∧
        found s .opaqueValue = c.sopaque ∧
        found s .response = responsecheck md5 c.currentMethod s H1 := by
  have hequals (p : Param) (t : Text) : (found s p).equals t = decide (found s p = t) :=
    Text.equals_eq ((hs.found_iff.mp rfl).plain hs) t
  have hlen : ¬ (text "Digest " ++ s).length = 0 := by
    rw [length_append, show (text "Digest ").length = 7 by decide]
    omega
  have hstart : Text.startsWith (text "Digest " ++ s) (text "Digest") = true := by
    have htake : (text "Digest " ++ s).take (text "Digest").length = text "Digest" := by
      rw [take_append_of_le_length (by decide)]
      decide
    rw [Text.startsWith, htake, length_append]
    simp only [decide_true, Bool.and_true, decide_eq_true_eq]
    exact Nat.le_trans (show (text "Digest").length ≤ (text "Digest ").length by decide)
      (Nat.le_add_right _ _)
  have hrest : Text.substring (text "Digest " ++ s) 7 (text "Digest " ++ s).length = s := by
    rw [substring_length, ← show (text "Digest ").length = 7 by decide]
    exact drop_left
  have hcheck : responsecheck md5 c.currentMethod s H1 =
      if hasQopAuth s then
        md5 (cstr (H1 ++ text ":" ++ found s .nonce ++ text ":" ++
          (if hasQopAuth s then extractParam s (text "nc=") 44 else []) ++ text ":" ++
          (if hasQopAuth s then found s .cnonce else []) ++ text ":auth:" ++
          md5 (cstr (methodPrefix c.currentMethod ++ found s .uri))))
      else md5 (cstr (H1 ++ text ":" ++ found s .nonce ++ text ":" ++
          md5 (cstr (methodPrefix c.currentMethod ++ found s .uri)))) := by
    rw [responsecheck, digestText]
    split <;> simp
  unfold authenticateDigest
  rw [if_neg hlen, hstart, hrest]
  simp only [Bool.not_true, Bool.false_eq_true, if_false,
    show extractParam s (text "username=\"") 34 = found s .username from rfl,
    show extractParam s (text "realm=\"") 34 = found s .realm from rfl,
    show extractParam s (text "nonce=\"") 34 = found s .nonce from rfl,
    show extractParam s (text "uri=\"") 34 = found s .uri from rfl,
    show extractParam s (text "response=\"") 34 = found s .response from rfl,
    show extractParam s (text "opaque=\"") 34 = found s .opaqueValue from rfl,
    show extractParam s (text "cnonce=\"") 34 = found s .cnonce from rfl,
    hequals, length_eq_zero_iff]
  rw [← hcheck]
  generalize responsecheck md5 c.currentMethod s H1 = check
  clear hcheck hrest hstart hlen hequals
  simp only [Param.required, mem_cons, not_mem_nil, or_false, forall_eq_or_imp,
    forall_eq, Bool.or_eq_true, Bool.not_eq_true', decide_eq_true_eq, decide_eq_false_iff_not]
  split_ifs with huser hmissing hother
  · simp only [false_iff]
    tauto
  · simp only [false_iff]
    tauto
  · simp only [false_iff]
    tauto
  · rw [decide_eq_true_eq]
    tauto

/-! ## Headers that are judged by their values -/

theorem methodPrefix_append_iff (method : HTTPMethod) (uri uri' : Text) :
    methodPrefix method ++ uri = method.name ++ text ":" ++ uri' ↔
      method ∈ [HTTPMethod.HTTP_GET, .HTTP_POST, .HTTP_PUT, .HTTP_DELETE] ∧ uri = uri' := by
  have hsame {pre name : Text} (h : pre = name ++ text ":") :
      pre ++ uri = name ++ text ":" ++ uri' ↔ uri = uri' := by
    rw [h, append_cancel_left_eq]
  have helse {name : Text} (hname : name.head? ≠ some 71) (hne : name ≠ []) :
      ¬ text "GET:" ++ uri = name ++ text ":" ++ uri' := by
    intro h
    have hhead := congrArg head? h
    obtain ⟨b, rest, rfl⟩ := exists_cons_of_ne_nil hne
    rw [append_assoc, head?_append, head?_append,
      show (text "GET:").head? = some 71 by decide] at hhead
    exact hname hhead.symm
  cases method with
  | HTTP_GET => simpa [methodPrefix] using hsame (by decide)
  | HTTP_POST => simpa [methodPrefix] using hsame (by decide)
  | HTTP_PUT => simpa [methodPrefix] using hsame (by decide)
  | HTTP_DELETE => simpa [methodPrefix] using hsame (by decide)
  | HTTP_ANY => simpa [methodPrefix] using helse (by decide) (by decide)
  | HTTP_HEAD => simpa [methodPrefix] using helse (by decide) (by decide)
  | HTTP_PATCH => simpa [methodPrefix] using helse (by decide) (by decide)
  | HTTP_OPTIONS => simpa [methodPrefix] using helse (by decide) (by decide)

theorem digestText_cancel {newer newer' : Bool} {H1 nonce counted counted' H2 H2' : Text}
    (hlen : H2.length = H2'.length)
    (h : digestText newer H1 nonce counted H2 = digestText newer' H1 nonce counted' H2') :
    newer = newer' ∧ (newer = true → counted = counted') ∧ H2 = H2' := by
  obtain ⟨hfront, hH2⟩ := append_inj' h hlen
  have hmid := append_cancel_left hfront
  refine ⟨?_, ?_, hH2⟩
  · have hmidlen := congrArg length hmid
    have hauth : (text ":auth:").length = 6 := by decide
    cases newer <;> cases newer' <;> simp_all
  · rintro rfl
    cases newer' with
    | true => simpa using hmid
    | false => exact absurd hmid (by simp [show text ":auth:" ≠ [] by decide])

/-- A hash that tells one pair of texts from all others: the text that begins with a byte of
its own, and the one whose hash that text ends with. -/
def probe (inner outer response : Text) (s : Text) : Text :=
  if s.head? = some 1 then (if s = outer then response else response ++ [2])
  else if s = inner then [1] else [2]

theorem plain_digestText {newer : Bool} {H1 nonce counted H2 : Text} (hH1 : (0 : UInt8) ∉ H1)
    (hnonce : (0 : UInt8) ∉ nonce) (hcounted : (0 : UInt8) ∉ counted) (hH2 : (0 : UInt8) ∉ H2) :
    (0 : UInt8) ∉ digestText newer H1 nonce counted H2 := by
  have hcolon : (0 : UInt8) ∉ text ":" := by decide
  have hauth : (0 : UInt8) ∉ text ":auth:" := by decide
  cases newer <;> simp [digestText, *]

/-- What is hashed in front of a URI has no NUL and does not begin with the byte of the
probe. -/
structure Named (pre : Text) : Prop where
  zero : (0 : UInt8) ∉ pre
  head : pre.head? ≠ some 1
  ne_nil : pre ≠ []

theorem named_name (method : HTTPMethod) : Named (method.name ++ text ":") := by
  cases method <;> exact ⟨by decide, by decide, by decide⟩

theorem named_methodPrefix (method : HTTPMethod) : Named (methodPrefix method) := by
  cases method <;> exact ⟨by decide, by decide, by decide⟩

theorem Named.probe {pre uri : Text} (h : Named pre) (huri : (0 : UInt8) ∉ uri)
    (inner outer response : Text) :
    Http.probe inner outer response (cstr (pre ++ uri)) =
      if pre ++ uri = inner then [1] else [2] := by
  have hzero : (0 : UInt8) ∉ pre ++ uri := by
    rw [mem_append, not_or]
    exact ⟨h.zero, huri⟩
  have hhead : ¬ (pre ++ uri).head? = some 1 := by
    rw [head?_append_of_ne_nil _ h.ne_nil]
    exact h.head
  rw [cstr_eq_self hzero, Http.probe, if_neg hhead]

theorem probe_outer {newer : Bool} {nonce counted H2 : Text}
    (hzero : (0 : UInt8) ∉ digestText newer [1] nonce counted H2) (inner outer response : Text) :
    probe inner outer response (cstr (digestText newer [1] nonce counted H2)) =
      if digestText newer [1] nonce counted H2 = outer then response else response ++ [2] := by
  rw [cstr_eq_self hzero, probe, if_pos (by simp [digestText])]

variable {method : HTTPMethod}

theorem Readable.responsecheck_eq {values : Param → Text}
    (hs : Plain s) (h : Readable method values s) (md5 : Text → Text) (H1 : Text) :
    responsecheck md5 method s H1 = digest md5 method values H1 := by
  have huri : found s .uri = values .uri := hs.found_iff.mpr (h.required .uri (by decide)).2
  have hnonce : found s .nonce = values .nonce := hs.found_iff.mpr (h.required .nonce (by decide)).2
  have hinner : methodPrefix method ++ found s .uri =
      method.name ++ text ":" ++ values .uri :=
    (methodPrefix_append_iff _ _ _).mpr ⟨h.method, huri⟩
  have hqop : hasQopAuth s = decide (values .qop = text "auth") := by
    rw [Bool.eq_iff_iff, hs.hasQopAuth_iff, h.qop, decide_eq_true_eq]
  rw [responsecheck, digest, hinner, hnonce, hqop]
  by_cases hauth : values .qop = text "auth"
  · obtain ⟨nc, cnonce, hnc, hcnonce, hjoin⟩ := h.counted hauth
    have hnc' : extractParam s (text "nc=") 44 = nc :=
      (hs.extractParam_iff (by decide) (by decide) (by decide)).mpr hnc
    have hcnonce' : found s .cnonce = cnonce := hs.found_iff.mpr hcnonce
    rw [hnc', hcnonce', hjoin]
  · simp [hauth, digestText]

theorem Plain.found_plain (hs : Plain s) (p : Param) : (0 : UInt8) ∉ found s p :=
  (hs.found_iff.mp rfl).plain hs

theorem Judged.found {values : Param → Text} (hs : Plain s)
    (h : Judged method values (text "Digest " ++ s)) :
    (∀ p ∈ Param.required, Http.found s p ≠ []) ∧
      ∀ p ∈ Param.required, p ≠ .uri → Http.found s p = values p := by
  have haccepts : Accepts (fun _ => values .response)
      ⟨method, values .nonce, values .opaqueValue, values .realm⟩ (values .username) [] values :=
    ⟨rfl, rfl, rfl, rfl, rfl⟩
  have hverdict := (h _ _ _ _ _ _).mpr haccepts
  rw [hs.authenticateDigest_iff] at hverdict
  obtain ⟨hne, hu, hr, hn, ho, hresp⟩ := hverdict
  refine ⟨hne, fun p hp huri => ?_⟩
  cases p with
  | username => exact hu
  | realm => exact hr
  | nonce => exact hn
  | uri => exact absurd rfl huri
  | response => exact hresp
  | opaqueValue => exact ho
  | qop => exact absurd hp (by decide)
  | nc => exact absurd hp (by decide)
  | cnonce => exact absurd hp (by decide)

theorem Judged.digest {values : Param → Text} (hs : Plain s)
    (hvalues : ∀ p, (0 : UInt8) ∉ values p) (h : Judged method values (text "Digest " ++ s)) :
    methodPrefix method ++ Http.found s .uri = method.name ++ text ":" ++ values .uri ∧
      hasQopAuth s = decide (values .qop = text "auth") ∧
      (hasQopAuth s = true → extractParam s (text "nc=") 44 ++ text ":" ++ Http.found s .cnonce =
        values .nc ++ text ":" ++ values .cnonce) := by
  have hresponse := (h.found hs).2 .response (by decide) (by decide)
  have hnonce := (h.found hs).2 .nonce (by decide) (by decide)
  have hnc : (0 : UInt8) ∉ extractParam s (text "nc=") 44 :=
    (hs.extractParam_reads (by decide) (by decide) (by decide)).plain hs
  have hcolon : (0 : UInt8) ∉ text ":" := by decide
  generalize hcount : values .nc ++ text ":" ++ values .cnonce = counted
  generalize hcount' : extractParam s (text "nc=") 44 ++ text ":" ++ Http.found s .cnonce = counted'
  have hzero : (0 : UInt8) ∉ counted := by grind
  have hzero' : (0 : UInt8) ∉ counted' := by
    rw [← hcount']
    simp [hs.found_plain, hnc, hcolon]
  generalize hinner : method.name ++ text ":" ++ values .uri = inner
  generalize hauth : decide (values .qop = text "auth") = newer
  generalize houter : digestText newer [1] (values .nonce) counted [1] = outer
  have hright : Http.digest (probe inner outer (values .response)) method values [1] =
      values .response := by
    rw [Http.digest, (named_name method).probe (hvalues .uri), if_pos hinner, hcount, hauth,
      probe_outer (plain_digestText (by decide) (hvalues .nonce) hzero (by decide)), if_pos houter]
  have hverdict := (h (probe inner outer (values .response)) (values .nonce) (values .opaqueValue)
    (values .realm) (values .username) [1]).mpr ⟨rfl, rfl, rfl, rfl, hright.symm⟩
  rw [hs.authenticateDigest_iff] at hverdict
  obtain ⟨-, -, -, -, -, hresp⟩ := hverdict
  rw [hresponse, responsecheck, (named_methodPrefix method).probe (hs.found_plain .uri), hcount',
    hnonce] at hresp
  rw [probe_outer (plain_digestText (by decide) (hvalues .nonce) hzero' (by split <;> decide))]
    at hresp
  have houter' : digestText (hasQopAuth s) [1] (values .nonce) counted'
      (if methodPrefix method ++ Http.found s .uri = inner then [1] else [2]) = outer := by
    by_contra hne
    rw [if_neg hne] at hresp
    exact absurd (congrArg length hresp) (by simp)
  rw [← houter] at houter'
  obtain ⟨hqop, hcounted, hH2⟩ := digestText_cancel (by split <;> rfl) houter'
  refine ⟨?_, hqop, hcounted⟩
  by_contra hne
  rw [if_neg hne] at hH2
  exact absurd hH2 (by decide)

/-- **A header is judged by its values just when it reads as it was written.** -/
theorem judged_iff {values : Param → Text} (hs : Plain s)
    (hvalues : ∀ p, (0 : UInt8) ∉ values p) :
    Judged method values (text "Digest " ++ s) ↔ Readable method values s := by
  constructor
  · intro h
    obtain ⟨hne, hfound⟩ := h.found hs
    obtain ⟨hinner, hqop, hcounted⟩ := h.digest hs hvalues
    obtain ⟨hmethod, huri⟩ := (methodPrefix_append_iff _ _ _).mp hinner
    have heq (p : Param) (hp : p ∈ Param.required) : found s p = values p := by grind
    refine ⟨hmethod, fun p hp => ⟨heq p hp ▸ hne p hp, hs.found_iff.mp (heq p hp)⟩, ?_, ?_⟩
    · rw [← hs.hasQopAuth_iff, hqop, decide_eq_true_eq]
    · intro hauth
      refine ⟨_, _, hs.extractParam_reads (by decide) (by decide) (by decide),
        hs.extractParam_reads (by decide) (by decide) (by decide), hcounted ?_⟩
      rw [hqop, decide_eq_true_eq]
      exact hauth
  · intro h md5 snonce sopaque srealm username H1
    have hfound (p : Param) (hp : p ∈ Param.required) : found s p = values p :=
      hs.found_iff.mpr (h.required p hp).2
    rw [hs.authenticateDigest_iff, h.responsecheck_eq hs, hfound _ (by decide),
      hfound _ (by decide), hfound _ (by decide), hfound _ (by decide), hfound _ (by decide)]
    constructor
    · rintro ⟨-, hu, hr, hn, ho, hresp⟩
      exact ⟨hu, hr, hn, ho, hresp⟩
    · rintro ⟨hu, hr, hn, ho, hresp⟩
      exact ⟨fun p hp => hfound p hp ▸ (h.required p hp).1, hu, hr, hn, ho, hresp⟩

theorem parameters_plain {values : Param → Text} (hvalues : ∀ p, (0 : UInt8) ∉ values p)
    (qopQuoted : Bool) (gap : Nat) (order : List Param) :
    (0 : UInt8) ∉ parameters values qopQuoted gap order := by
  have hrender (p : Param) : (0 : UInt8) ∉ p.render values qopQuoted := by
    have hname : (0 : UInt8) ∉ p.name := by cases p <;> decide
    have heq : (0 : UInt8) ∉ text "=" := by decide
    have hopen : (0 : UInt8) ∉ text "=\"" := by decide
    have hclose : (0 : UInt8) ∉ text "\"" := by decide
    rw [Param.render]
    split <;> simp [hname, heq, hopen, hclose, hvalues]
  have hcomma : (0 : UInt8) ∉ 44 :: replicate gap 32 := by
    simp
  rw [parameters]
  induction order with
  | nil => simp
  | cons p rest ih =>
    cases rest with
    | nil => simpa using hrender p
    | cons q rest =>
      rw [map_cons, map_cons, intercalate_cons_cons]
      rw [map_cons] at ih
      simp only [mem_append, not_or]
      exact ⟨⟨hrender p, hcomma⟩, ih⟩

/-- **A digest header is judged by the values it was made of, in the order it has them,
just when it reads as it was written.** -/
theorem authenticateDigest_judges_iff (method : HTTPMethod) {values : Param → Text}
    (hvalues : ∀ p, (0 : UInt8) ∉ values p) (qopQuoted : Bool) (gap : Nat) (order : List Param)
    (hshort : (digestHeader values qopQuoted gap order).length < 65536) :
    Judged method values (digestHeader values qopQuoted gap order) ↔
      Readable method values (parameters values qopQuoted gap order) := by
  have hs : Plain (parameters values qopQuoted gap order) := by
    refine ⟨parameters_plain hvalues qopQuoted gap order, ?_⟩
    rw [digestHeader, length_append] at hshort
    omega
  exact judged_iff hs hvalues

def sampleValues : Param → Text
  | .username => text "u"
  | .realm => text "r"
  | .nonce => text "n"
  | .uri => text "/"
  | .response => text "d"
  | .opaqueValue => text "o"
  | .qop => text "auth"
  | .nc => text "1"
  | .cnonce => text "c"

def sampleOrder : List Param :=
  [.username, .realm, .nonce, .uri, .response, .opaqueValue, .qop, .nc, .cnonce]

theorem authenticateDigest_judges_iff_sample :
    Judged .HTTP_GET sampleValues (digestHeader sampleValues false 1 sampleOrder) ↔
      Readable .HTTP_GET sampleValues (parameters sampleValues false 1 sampleOrder) :=
  authenticateDigest_judges_iff .HTTP_GET (fun p => by cases p <;> decide) false 1 sampleOrder
    (by decide +kernel)

/-- With the client's nonce in front the server finds its value where it looks for the other
one. -/
theorem not_authenticateDigest_judges :
    ¬ ∀ (method : HTTPMethod) (values : Param → Text) (qopQuoted : Bool) (gap : Nat)
      (order order' : List Param), order.Perm order' →
      (∀ (md5 : Text → Text) (c : Challenge) (username H1 : Text),
        authenticateDigest md5 c (digestHeader values qopQuoted gap order) username H1 =
          authenticateDigest md5 c (digestHeader values qopQuoted gap order') username H1) ∧
        Judged method values (digestHeader values qopQuoted gap order) := by
  intro h
  have hsame := (h .HTTP_GET sampleValues false 1 sampleOrder (Param.cnonce :: sampleOrder.dropLast)
    (by decide +kernel)).1 (fun _ => text "d") ⟨.HTTP_GET, text "n", text "o", text "r"⟩
    (text "u") []
  exact absurd hsame (by decide +kernel)

end Http
