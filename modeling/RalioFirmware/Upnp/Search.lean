import RalioFirmware.Upnp.Parser
import RalioFirmware.Http.Text
import Mathlib.Data.List.DropRight
import Mathlib.Data.List.Chain

/-!
# Which searches are heard

The parser has no lines.  What it takes for a header goes from the end of the
last one to a blank, and from there to two bytes of a line end in a row; the
header is `ST` by its name or else by the first two bytes of its value.  Four
bytes of a line end in a row, with those of the last header, are the end of the
request, and the reply is pending, with or without an `ST`.

* `run_splits`: what the reader makes of the fields it takes for headers;
* `search_answered_iff`: exactly when a search is heard and answered as it is meant.
-/

namespace Ssdp

open CString List

/-! ## The fields of a request, as the parser takes them -/

def Line (l : List UInt8) : Prop := l.IsChain fun a b => ¬ (isEol a = true ∧ isEol b = true)

def FourEols (l : List UInt8) : Prop :=
  ∃ e : List UInt8, e.length = 4 ∧ (∀ c ∈ e, isEol c = true) ∧ e <:+: l

def Blank (key : List UInt8) : Prop := FourEols (13 :: 10 :: key)

/-- The bytes in front of a blank, and the bytes behind it up to a line end. -/
structure Field where
  key : List UInt8
  value : List UInt8

def Open (l : List UInt8) : Prop := 32 ∉ l ∨ ∃ key v, l = key ++ 32 :: v ∧ 32 ∉ key ∧ Line v

/-- The fields behind the first line, and what is left behind them. -/
inductive Splits : List UInt8 → List Field → List UInt8 → Prop
  | rest {l : List UInt8} (hopen : Open l) : Splits l [] l
  | field {key value rest tail : List UInt8} {e₁ e₂ : UInt8} {fs : List Field}
      (hkey : 32 ∉ key) (hvalue : Line (value ++ [e₁])) (h₁ : isEol e₁ = true)
      (h₂ : isEol e₂ = true) (hrest : Splits rest fs tail) :
      Splits (key ++ 32 :: (value ++ e₁ :: e₂ :: rest)) (⟨key, value⟩ :: fs) tail

/-- What is stored of a name: no colon and no line end, and what the array held
if nothing is stored. -/
def nameOf (held key : List UInt8) : List UInt8 :=
  let name := key.filter fun c => !isEol c && c != 58
  if name = [] then held else name.take 63

def chars (value : List UInt8) : List UInt8 := value.filter fun c => !isEol c

def heldBehind (name value : List UInt8) : List UInt8 := if value = [] then name else value.take 63

/-- The header that a name and a value come to: that of the name, or that of the
first two bytes of a value that goes on. -/
def kind (name value : List UInt8) : Headers :=
  if value = [] then .START
  else if kindOf name ≠ .START then kindOf name
  else if 3 ≤ value.length then kindOf (value.take 2)
  else .START

structure Reading where
  key : List UInt8
  name : List UInt8
  value : List UInt8

def readings : List UInt8 → List Field → List Reading
  | _, [] => []
  | held, f :: fs =>
    let name := nameOf held f.key
    ⟨f.key, name, chars f.value⟩ :: readings (heldBehind name (chars f.value)) fs

/-- A field that is taken for `ST` with a search target that is responded to, or
with another one. -/
def Reading.Accepted (dev : Device) (r : Reading) : Prop :=
  kind r.name r.value = .ST ∧ dev.Accepts (r.value.take 63)

def Reading.Rejected (dev : Device) (r : Reading) : Prop :=
  kind r.name r.value = .ST ∧ ¬ dev.Accepts (r.value.take 63)

def Reading.Matched (dev : Device) (r : Reading) : Prop :=
  kind r.name r.value = .ST ∧ dev.Matches (r.value.take 63)

instance (dev : Device) (r : Reading) : Decidable (r.Accepted dev) :=
  inferInstanceAs (Decidable (_ ∧ _))

def Passes (dev : Device) (rs : List Reading) (tail : List UInt8) : Prop :=
  ∀ front r back, rs = front ++ r :: back → r.Rejected dev → back = [] ∧ tail = []

/-- The request ends, or a field asks for the device type or the UUID. -/
def Sets (dev : Device) (rs : List Reading) (tail : List UInt8) : Prop :=
  (∃ r ∈ rs, Blank r.key ∨ r.Matched dev) ∨ Blank (tail.takeWhile fun c => c ≠ 32)

def lastUuid (dev : Device) (uuid : Bool) (rs : List Reading) : Bool :=
  rs.foldl (fun uuid r =>
    if r.Accepted dev then decide (Same (r.value.take 63) dev.uuid) else uuid) uuid

/-- The datagram begins as a search, as the parser takes it, and has these fields. -/
def Taken (d : List UInt8) (fs : List Field) (tail : List UInt8) : Prop :=
  ∃ method uri proto rest e₁ e₂, d = method ++ 32 :: (uri ++ 32 :: (proto ++ e₁ :: e₂ :: rest)) ∧
    32 ∉ method ∧ cstr (method.take 9) = mSearch ∧ 32 ∉ uri ∧ uri.head? = some 42 ∧
    Line (proto ++ [e₁]) ∧ isEol e₁ = true ∧ isEol e₂ = true ∧ Splits rest fs tail

/-- A datagram is heard: behind a rejected field there is nothing, and the
request ends or a field asks for the device type or the UUID. -/
def Heard (dev : Device) (d : List UInt8) : Prop :=
  ∃ fs tail, Taken d fs tail ∧ Passes dev (readings [42] fs) tail ∧ Sets dev (readings [42] fs) tail

/-- The last field that is taken for `ST` asks for the UUID, or there is none and
the flag was set before. -/
def Named (dev : Device) (uuid : Bool) (d : List UInt8) : Prop :=
  ∃ fs tail, Taken d fs tail ∧ lastUuid dev uuid (readings [42] fs) = true

/-! ## What a search asks for -/

structure Header where
  name : List UInt8
  field : List UInt8

def Header.line (h : Header) : List UInt8 := h.name ++ 58 :: (h.field ++ [13, 10])

/-- A name without blanks and colons, and no line end in the header. -/
structure Header.WellFormed (h : Header) : Prop where
  some_ : h.name ≠ []
  name : ∀ c ∈ h.name, isEol c = false ∧ c ≠ 32 ∧ c ≠ 58
  field : ∀ c ∈ h.field, isEol c = false

def isBlank (c : UInt8) : Bool := c = 32 || c = 9

def Header.value (h : Header) : List UInt8 := (h.field.dropWhile isBlank).rdropWhile isBlank

/-- The header `ST`; the names of headers have no case. -/
def Header.IsST (h : Header) : Prop := h.name.map tolower = [115, 116]

/-- A request `M-SEARCH *` with its headers; more may stand behind it. -/
def Request (d : List UInt8) (headers : List Header) : Prop :=
  (∃ proto more, d = mSearch ++ [32, 42, 32] ++ proto ++ [13, 10] ++
      headers.flatMap Header.line ++ [13, 10] ++ more ∧ ∀ c ∈ proto, isEol c = false) ∧
    ∀ h ∈ headers, h.WellFormed

def Is (value text : List UInt8) : Prop := value.map tolower = (cstr text).map tolower

def Asks (dev : Device) (d : List UInt8) : Prop :=
  ∃ headers, Request d headers ∧ ∃ h ∈ headers, h.IsST ∧
    (h.value = ssdpAll ∨ Is h.value dev.deviceType ∨ Is h.value dev.uuid)

def AsksUuid (dev : Device) (d : List UInt8) : Prop :=
  ∃ headers, Request d headers ∧ ∃ h ∈ headers, h.IsST ∧ Is h.value dev.uuid

def Datagram.text (d : Datagram) : List UInt8 := d.bytes.map Received.c

/-- A datagram is parsed inside the array, a reply is pending where one is asked
for, and the reply that is sent names the UUID where that is asked for. -/
structure Answered (dev : Device) (interval : Nat) (d : Datagram) (clock : Clock)
    (later : List (Option Datagram × Clock)) (s : SSDPClass) : Prop where
  inside : (parse dev d s).isSome = true
  pending : ∀ s', parse dev d s = some s' → (s'.pending = true ↔ Asks dev d.text)
  named : ∀ s' st_is_uuid, parse dev d s = some s' → s'.pending = true →
    firstReply dev interval ((some d, clock) :: later) s = some st_is_uuid →
      (st_is_uuid = true ↔ AsksUuid dev d.text)

def SSDPClass.noticed (interval : Nat) (clocks : List Clock) (s : SSDPClass) : Bool :=
  (clocks.takeWhile fun clock => !s.replyDue clock).any (s.notifyDue interval)

/-- The datagram is heard where it asks for the device, and the reply, where one
falls due, names the UUID where that is asked for. -/
structure Suited (dev : Device) (interval : Nat) (d : Datagram) (clocks : List Clock)
    (s : SSDPClass) : Prop where
  heard : Asks dev d.text ∧ Heard dev d.text ∨ ¬ Asks dev d.text ∧ ¬ Heard dev d.text
  named : ∀ s', parse dev d s = some s' → Heard dev d.text → clocks.any s'.replyDue = true →
    (Named dev s.st_is_uuid d.text ∧ s'.noticed interval clocks = false ↔ AsksUuid dev d.text)

/-! ## The reader on a field -/

variable {dev : Device} {held key value name : List UInt8} {pending uuid : Bool} {c : UInt8}

theorem run_append (dev : Device) (a b : List UInt8) (r : Reader) :
    r.run dev (a ++ b) = (r.run dev a).run dev b := foldl_append

theorem run_cons (dev : Device) (c : UInt8) (l : List UInt8) (r : Reader) :
    r.run dev (c :: l) = (r.step dev c).run dev l := rfl

theorem run_snoc (dev : Device) (l : List UInt8) (c : UInt8) (r : Reader) :
    r.run dev (l ++ [c]) = (r.run dev l).step dev c := run_append dev l [c] r

def trail (l : List UInt8) : Nat := (l.rtakeWhile isEol).length

theorem trail_snoc (l : List UInt8) (c : UInt8) :
    trail (l ++ [c]) = if isEol c = true then trail l + 1 else 0 := by
  rw [trail, rtakeWhile_concat]
  split
  · exact length_append
  · rfl

variable {l : List UInt8}

theorem le_trail {e : List UInt8} (h : e <:+ l) (heol : ∀ c ∈ e, isEol c = true) :
    e.length ≤ trail l := by
  obtain ⟨front, rfl⟩ := h
  rw [trail, rtakeWhile, length_reverse, reverse_append,
    takeWhile_append_of_pos fun c hc => heol c (mem_reverse.1 hc), length_append,
    length_reverse]
  exact Nat.le_add_right _ _

theorem fourEols_of_trail {l : List UInt8} (h : 4 ≤ trail l) : FourEols l := by
  refine ⟨(l.rtakeWhile isEol).take 4, length_take_of_le h, fun b hb => ?_, ?_⟩
  · exact mem_rtakeWhile_imp (mem_of_mem_take hb)
  · exact (List.take_prefix 4 _).isInfix.trans (rtakeWhile_suffix isEol _).isInfix

theorem fourEols_snoc (l : List UInt8) (c : UInt8) :
    FourEols (l ++ [c]) ↔ FourEols l ∨ 4 ≤ trail (l ++ [c]) := by
  constructor
  · rintro ⟨e, hlen, heol, hinfix⟩
    rcases infix_concat_iff.1 hinfix with hsuffix | hinfix
    · exact .inr (hlen ▸ le_trail hsuffix heol)
    · exact .inl ⟨e, hlen, heol, hinfix⟩
  · rintro (⟨e, hlen, heol, hinfix⟩ | hfour)
    · exact ⟨e, hlen, heol, hinfix.trans (prefix_append l [c]).isInfix⟩
    · exact fourEols_of_trail hfour

theorem blank_snoc (key : List UInt8) (c : UInt8) :
    Blank (key ++ [c]) ↔ Blank key ∨ 4 ≤ trail (13 :: 10 :: (key ++ [c])) :=
  fourEols_snoc (13 :: 10 :: key) c

theorem not_blank_nil : ¬ Blank [] := by
  rintro ⟨e, hlen, -, hinfix⟩
  have hle := hinfix.length_le
  rw [hlen] at hle
  exact absurd hle (by decide)

def atKey (held : List UInt8) (pending uuid : Bool) : Reader :=
  ⟨.KEY, .START, 0, 2, held, pending, uuid⟩

theorem put_word (limit : Nat) (r : Reader) (l : List UInt8)
    (hcursor : r.cursor = min l.length (limit - 1))
    (htext : r.text = if l = [] then held else l.take (limit - 1)) (hlimit : 1 < limit) :
    r.put limit c =
      { r with
        text := (l ++ [c]).take (limit - 1)
        cursor := min (l ++ [c]).length (limit - 1) } := by
  obtain ⟨n, rfl⟩ := Nat.exists_eq_add_of_lt hlimit
  have hsize : 1 + n + 1 - 1 = n + 1 := by omega
  rw [hsize] at hcursor htext
  rw [Reader.put, hsize, hcursor, length_append, length_singleton]
  by_cases hlong : l.length < n + 1
  · rw [if_pos (by omega), Nat.min_eq_left (by omega), Nat.min_eq_left (by omega), htext]
    have hwhole : (l ++ [c]).take (n + 1) = l ++ [c] := take_of_length_le (by simp; omega)
    rw [hwhole]
    congr 2
    split
    · rename_i hnil
      rw [hnil]
      rfl
    · rw [take_take, take_of_length_le (by omega)]
  · have hne : l ≠ [] := by
      intro hnil
      rw [hnil] at hlong
      exact hlong (Nat.succ_pos n)
    rw [if_neg (by omega), Nat.min_eq_right (by omega),
      take_append_of_le_length (show n + 1 ≤ l.length by omega)]
    rw [if_neg hne] at htext
    rw [← htext]
    obtain ⟨state, header, cursor, cr, text, pending, uuid⟩ := r
    dsimp only at hcursor
    rw [hcursor, Nat.min_eq_right (by omega)]

def nameChars (key : List UInt8) : List UInt8 := key.filter fun c => !isEol c && c != 58

theorem nameOf_eq (held key : List UInt8) :
    nameOf held key = if nameChars key = [] then held else (nameChars key).take 63 := rfl

/-- **The bytes in front of a blank.** -/
theorem run_key (hkey : 32 ∉ key) : ∃ q, (atKey held pending uuid).run dev key =
    ⟨.KEY, .START, min (nameChars key).length 63, trail (13 :: 10 :: key) % 256,
      nameOf held key, q, uuid⟩ ∧ (q = true ↔ pending = true ∨ Blank key) := by
  induction key using reverseRecOn with
  | nil =>
    refine ⟨pending, rfl, ?_⟩
    exact ⟨.inl, fun h => h.resolve_right not_blank_nil⟩
  | append_singleton key c ih =>
    obtain ⟨hkey, hc⟩ := not_or.1 (mem_append.not.1 hkey)
    obtain ⟨q, hrun, hq⟩ := ih hkey
    have hc32 : c ≠ 32 := fun heq => hc (mem_singleton.2 heq.symm)
    have hcons : 13 :: 10 :: (key ++ [c]) = (13 :: 10 :: key) ++ [c] := rfl
    have htrail := trail_snoc (13 :: 10 :: key) c
    have hfour := @fourEols_of_trail (13 :: 10 :: key)
    rw [run_snoc, hrun, Reader.step]
    dsimp only
    rw [blank_snoc, hcons, htrail]
    by_cases heol : isEol c = true
    · have hsame : nameChars (key ++ [c]) = nameChars key := by
        rw [nameChars, filter_append]
        simp [heol, nameChars]
      have hname : nameOf held (key ++ [c]) = nameOf held key := by
        rw [nameOf_eq, nameOf_eq, hsame]
      rw [if_pos heol, if_pos heol, Nat.mod_add_mod, hname, hsame]
      by_cases hcr : (trail (13 :: 10 :: key) + 1) % 256 = 4
      · rw [if_pos hcr]
        refine ⟨true, rfl, iff_of_true rfl (.inr (.inr ?_))⟩
        omega
      · rw [if_neg hcr, if_neg hc32, if_neg (by simp [heol])]
        refine ⟨q, rfl, ?_⟩
        rw [hq]
        refine or_congr_right ⟨.inl, fun h => h.elim id fun hle => hfour ?_⟩
        by_contra hlt
        exact hcr (by rw [Nat.mod_eq_of_lt (by omega)]; omega)
    · rw [if_neg heol, if_neg heol, if_neg (by decide), if_neg hc32]
      have hfalse : isEol c = false := Bool.eq_false_iff.2 heol
      have hblank : (q = true ↔ pending = true ∨ Blank key ∨ 4 ≤ 0) := by grind
      by_cases hcolon : c = 58
      · have hsame : nameChars (key ++ [c]) = nameChars key := by
          rw [nameChars, filter_append]
          simp [hcolon, nameChars]
        have hname : nameOf held (key ++ [c]) = nameOf held key := by
          rw [nameOf_eq, nameOf_eq, hsame]
        rw [if_neg (fun h => h.2 hcolon), hname, hsame]
        exact ⟨q, rfl, hblank⟩
      · have hmore : nameChars (key ++ [c]) = nameChars key ++ [c] := by
          rw [nameChars, filter_append]
          simp [hfalse, hcolon, nameChars]
        rw [if_pos ⟨hfalse, hcolon⟩, nameOf_eq held (key ++ [c]), hmore, if_neg (by simp)]
        refine ⟨q, ?_, hblank⟩
        rw [put_word SSDP_BUFFER_SIZE _ (nameChars key) rfl (nameOf_eq held key) (by decide)]
        rfl

/-! ## Values -/

variable {t : List UInt8}

theorem kindOf_short (h : t.length ≤ 1) : kindOf t = .START := by
  have hle : (cstr t).length ≤ 1 := (cstr_start t).length_le.trans h
  have hne : ∀ w : List UInt8, 2 ≤ w.length → cstr t ≠ w := by
    intro w hw heq
    rw [heq] at hle
    omega
  rw [kindOf, take_of_length_le (by omega), if_neg (hne _ (by decide)),
    if_neg (hne _ (by decide)), if_neg (hne _ (by decide))]

theorem kindOf_of_take (h : kindOf (t.take 2) = .START) : kindOf t = .START := by
  have htwo : cstr (t.take 2) = (cstr t).take 2 := cstr_take t 2
  have hname : ∀ w : List UInt8, w.length = 2 → cstr t = w → (cstr t).take 2 = w := by
    intro w hw heq
    rw [heq, take_of_length_le (by omega)]
  rw [kindOf, htwo, take_take, Nat.min_self] at h
  rw [kindOf]
  split at h
  · cases h
  · grind

/-- **The header is decided again** at each byte of a value while it is open. -/
theorem kind_snoc (name value : List UInt8) (c : UInt8) :
    kind name (value ++ [c]) =
      if kind name value = .START then kindOf (heldBehind name value) else kind name value := by
  have hne : value ++ [c] ≠ [] := append_ne_nil_of_right_ne_nil _ (cons_ne_nil _ _)
  have hlen : (value ++ [c]).length = value.length + 1 := length_append
  by_cases hname : kindOf name = .START
  · rw [kind, kind, if_neg hne, if_neg (not_not.2 hname), hlen, heldBehind]
    by_cases hvalue : value = []
    · subst hvalue
      exact hname.symm
    · rw [if_neg hvalue, if_neg (not_not.2 hname), if_neg hvalue]
      by_cases hthree : 3 ≤ value.length
      · rw [if_pos hthree, if_pos (by omega), take_append_of_le_length (by omega)]
        split
        · rename_i hstart
          rw [hstart]
          refine (kindOf_of_take ?_).symm
          rw [take_take]
          exact hstart
        · rfl
      · rw [if_neg hthree, if_pos rfl, take_of_length_le (show value.length ≤ 63 by omega)]
        by_cases htwo : value.length = 2
        · rw [if_pos (by omega), take_append_of_le_length (by omega),
            take_of_length_le (by omega)]
        · rw [if_neg (by omega), kindOf_short (by omega)]
  · rw [kind, kind, if_neg hne, if_pos hname, heldBehind]
    by_cases hvalue : value = []
    · rw [if_pos hvalue, if_pos hvalue, if_pos rfl]
    · rw [if_neg hvalue, if_pos hname, if_neg hname]

def atValue (name : List UInt8) (pending uuid : Bool) : Reader :=
  ⟨.VALUE, .START, 0, 0, name, pending, uuid⟩

def endsLine (l : List UInt8) : Bool := l.getLast?.any isEol

theorem endsLine_snoc (l : List UInt8) (c : UInt8) : endsLine (l ++ [c]) = isEol c := by
  rw [endsLine, getLast?_concat]
  rfl

theorem line_snoc (l : List UInt8) (c : UInt8) :
    Line (l ++ [c]) ↔ Line l ∧ ¬ (endsLine l = true ∧ isEol c = true) := by
  rw [Line, isChain_append, endsLine]
  rcases l.getLast? with _ | b
  · simp [Line]
  · simp [Line]

/-- **The bytes behind a blank**, within a line. -/
theorem run_value (hvalue : Line value) : (atValue name pending uuid).run dev value =
    ⟨.VALUE, kind name (chars value), min (chars value).length 63,
      if endsLine value = true then 1 else 0, heldBehind name (chars value), pending, uuid⟩ := by
  induction value using reverseRecOn with
  | nil => rfl
  | append_singleton value c ih =>
    obtain ⟨hline, hc⟩ := (line_snoc value c).1 hvalue
    rw [run_snoc, ih hline, Reader.step, endsLine_snoc]
    dsimp only
    by_cases heol : isEol c = true
    · have hsame : chars (value ++ [c]) = chars value := by
        rw [chars, filter_append]
        simp [heol, chars]
      rw [if_pos heol, if_pos heol, if_neg (fun h => hc ⟨h, heol⟩), if_neg (by decide),
        if_neg (by simp [heol]), hsame]
    · have hfalse : isEol c = false := Bool.eq_false_iff.2 heol
      have hmore : chars (value ++ [c]) = chars value ++ [c] := by
        rw [chars, filter_append]
        simp [hfalse, chars]
      have hheld : heldBehind name (chars value ++ [c]) = (chars value ++ [c]).take 63 :=
        if_neg (append_ne_nil_of_right_ne_nil _ (cons_ne_nil _ _))
      rw [if_neg heol, if_neg heol, if_neg (by decide), if_pos hfalse, hmore, kind_snoc,
        put_word SSDP_BUFFER_SIZE _ (chars value) rfl rfl (by decide), hheld]
      rfl

def atAbort (r : Reading) (pending uuid : Bool) : Reader :=
  ⟨.ABORT, .ST, min r.value.length 63, 2, heldBehind r.name r.value, pending, uuid⟩

theorem held_of_st (h : kind name value = .ST) : heldBehind name value = value.take 63 := by
  rw [heldBehind, if_neg]
  intro hnil
  rw [kind, if_pos hnil] at h
  cases h

theorem step_first (hc : isEol c = true) (header : Headers) (n : Nat) (text : List UInt8) :
    (⟨.VALUE, header, n, 0, text, pending, uuid⟩ : Reader).step dev c =
      ⟨.VALUE, header, n, 1, text, pending, uuid⟩ := by
  rw [Reader.step, if_pos hc]
  simp [hc]

theorem step_second (hc : isEol c = true) (header : Headers) (n : Nat) (text : List UInt8) :
    (⟨.VALUE, header, n, 1, text, pending, uuid⟩ : Reader).step dev c =
      (⟨.VALUE, header, n, 2, text, pending, uuid⟩ : Reader).close dev := by
  rw [Reader.step, if_pos hc]
  rfl

theorem step_blank {n e : Nat} :
    (⟨.KEY, .START, n, e, name, pending, uuid⟩ : Reader).step dev 32 =
      atValue name pending uuid := by
  rw [Reader.step]
  rfl

/-- **A field**: the reader is behind its end, or rejects it. -/
theorem run_field {e₁ e₂ : UInt8} (hkey : 32 ∉ key) (hvalue : Line (value ++ [e₁]))
    (h₁ : isEol e₁ = true) (h₂ : isEol e₂ = true) {r : Reading}
    (hr : r = ⟨key, nameOf held key, chars value⟩) :
    ∃ q, (q = true ↔ pending = true ∨ Blank key) ∧
      (atKey held pending uuid).run dev (key ++ 32 :: (value ++ [e₁, e₂])) =
        if kind r.name r.value = .ST then
          if dev.Accepts (r.value.take 63) then
            atKey (heldBehind r.name r.value) (q || dev.Matches (r.value.take 63))
              (Same (r.value.take 63) dev.uuid)
          else atAbort r q uuid
        else atKey (heldBehind r.name r.value) q uuid := by
  obtain ⟨q, hrun, hq⟩ := @run_key dev held key pending uuid hkey
  obtain ⟨hline, hend⟩ := (line_snoc value e₁).1 hvalue
  have hlast : ¬ endsLine value = true := fun h => hend ⟨h, h₁⟩
  have htwo : value ++ [e₁, e₂] = value ++ [e₁] ++ [e₂] := by simp
  refine ⟨q, hq, ?_⟩
  rw [run_append, hrun, run_cons, step_blank, htwo, run_snoc, run_snoc, run_value hline,
    if_neg hlast, step_first h₁, step_second h₂, Reader.close]
  subst hr
  dsimp only
  split
  · rename_i hst
    rw [held_of_st hst]
    split
    · rfl
    · rw [atAbort, held_of_st hst, hst]
  · rfl

theorem run_abort (r : Reader) (h : r.state = .ABORT) (l : List UInt8) :
    (r.run dev l).pending = (if l = [] then r.pending else false) ∧
      (r.run dev l).uuid = r.uuid := by
  induction l generalizing r with
  | nil => exact ⟨rfl, rfl⟩
  | cons c rest ih =>
    obtain ⟨state, header, cursor, cr, text, pending, uuid⟩ := r
    obtain rfl : state = .ABORT := h
    obtain ⟨hpending, huuid⟩ := ih ((⟨.ABORT, header, cursor, cr, text, pending, uuid⟩ :
      Reader).step dev c) rfl
    rw [run_cons, if_neg (cons_ne_nil _ _), hpending, huuid]
    refine ⟨?_, rfl⟩
    split <;> rfl

/-! ## The fields of a request -/

variable {tail : List UInt8}

variable {fs : List Field}

theorem Splits.nil_iff {rest : List UInt8} (h : Splits rest fs tail) :
    rest = [] ↔ fs = [] ∧ tail = [] := by
  cases h with
  | rest hopen => exact ⟨fun h => ⟨rfl, h⟩, fun h => h.2⟩
  | field hkey hvalue h₁ h₂ hrest =>
    exact iff_of_false (by simp) fun h => cons_ne_nil _ _ h.1

theorem readings_eq_nil : readings held fs = [] ↔ fs = [] := by
  cases fs with
  | nil => exact iff_of_true rfl rfl
  | cons f fs => exact iff_of_false (cons_ne_nil _ _) (cons_ne_nil _ _)

theorem passes_nil : Passes dev [] tail := fun _ _ _ heq =>
  absurd heq.symm (append_ne_nil_of_right_ne_nil _ (cons_ne_nil _ _))

variable {r : Reading} {rs : List Reading}

theorem passes_cons :
    Passes dev (r :: rs) tail ↔ (r.Rejected dev → rs = [] ∧ tail = []) ∧ Passes dev rs tail := by
  constructor
  · intro h
    exact ⟨h [] r rs rfl, fun front r' back heq => h (r :: front) r' back (by rw [heq]; rfl)⟩
  · rintro ⟨hfirst, hrest⟩ front r' back heq
    rcases front with _ | ⟨x, front⟩
    · obtain ⟨rfl, rfl⟩ := cons.inj heq
      exact hfirst
    · obtain ⟨rfl, rfl⟩ := cons.inj heq
      exact hrest front r' back rfl

theorem sets_cons :
    Sets dev (r :: rs) tail ↔ (Blank r.key ∨ r.Matched dev) ∨ Sets dev rs tail := by
  rw [Sets, Sets, exists_mem_cons_iff, or_assoc]

theorem lastUuid_cons (r : Reading) (rs : List Reading) :
    lastUuid dev uuid (r :: rs) = lastUuid dev
      (if r.Accepted dev then decide (Same (r.value.take 63) dev.uuid) else uuid) rs := rfl

/-- **What is left** behind the fields: no value is ended any more. -/
theorem run_open {l : List UInt8} (h : Open l) (held : List UInt8) (pending uuid : Bool) :
    (((atKey held pending uuid).run dev l).pending = true ↔
      pending = true ∨ Blank (l.takeWhile fun c => c ≠ 32)) ∧
      ((atKey held pending uuid).run dev l).uuid = uuid := by
  rcases h with hkey | ⟨key, v, rfl, hkey, hline⟩
  · obtain ⟨q, hrun, hq⟩ := @run_key dev held l pending uuid hkey
    have hwhole : (l.takeWhile fun c => c ≠ 32) = l :=
      takeWhile_eq_self_iff.2 fun c hc => decide_eq_true fun heq => hkey (heq ▸ hc)
    rw [hrun, hwhole]
    exact ⟨hq, rfl⟩
  · obtain ⟨q, hrun, hq⟩ := @run_key dev held key pending uuid hkey
    have hfront : ((key ++ 32 :: v).takeWhile fun c => c ≠ 32) = key := by
      have hall : ∀ c ∈ key, decide (c ≠ 32) = true := fun c hc =>
        decide_eq_true fun heq => hkey (heq ▸ hc)
      rw [takeWhile_append_of_pos hall]
      simp
    rw [run_append, hrun, run_cons, step_blank, run_value hline, hfront]
    exact ⟨hq, rfl⟩

/-- **What the reader makes of the fields.** -/
theorem run_splits {rest tail : List UInt8} {fs : List Field} (h : Splits rest fs tail)
    (held : List UInt8) (pending uuid : Bool) :
    (((atKey held pending uuid).run dev rest).pending = true ↔
      Passes dev (readings held fs) tail ∧ (pending = true ∨ Sets dev (readings held fs) tail)) ∧
    (Passes dev (readings held fs) tail →
      ((atKey held pending uuid).run dev rest).uuid = lastUuid dev uuid (readings held fs)) := by
  induction h generalizing held pending uuid with
  | rest hopen =>
    obtain ⟨hpending, huuid⟩ := @run_open dev _ hopen held pending uuid
    refine ⟨?_, fun _ => huuid⟩
    rw [hpending]
    refine ⟨fun h => ⟨passes_nil, h.imp_right .inr⟩, fun h => h.2.imp_right fun hsets => ?_⟩
    exact hsets.resolve_left fun ⟨r, hr, _⟩ => not_mem_nil hr
  | @field key value rest tail e₁ e₂ fs hkey hvalue h₁ h₂ hrest ih =>
    obtain ⟨r, hr⟩ : ∃ r : Reading, r = ⟨key, nameOf held key, chars value⟩ := ⟨_, rfl⟩
    have hreadings : readings held (⟨key, value⟩ :: fs) =
        r :: readings (heldBehind r.name r.value) fs := by
      rw [hr]
      rfl
    have hkeyr : r.key = key := by rw [hr]
    obtain ⟨q, hq, hrun⟩ :=
      @run_field dev held key value pending uuid e₁ e₂ hkey hvalue h₁ h₂ r hr
    have hsplit : key ++ 32 :: (value ++ e₁ :: e₂ :: rest) =
        key ++ 32 :: (value ++ [e₁, e₂]) ++ rest := by simp
    rw [hreadings, hsplit, run_append, hrun, passes_cons, sets_cons, lastUuid_cons, hkeyr]
    by_cases hst : kind r.name r.value = .ST
    · rw [if_pos hst]
      by_cases haccepts : dev.Accepts (r.value.take 63)
      · obtain ⟨hpending, huuid⟩ := ih (heldBehind r.name r.value)
          (q || dev.Matches (r.value.take 63)) (Same (r.value.take 63) dev.uuid)
        have hmatched : r.Matched dev ↔ dev.Matches (r.value.take 63) := and_iff_right hst
        have hnot : ¬ r.Rejected dev := fun h => h.2 haccepts
        rw [if_pos haccepts, if_pos ⟨hst, haccepts⟩]
        refine ⟨hpending.trans ?_, fun h => huuid h.2⟩
        rw [Bool.or_eq_true, decide_eq_true_eq, hq, ← hmatched]
        simp only [or_assoc]
        exact ⟨fun h => ⟨⟨fun hrejected => absurd hrejected hnot, h.1⟩, h.2⟩,
          fun h => ⟨h.1.2, h.2⟩⟩
      · obtain ⟨hpending, huuid⟩ := run_abort (atAbort r q uuid) rfl rest
        have hrejected : r.Rejected dev := ⟨hst, haccepts⟩
        have hmatched : ¬ r.Matched dev := fun h => haccepts (.inr h.2)
        rw [if_neg haccepts, if_neg (fun h : r.Accepted dev => haccepts h.2), hpending, huuid]
        by_cases hnil : rest = []
        · obtain ⟨rfl, rfl⟩ := hrest.nil_iff.1 hnil
          have hsets : ¬ Sets dev (readings (heldBehind r.name r.value) []) [] := by
            rintro (⟨r', hr', -⟩ | hblank)
            · exact not_mem_nil hr'
            · exact not_blank_nil hblank
          rw [if_pos hnil]
          refine ⟨?_, fun _ => rfl⟩
          show q = true ↔ _
          rw [hq, or_iff_left hsets, or_iff_left hmatched]
          exact ⟨fun h => ⟨⟨fun _ => ⟨rfl, rfl⟩, passes_nil⟩, h⟩, fun h => h.2⟩
        · have hbehind : ¬ (readings (heldBehind r.name r.value) fs = [] ∧ tail = []) := fun h =>
            hnil (hrest.nil_iff.2 ⟨readings_eq_nil.1 h.1, h.2⟩)
          rw [if_neg hnil]
          exact ⟨iff_of_false Bool.false_ne_true fun h => hbehind (h.1.1 hrejected),
            fun h => absurd (h.1 hrejected) hbehind⟩
    · have hnot : ¬ r.Rejected dev ∧ ¬ r.Accepted dev ∧ ¬ r.Matched dev :=
        ⟨fun h => hst h.1, fun h => hst h.1, fun h => hst h.1⟩
      obtain ⟨hpending, huuid⟩ := ih (heldBehind r.name r.value) q uuid
      rw [if_neg hst, if_neg hnot.2.1, hpending, hq, or_assoc, or_iff_left hnot.2.2]
      exact ⟨⟨fun h => ⟨⟨fun hrejected => absurd hrejected hnot.1, h.1⟩, h.2⟩,
        fun h => ⟨h.1.2, h.2⟩⟩, fun h => huuid h.2⟩

theorem line_or_pair (l : List UInt8) : Line l ∨ ∃ front e₁ e₂ rest,
    l = front ++ e₁ :: e₂ :: rest ∧ Line (front ++ [e₁]) ∧ isEol e₁ = true ∧ isEol e₂ = true := by
  induction l with
  | nil => exact .inl .nil
  | cons a l ih =>
    rcases l with _ | ⟨b, l⟩
    · exact .inl (.singleton a)
    · by_cases hpair : isEol a = true ∧ isEol b = true
      · exact .inr ⟨[], a, b, l, rfl, .singleton a, hpair.1, hpair.2⟩
      · rcases ih with hline | ⟨front, e₁, e₂, rest, heq, hline, h₁, h₂⟩
        · exact .inl (.cons_cons hpair hline)
        · refine .inr ⟨a :: front, e₁, e₂, rest, by rw [heq]; rfl, ?_, h₁, h₂⟩
          have hhead : (front ++ [e₁]).head? = some b := by
            have hb := congrArg head? heq
            rcases front with _ | ⟨x, front⟩
            · exact hb.symm
            · exact hb.symm
          have hchain : Line (a :: (front ++ [e₁])) := by
            refine isChain_cons.2 ⟨fun y hy => ?_, hline⟩
            rw [hhead] at hy
            cases hy
            exact hpair
          exact hchain

theorem split_blank (l : List UInt8) :
    32 ∉ l ∨ ∃ key v, l = key ++ 32 :: v ∧ (32 : UInt8) ∉ key := by
  by_cases h : (32 : UInt8) ∈ l
  · obtain ⟨key, v, heq, hkey⟩ := eq_append_cons_of_mem h
    exact .inr ⟨key, v, heq, hkey⟩
  · exact .inl h

theorem splits_total (rest : List UInt8) : ∃ fs tail, Splits rest fs tail := by
  induction hn : rest.length using Nat.strong_induction_on generalizing rest with
  | _ n ih =>
    rcases split_blank rest with hnone | ⟨key, v, rfl, hkey⟩
    · exact ⟨[], rest, .rest (.inl hnone)⟩
    · rcases line_or_pair v with hline | ⟨value, e₁, e₂, rest, rfl, hline, h₁, h₂⟩
      · exact ⟨[], _, .rest (.inr ⟨key, v, rfl, hkey, hline⟩)⟩
      · obtain ⟨fs, tail, hrest⟩ := ih rest.length (by rw [← hn]; simp; omega) rest rfl
        exact ⟨⟨key, value⟩ :: fs, tail, .field hkey hline h₁ h₂ hrest⟩

/-! ## The first line -/

theorem run_word {state : States} {limit : Nat}
    (hstate : state = .METHOD ∧ limit = SSDP_METHOD_SIZE ∨ state = .URI ∧ limit = SSDP_URI_SIZE)
    {l : List UInt8} (hl : 32 ∉ l) (cr : Nat) :
    ∃ cr', (⟨state, .START, 0, cr, held, pending, uuid⟩ : Reader).run dev l =
      ⟨state, .START, min l.length (limit - 1), cr',
        if l = [] then held else l.take (limit - 1), pending, uuid⟩ := by
  induction l using reverseRecOn with
  | nil => exact ⟨cr, by simp [Reader.run]⟩
  | append_singleton l c ih =>
    obtain ⟨hl, hc⟩ := not_or.1 (mem_append.not.1 hl)
    obtain ⟨cr', hrun⟩ := ih hl
    have hc32 : c ≠ 32 := fun heq => hc (mem_singleton.2 heq.symm)
    have hne : l ++ [c] ≠ [] := append_ne_nil_of_right_ne_nil _ (cons_ne_nil _ _)
    rw [run_snoc, hrun, if_neg hne]
    refine ⟨if isEol c = true then (cr' + 1) % 256 else 0, ?_⟩
    rcases hstate with ⟨rfl, rfl⟩ | ⟨rfl, rfl⟩
    · rw [Reader.step]
      dsimp only
      rw [if_neg hc32, put_word SSDP_METHOD_SIZE _ l rfl rfl (by decide)]
    · rw [Reader.step]
      dsimp only
      rw [if_neg hc32, put_word SSDP_URI_SIZE _ l rfl rfl (by decide)]

theorem run_proto (hl : Line l) :
    (⟨.PROTO, .START, 0, 0, held, pending, uuid⟩ : Reader).run dev l =
      ⟨.PROTO, .START, 0, if endsLine l = true then 1 else 0, held, pending, uuid⟩ := by
  induction l using reverseRecOn with
  | nil => rfl
  | append_singleton l c ih =>
    obtain ⟨hline, hc⟩ := (line_snoc l c).1 hl
    rw [run_snoc, ih hline, Reader.step, endsLine_snoc]
    dsimp only
    by_cases heol : isEol c = true
    · rw [if_pos heol, if_pos heol, if_neg (fun h => hc ⟨h, heol⟩), if_neg (by decide)]
    · rw [if_neg heol, if_neg heol, if_neg (by decide)]

theorem step_method (cursor cr : Nat) (text : List UInt8) :
    (⟨.METHOD, .START, cursor, cr, text, pending, uuid⟩ : Reader).step dev 32 =
      ⟨if cstr text = mSearch then .URI else .ABORT, .START, 0, 0, text, pending, uuid⟩ := by
  rw [Reader.step]
  rfl

theorem step_uri (cursor cr : Nat) (text : List UInt8) :
    (⟨.URI, .START, cursor, cr, text, pending, uuid⟩ : Reader).step dev 32 =
      ⟨if cstr text = [42] then .PROTO else .ABORT, .START, 0, 0, text, pending, uuid⟩ := by
  rw [Reader.step]
  rfl

theorem cstr_uri {method uri : List UInt8} (hmethod : cstr method = mSearch) :
    cstr (if uri = [] then method else uri.take 1) = [42] ↔ uri.head? = some 42 := by
  rcases uri with _ | ⟨x, uri⟩
  · rw [if_pos rfl, hmethod]
    exact iff_of_false (by decide) (by simp)
  · rw [if_neg (cons_ne_nil _ _), take_succ_cons, take_zero, head?_cons,
      Option.some.injEq]
    by_cases hx : x = 0
    · rw [hx, cstr_zero]
      exact iff_of_false (cons_ne_nil _ _).symm (by decide)
    · rw [cstr_cons hx, cstr_nil, cons.injEq]
      exact and_iff_left rfl

/-- **The method**, and the blank behind it. -/
theorem run_method (method l : List UInt8) (hmethod : 32 ∉ method) :
    (Reader.start uuid).run dev (method ++ 32 :: l) =
      (⟨if cstr (method.take 9) = mSearch then .URI else .ABORT, .START, 0, 0, method.take 9, false,
        uuid⟩ : Reader).run dev l := by
  obtain ⟨cr, hrun⟩ := @run_word dev [] false uuid .METHOD SSDP_METHOD_SIZE (.inl ⟨rfl, rfl⟩) method
    hmethod 0
  have hword :
      (if method = [] then [] else method.take (SSDP_METHOD_SIZE - 1)) = method.take 9 := by
    split
    · rename_i hnil
      rw [hnil]
      rfl
    · rfl
  rw [hword] at hrun
  rw [run_append, Reader.start, hrun, run_cons, step_method]

/-- **The URI**, and the blank behind it. -/
theorem run_uri (uri l : List UInt8) (huri : 32 ∉ uri) {method : List UInt8}
    (hsearch : cstr method = mSearch) :
    (⟨.URI, .START, 0, 0, method, false, uuid⟩ : Reader).run dev (uri ++ 32 :: l) =
      (⟨if uri.head? = some 42 then .PROTO else .ABORT, .START, 0, 0,
        if uri = [] then method else uri.take 1, false, uuid⟩ : Reader).run dev l := by
  obtain ⟨cr, hrun⟩ := @run_word dev method false uuid .URI SSDP_URI_SIZE (.inr ⟨rfl, rfl⟩) uri
    huri 0
  have hsize : SSDP_URI_SIZE - 1 = 1 := rfl
  have hstar := @cstr_uri method uri hsearch
  rw [hsize] at hrun
  rw [run_append, hrun, run_cons, step_uri]
  by_cases hhead : uri.head? = some 42
  · rw [if_pos hhead, if_pos (hstar.2 hhead)]
  · rw [if_neg hhead, if_neg (mt hstar.1 hhead)]

theorem run_taken {d tail : List UInt8} {fs : List Field} (h : Taken d fs tail) :
    (((Reader.start uuid).run dev d).pending = true ↔
      Passes dev (readings [42] fs) tail ∧ Sets dev (readings [42] fs) tail) ∧
    (Passes dev (readings [42] fs) tail →
      ((Reader.start uuid).run dev d).uuid = lastUuid dev uuid (readings [42] fs)) := by
  obtain ⟨method, uri, proto, rest, e₁, e₂, rfl, hmethod, hsearch, huri, hhead, hline, h₁, h₂,
    hsplits⟩ := h
  obtain ⟨hproto, hend⟩ := (line_snoc proto e₁).1 hline
  have hlast : ¬ endsLine proto = true := fun h => hend ⟨h, h₁⟩
  have hstar : (if uri = [] then method.take 9 else uri.take 1) = [42] := by
    rcases uri with _ | ⟨x, uri⟩
    · cases hhead
    · rw [head?_cons] at hhead
      cases hhead
      rfl
  have hrun : (Reader.start uuid).run dev
      (method ++ 32 :: (uri ++ 32 :: (proto ++ e₁ :: e₂ :: rest))) =
        (atKey [42] false uuid).run dev rest := by
    rw [run_method method _ hmethod, if_pos hsearch, run_uri uri _ huri hsearch, if_pos hhead,
      hstar, run_append, run_proto hproto, if_neg hlast, run_cons, run_cons]
    congr 1
    rw [Reader.step, Reader.step, h₁, h₂]
    rfl
  rw [hrun]
  obtain ⟨hpending, huuid⟩ := @run_splits dev rest tail fs hsplits [42] false uuid
  refine ⟨hpending.trans (and_congr_right fun _ => ?_), huuid⟩
  exact or_iff_right Bool.false_ne_true

theorem not_pending_abort (held l : List UInt8) :
    ¬ ((⟨.ABORT, .START, 0, 0, held, false, uuid⟩ : Reader).run dev l).pending = true := by
  rw [(run_abort _ rfl l).1]
  split <;> exact Bool.false_ne_true

variable {d : List UInt8}

/-- **Only a search is heard.** -/
theorem taken_of_pending
    (h : ((Reader.start uuid).run dev d).pending = true) : ∃ fs tail, Taken d fs tail := by
  rcases split_blank d with hnone | ⟨method, d₁, rfl, hmethod⟩
  · obtain ⟨cr, hrun⟩ := @run_word dev [] false uuid .METHOD SSDP_METHOD_SIZE (.inl ⟨rfl, rfl⟩) d
      hnone 0
    rw [Reader.start, hrun] at h
    cases h
  rw [run_method method d₁ hmethod] at h
  by_cases hsearch : cstr (method.take 9) = mSearch
  · rw [if_pos hsearch] at h
    rcases split_blank d₁ with hnone | ⟨uri, d₂, rfl, huri⟩
    · obtain ⟨cr, hrun⟩ := @run_word dev (method.take 9) false uuid .URI SSDP_URI_SIZE
        (.inr ⟨rfl, rfl⟩) d₁ hnone 0
      rw [hrun] at h
      cases h
    rw [run_uri uri d₂ huri hsearch] at h
    by_cases hhead : uri.head? = some 42
    · rw [if_pos hhead] at h
      rcases line_or_pair d₂ with hline | ⟨proto, e₁, e₂, rest, rfl, hline, h₁, h₂⟩
      · rw [run_proto hline] at h
        cases h
      · obtain ⟨fs, tail, hsplits⟩ := splits_total rest
        exact ⟨fs, tail, method, uri, proto, rest, e₁, e₂, rfl, hmethod, hsearch, huri, hhead,
          hline, h₁, h₂, hsplits⟩
    · rw [if_neg hhead] at h
      exact absurd h (not_pending_abort _ _)
  · rw [if_neg hsearch] at h
    exact absurd h (not_pending_abort _ _)

/-- **The searches that are heard.** -/
theorem pending_iff :
    ((Reader.start uuid).run dev d).pending = true ↔ Heard dev d := by
  constructor
  · intro h
    obtain ⟨fs, tail, htaken⟩ := taken_of_pending h
    exact ⟨fs, tail, htaken, (run_taken htaken).1.1 h⟩
  · rintro ⟨fs, tail, htaken, hheard⟩
    exact (run_taken htaken).1.2 hheard

/-- **Whether the UUID is asked for**, as the parser takes it. -/
theorem uuid_iff (h : ((Reader.start uuid).run dev d).pending = true) :
    ((Reader.start uuid).run dev d).uuid = true ↔ Named dev uuid d := by
  constructor
  · intro huuid
    obtain ⟨fs, tail, htaken⟩ := taken_of_pending h
    obtain ⟨hpending, hlast⟩ := @run_taken dev uuid d tail fs htaken
    exact ⟨fs, tail, htaken, hlast (hpending.1 h).1 ▸ huuid⟩
  · rintro ⟨fs, tail, htaken, hnamed⟩
    obtain ⟨hpending, hlast⟩ := @run_taken dev uuid d tail fs htaken
    rw [hlast (hpending.1 h).1]
    exact hnamed

/-! ## Replies -/

variable {s : SSDPClass} {interval : Nat}

theorem start_refines (h : s.pending = false) (remote : Nat × Nat) :
    Refines .start { s with respondTo := remote } (Reader.start s.st_is_uuid) :=
  ⟨fun _ => rfl, rfl, rfl, rfl, rfl, ⟨rfl, rfl, rfl, Nat.le_refl _⟩, h, rfl⟩

/-- **The parser on a datagram.** -/
theorem parse_spec (h : s.pending = false) (d : Datagram) :
    ∃ s', parse dev d s = some s' ∧ (s'.pending = true ↔ Heard dev d.text) ∧
      (s'.pending = true → (s'.st_is_uuid = true ↔ Named dev s.st_is_uuid d.text)) := by
  obtain ⟨p', s', hrun, hrefines⟩ := bytes_refine dev d.bytes (start_refines h d.remote)
  refine ⟨s', ?_, ?_, fun hpending => ?_⟩
  · rw [parse, hrun]
    rfl
  · rw [hrefines.pending]
    exact pending_iff
  · rw [hrefines.uuid]
    rw [hrefines.pending] at hpending
    exact uuid_iff hpending

/-- **The first reply** to a pending request. -/
theorem firstReply_eq (events : List (Option Datagram × Clock)) (h : s.pending = true) :
    firstReply dev interval events s =
      if (events.map Prod.snd).any s.replyDue = true then
        some (s.st_is_uuid && !s.noticed interval (events.map Prod.snd))
      else none := by
  induction events generalizing s with
  | nil => rfl
  | cons event later ih =>
    obtain ⟨received, clock⟩ := event
    have hupdate : update dev interval received clock s = some (conclude interval clock s) := by
      rw [update.eq_def, h]
      cases received <;> rfl
    rw [firstReply, hupdate, conclude, SSDPClass.noticed, map_cons, any_cons]
    by_cases hreply : s.replyDue clock = true
    · rw [if_pos hreply, hreply, takeWhile_cons_of_neg (by simp [hreply])]
      simp
    · have hnot : s.replyDue clock = false := Bool.eq_false_iff.2 hreply
      rw [if_neg hreply, hnot, Bool.false_or,
        takeWhile_cons_of_pos (by simp [hnot]), any_cons]
      by_cases hnotify : s.notifyDue interval clock = true
      · rw [if_pos hnotify, hnotify]
        dsimp only
        rw [@ih { s with notify_time := clock.noted, st_is_uuid := false } h]
        rw [Bool.true_or, Bool.not_true, Bool.and_false]
        rfl
      · rw [if_neg hnotify, Bool.eq_false_iff.2 hnotify]
        dsimp only
        rw [ih h, Bool.false_or]
        rfl

/-- **The searches that are answered as they are meant.** -/
theorem search_answered_iff (d : Datagram) (clock : Clock) (later : List (Option Datagram × Clock))
    (hidle : s.pending = false) :
    Answered dev interval d clock later s ↔
      Suited dev interval d (clock :: later.map Prod.snd) s := by
  obtain ⟨s', hparse, hpending, huuid⟩ := @parse_spec dev s hidle d
  have hunique : ∀ t, parse dev d s = some t → t = s' := fun t ht =>
    Option.some.inj (ht.symm.trans hparse)
  have hreply : s'.pending = true → firstReply dev interval ((some d, clock) :: later) s =
      if (clock :: later.map Prod.snd).any s'.replyDue = true then
        some (s'.st_is_uuid && !s'.noticed interval (clock :: later.map Prod.snd))
      else none := by
    intro hs'
    have hfirst : update dev interval (some d) clock s = update dev interval none clock s' := by
      rw [update.eq_def, update.eq_def]
      simp [hidle, hparse]
    have hshift : firstReply dev interval ((some d, clock) :: later) s =
        firstReply dev interval ((none, clock) :: later) s' := by
      rw [firstReply, firstReply, hfirst]
    rw [hshift, firstReply_eq _ hs']
    rfl
  have hflag : ∀ b : Bool, s'.pending = true → ((s'.st_is_uuid && !b) = true ↔
      Named dev s.st_is_uuid d.text ∧ b = false) := by
    intro b hs'
    rw [Bool.and_eq_true, Bool.not_eq_true', huuid hs']
  constructor
  · rintro ⟨-, hasks, hnamed⟩
    have hheard : Heard dev d.text ↔ Asks dev d.text := hpending.symm.trans (hasks s' hparse)
    refine ⟨?_, fun t ht hheard hdue => ?_⟩
    · grind
    · obtain rfl := hunique t ht
      have hs' := hpending.2 hheard
      rw [← hflag _ hs']
      exact hnamed _ _ ht hs' ((hreply hs').trans (if_pos hdue))
  · rintro ⟨hheard, hnamed⟩
    refine ⟨by rw [hparse]; rfl, fun t ht => ?_, fun t flag ht ht' hflagged => ?_⟩
    · obtain rfl := hunique t ht
      rw [hpending]
      rcases hheard with ⟨hasks, hheard⟩ | ⟨hasks, hheard⟩
      · exact iff_of_true hheard hasks
      · exact iff_of_false hheard hasks
    · obtain rfl := hunique t ht
      rw [hreply ht'] at hflagged
      split at hflagged
      · rename_i hdue
        cases hflagged
        rw [hflag _ ht']
        exact hnamed t ht (hpending.1 ht') hdue
      · cases hflagged

def basic : Device := ⟨Http.text "urn:basic", Http.text "uuid:1"⟩

def sent (s : String) : Datagram := ⟨(Http.text s).map fun c => ⟨c, 0, fun _ _ => 0⟩, (0, 0)⟩

def idle : SSDPClass := ⟨false, false, 0, 0, 1, (0, 0)⟩

def search : String := "M-SEARCH * HTTP/1.1\r\nST: uuid:1\r\n\r\n"

theorem no_eol (h : (l.all fun c => !isEol c) = true) :
    ∀ c ∈ l, isEol c = false := fun c hc => by
  simpa using all_eq_true.1 h c hc

theorem line_of_no_eol (h : (l.all fun c => !isEol c) = true) (e : UInt8) :
    Line (l ++ [e]) := by
  induction l with
  | nil => exact .singleton e
  | cons a l ih =>
    obtain ⟨ha, hl⟩ := forall_mem_cons.1 (no_eol h)
    refine isChain_cons.2 ⟨fun b _ hpair => ?_, ih (all_eq_true.2 fun c hc => ?_)⟩
    · grind
    · rw [hl c hc]
      rfl

theorem search_request : Request (sent search).text [⟨Http.text "ST", Http.text " uuid:1"⟩] := by
  refine ⟨⟨Http.text "HTTP/1.1", [], by decide, no_eol rfl⟩, fun h hh => ?_⟩
  obtain rfl := mem_singleton.1 hh
  refine ⟨by decide, fun c hc => ?_, no_eol rfl⟩
  have hall : (Http.text "ST").all (fun c => !isEol c && c != 32 && c != 58) = true := rfl
  simpa [and_assoc] using all_eq_true.1 hall c hc

theorem search_taken :
    Taken (sent search).text [⟨Http.text "ST:", Http.text "uuid:1"⟩] [13, 10] := by
  refine ⟨mSearch, [42], Http.text "HTTP/1.1", Http.text "ST: uuid:1\r\n\r\n", 13, 10, by decide,
    by decide, by decide, by decide, rfl, line_of_no_eol rfl 13, rfl, rfl, ?_⟩
  have hrest : Splits [13, 10] [] [13, 10] := .rest (.inl (by decide))
  exact @Splits.field (Http.text "ST:") (Http.text "uuid:1") _ _ 13 10 _ (by decide)
    (line_of_no_eol rfl 13) rfl rfl hrest

/-- A search for the UUID is answered with it. -/
theorem uuid_search_answered : Answered basic 1200 (sent search) ⟨1, 0, 0⟩ [] idle := by
  refine (search_answered_iff _ _ _ rfl).2
    ⟨.inl ⟨?_, ?_⟩, fun s' _ _ hdue => iff_of_true ⟨?_, ?_⟩ ?_⟩
  · exact ⟨_, search_request, _, mem_singleton_self _, rfl, .inr (.inr rfl)⟩
  · refine ⟨_, _, search_taken, passes_cons.2 ⟨fun hrejected => ?_, passes_nil⟩, .inr ?_⟩
    · exact absurd (by decide) hrejected.2
    · exact fourEols_of_trail (by decide)
  · exact ⟨_, _, search_taken, by decide⟩
  · have hreply : s'.replyDue ⟨1, 0, 0⟩ = true := by simpa using hdue
    simp [SSDPClass.noticed, hreply]
  · exact ⟨_, search_request, _, mem_singleton_self _, rfl, rfl⟩

def hosted : String := "M-SEARCH * HTTP/1.1\r\nHOST: STAR\r\nST: uuid:1\r\n\r\n"

theorem hosted_request : Request (sent hosted).text
    [⟨Http.text "HOST", Http.text " STAR"⟩, ⟨Http.text "ST", Http.text " uuid:1"⟩] := by
  refine ⟨⟨Http.text "HTTP/1.1", [], by decide, no_eol rfl⟩, ?_⟩
  refine forall_mem_cons.2 ⟨⟨by decide, fun c hc => ?_, no_eol rfl⟩, search_request.2⟩
  have hall : (Http.text "HOST").all (fun c => !isEol c && c != 32 && c != 58) = true := rfl
  simpa [and_assoc] using all_eq_true.1 hall c hc

theorem not_search_answered : ¬ ∀ (dev : Device) (interval : Nat) (d : Datagram) (clock : Clock)
    (later : List (Option Datagram × Clock)) (s : SSDPClass), s.pending = false →
      Answered dev interval d clock later s := by
  intro hall
  have hanswered := hall basic 1200 (sent hosted) ⟨1, 0, 0⟩ [] idle rfl
  have hparse : parse basic (sent hosted) idle = some idle := rfl
  have hasks : Asks basic (sent hosted).text :=
    ⟨_, hosted_request, _, mem_cons_of_mem _ mem_cons_self, rfl, .inr (.inr rfl)⟩
  exact Bool.false_ne_true ((hanswered.pending _ hparse).2 hasks)

end Ssdp
