import RalioFirmware.Basis.Runs
import RalioFirmware.Http.DigestAuth

/-!
# The headers of a client

`HTTPClient` keeps the headers that are added to a request as one text.
`addHeader` looks for the name and a colon anywhere in it, cuts out what stands
from there to the end of the line, and adds the new line in front or behind.

What it is meant to keep is a list of headers, `kept`.  The text is that list,
line by line, as long as each name is found where its own line begins.
-/

namespace Http

open CString Runs List

/-- What `HTTPClient` keeps for its next request. -/
structure HeaderStore where
  headers : Text
  base64Authorization : Text

/-- The arguments of `addHeader`. -/
structure HeaderCall where
  name : Text
  value : Text
  first : Bool
  replace : Bool

def HeaderCall.handled (base64Authorization : Text) (c : HeaderCall) : Bool :=
  c.name.equalsIgnoreCase (text "Connection") ||
    c.name.equalsIgnoreCase (text "User-Agent") ||
    c.name.equalsIgnoreCase (text "Host") ||
    (c.name.equalsIgnoreCase (text "Authorization") && base64Authorization.length ≠ 0)

/-- What `addHeader` cuts out of the headers for a name and its colon. -/
def cutHeader (headers headerLine : Text) : Text :=
  let headerStart := headers.indexOfText headerLine 0
  if headerStart ≠ -1 then
    let headerEnd := headers.indexOf 10 headerStart.toNat
    headers.substring 0 headerStart.toNat ++
      headers.substring (headerEnd + 1).toNat headers.length
  else headers

def addHeader (c : HeaderCall) (client : HeaderStore) : HeaderStore :=
  if c.handled client.base64Authorization then client
  else
    let headerLine := c.name ++ text ": "
    let headers := if c.replace then cutHeader client.headers headerLine else client.headers
    let headerLine := headerLine ++ c.value ++ text "\r\n"
    { client with headers := if c.first then headerLine ++ headers else headers ++ headerLine }

/-! ## The headers as a list -/

structure Header where
  name : Text
  value : Text

def Header.line (h : Header) : Text := h.name ++ text ": " ++ h.value ++ text "\r\n"

def Header.Complete (h : Header) : Prop :=
  13 ∉ h.name ∧ 10 ∉ h.name ∧ 13 ∉ h.value ∧ 10 ∉ h.value

def Header.named (name : Text) (h : Header) : Bool := h.name.equalsIgnoreCase name

def block (hs : List Header) : Text := hs.flatMap Header.line

def HeaderCall.header (c : HeaderCall) : Header := ⟨c.name, c.value⟩

/-- What a call is meant to do: a header that replaces takes the place of all
that have its name, and nothing else changes. -/
def keep (auth : Text) (c : HeaderCall) (hs : List Header) : List Header :=
  if c.handled auth then hs
  else
    let hs := if c.replace then hs.filter fun h => !h.named c.name else hs
    if c.first then c.header :: hs else hs ++ [c.header]

def kept (auth : Text) (calls : List HeaderCall) : List Header := after (keep auth) calls []

/-! ## When the text is the list -/

/-- A name to be replaced is found where its line begins: there is at most one
header of that name, spelled the same, and the name and its colon stand nowhere
in front of it, nor anywhere where there is none. -/
def Findable (name : Text) (hs : List Header) : Prop :=
  (∀ h ∈ hs, h.named name = false) ∧
    (∀ i < (block hs).length, ¬ Occurs (cstr (name ++ text ": ")) (block hs) i) ∨
  ∃ front h back, hs = front ++ h :: back ∧ h.name = name ∧
    (∀ h' ∈ front ++ back, h'.named name = false) ∧ 0 ∉ block front ++ h.line ∧
    ∀ i < (block front).length, ¬ Occurs (name ++ text ": ") (block hs) i

/-- A call with a name and a value of one line, whose name can be found if it
is to be replaced. -/
def HeaderCall.Meets (auth : Text) (c : HeaderCall) (hs : List Header) : Prop :=
  c.handled auth = false →
    c.header.Complete ∧ (c.replace = true → Findable c.name hs)

section

variable {name auth : Text} {hs front back : List Header} {h : Header} {c : HeaderCall}

theorem block_append (hs hs' : List Header) : block (hs ++ hs') = block hs ++ block hs' :=
  flatMap_append

theorem block_cons (h : Header) (hs : List Header) : block (h :: hs) = h.line ++ block hs := rfl

theorem filter_unnamed (hother : ∀ h ∈ hs, h.named name = false) :
    (hs.filter fun h => !h.named name) = hs :=
  filter_eq_self.mpr fun h hh => by rw [hother h hh]; rfl

theorem equalsLoop_self (s : Text) : Text.equalsLoop s s = true := by
  induction s with
  | nil => rfl
  | cons b s ih => simp [Text.equalsLoop, ih]

theorem named_self (h : Header) : h.named h.name = true := by
  simp [Header.named, Text.equalsIgnoreCase, equalsLoop_self]

theorem cutHeader_absent {headers key : Text}
    (habsent : ∀ i < headers.length, ¬ Occurs (cstr key) headers i) :
    cutHeader headers key = headers := by
  have hnone : headers.indexOfText key 0 = -1 := by
    rw [Text.indexOfText, drop_zero]
    split
    · rfl
    · next hlen =>
        cases hfound : strstr (cstr key) headers with
        | none => rfl
        | some i =>
          obtain ⟨hoccurs, hfirst⟩ := strstr_some hfound
          rcases Nat.lt_or_ge i headers.length with hlt | hge
          · exact absurd hoccurs (habsent i hlt)
          · -- Only the empty needle stands at the end, and it stands in front as well.
            have hend := hoccurs.length_le
            have hcstr := (cstr_start headers).length_le
            have hempty : cstr key = [] := eq_nil_of_length_eq_zero (by omega)
            refine absurd ⟨Nat.zero_le _, ?_⟩ (hfirst 0 (by omega))
            rw [hempty]
            exact nil_prefix
  rw [cutHeader, hnone]
  rfl

theorem strstr_first {needle mem : List UInt8} {p : Nat} (hoccurs : Occurs needle mem p)
    (hfirst : ∀ i < p, ¬ Occurs needle mem i) : strstr needle mem = some p := by
  cases hfound : strstr needle mem with
  | none => exact absurd hoccurs (strstr_none hfound p)
  | some i =>
    obtain ⟨hi, hbefore⟩ := strstr_some hfound
    rcases Nat.lt_trichotomy i p with hlt | rfl | hgt
    · exact absurd hi (hfirst i hlt)
    · rfl
    · exact absurd hoccurs (hbefore p hgt)

/-- **The line is cut out** where its name and colon stand nowhere in front of
it. -/
theorem cutHeader_line (hzero : 0 ∉ block front ++ h.line) (hline : 10 ∉ h.name ∧ 10 ∉ h.value)
    (hfirst : ∀ i < (block front).length,
      ¬ Occurs (h.name ++ text ": ") (block (front ++ h :: back)) i) :
    cutHeader (block (front ++ h :: back)) (h.name ++ text ": ") = block (front ++ back) := by
  have hkey : (0 : UInt8) ∉ h.name ++ text ": " := fun hmem =>
    hzero (mem_append_right _ (mem_append_left _ (mem_append_left _ hmem)))
  have hne : h.name ++ text ": " ≠ [] := fun he =>
    absurd (append_eq_nil_iff.mp he).2 (by decide)
  have hblock : block (front ++ h :: back) = block front ++ (h.line ++ block back) := by
    rw [block_append, block_cons]
  have hsplit : h.line ++ block back =
      (h.name ++ text ": ") ++ (h.value ++ text "\r\n" ++ block back) := by
    simp only [Header.line, append_assoc]
  have hstart : (block (front ++ h :: back)).indexOfText (h.name ++ text ": ") 0 =
      (block front).length := by
    have hoccurs : Occurs (h.name ++ text ": ") (block (front ++ h :: back))
        (block front).length := by
      refine (occurs_iff hne).mpr ⟨?_, ?_⟩
      · grind
      · rw [hblock, drop_left, hsplit, take_left]
    have hlen := hoccurs.length_le
    have hcstr := (cstr_start (block (front ++ h :: back))).length_le
    have hpos : 0 < (h.name ++ text ": ").length :=
      length_pos_iff.mpr hne
    rw [Text.indexOfText, if_neg (by omega), cstr_eq_self hkey, drop_zero,
      strstr_first hoccurs hfirst]
    simp
  have hend : (block (front ++ h :: back)).indexOf 10 (block front).length =
      indexAt (block front).length (some (h.line.length - 1)) := by
    have hbreak : h.line = (h.name ++ text ": " ++ h.value ++ [13]) ++ [10] := by
      rw [Header.line, append_assoc _ [13] [10]]
      rfl
    have hfound : strchr 10 (h.line ++ block back) = some (h.line.length - 1) := by
      refine (strchr_eq_some (by decide)).mpr
        ⟨h.name ++ text ": " ++ h.value ++ [13], block back, ?_, ?_, ?_, ?_⟩
      · grind
      · rw [hbreak, @length_append _ _ [10], length_singleton, Nat.add_sub_cancel]
      · simp [mem_append, hline.1, hline.2]
        decide
      · grind
    rw [indexOf_eq (by decide), hblock, drop_left, hfound]
  have hpos : 0 < h.line.length := by
    rw [Header.line, length_append]
    exact Nat.lt_add_left _ (by decide)
  have hnext : (indexAt (block front).length (some (h.line.length - 1)) + 1).toNat =
      (block front).length + h.line.length := by
    rw [indexAt]
    omega
  rw [cutHeader, hstart]
  dsimp only
  rw [if_pos (by omega), Int.toNat_natCast, hend, hnext, hblock, block_append,
    substring_eq _ (Nat.zero_le _), substring_eq _ (by simp), drop_zero, Nat.sub_zero,
    take_left, ← append_assoc, ← length_append, drop_left,
    take_of_length_le (by simp only [length_append]; omega)]

/-! ## The calls -/

/-- **One call** leaves what it is meant to. -/
theorem addHeader_block (hc : HeaderCall.Meets auth c hs) (hcomplete : ∀ h ∈ hs, h.Complete) :
    addHeader c ⟨block hs, auth⟩ = ⟨block (keep auth c hs), auth⟩ := by
  rw [addHeader, keep]
  cases hhandled : c.handled auth with
  | true => rfl
  | false =>
    obtain ⟨-, hreplace⟩ := hc hhandled
    have hcut : (if c.replace then cutHeader (block hs) (c.name ++ text ": ") else block hs) =
        block (if c.replace then hs.filter fun h => !h.named c.name else hs) := by
      cases hr : c.replace with
      | false => rfl
      | true =>
        rcases hreplace hr with ⟨hother, habsent⟩ |
          ⟨front, h, back, rfl, hname, hother, hzero, hfirst⟩
        · show cutHeader _ _ = block (hs.filter _)
          rw [cutHeader_absent habsent, filter_unnamed hother]
        · have hlines := hcomplete h (by simp)
          show cutHeader _ _ = block (filter _ (front ++ h :: back))
          rw [filter_append, filter_cons_of_neg (by simp [← hname, named_self]),
            ← filter_append, filter_unnamed hother]
          rw [← hname] at hfirst ⊢
          exact cutHeader_line hzero ⟨hlines.2.1, hlines.2.2.2⟩ hfirst
    dsimp only
    simp only [Bool.false_eq_true, if_false]
    rw [hcut]
    generalize (if c.replace then hs.filter fun h => !h.named c.name else hs) = hs'
    cases c.first with
    | false =>
      show HeaderStore.mk (block hs' ++ c.header.line) auth = ⟨block (hs' ++ [c.header]), auth⟩
      rw [block_append, block_cons]
      simp [block]
    | true => rfl

theorem keep_complete (hc : HeaderCall.Meets auth c hs) (hcomplete : ∀ h ∈ hs, h.Complete) :
    ∀ h ∈ keep auth c hs, h.Complete := by
  intro h hh
  rw [keep] at hh
  cases hhandled : c.handled auth with
  | true =>
    grind
  | false =>
    have hold : ∀ h ∈ (if c.replace then hs.filter fun h => !h.named c.name else hs),
        h.Complete := by grind
    simp only [hhandled, Bool.false_eq_true, if_false] at hh
    split at hh
    · rcases mem_cons.mp hh with rfl | hh
      · exact (hc hhandled).1
      · exact hold h hh
    · rcases mem_append.mp hh with hh | hh
      · exact hold h hh
      · obtain rfl := mem_singleton.mp hh
        exact (hc hhandled).1

theorem keep_replaced (hhandled : c.handled auth = false) (hreplace : c.replace = true) :
    (keep auth c hs).filter (Header.named c.name) = [c.header] := by
  have hself : Header.named c.name c.header = true := named_self c.header
  have hnone : (hs.filter fun h => !h.named c.name).filter (Header.named c.name) = [] := by
    rw [filter_filter, filter_eq_nil_iff]
    intro h _
    simp
  rw [keep]
  simp only [hhandled, hreplace, Bool.false_eq_true, if_false, if_true]
  split
  · rw [filter_cons_of_pos hself, hnone]
  · grind

theorem keep_other {d : HeaderCall} (hname : d.name.equalsIgnoreCase name = false)
    (hheaders : ∀ h ∈ hs.filter (Header.named name), h.named d.name = false) :
    (keep auth d hs).filter (Header.named name) = hs.filter (Header.named name) := by
  have hnew : ¬ Header.named name d.header = true := by
    rw [Header.named]
    simpa [HeaderCall.header] using hname
  have hold : (if d.replace then hs.filter fun h => !h.named d.name else hs).filter
      (Header.named name) = hs.filter (Header.named name) := by
    split
    · rw [filter_filter]
      refine filter_congr fun h hh => ?_
      cases hn : h.named name with
      | false => rfl
      | true => rw [hheaders h (mem_filter.mpr ⟨hh, hn⟩)]; rfl
    · rfl
  rw [keep]
  split
  · rfl
  · dsimp only
    split
    · rw [filter_cons_of_neg hnew, hold]
    · grind

theorem after_replaced {calls : List HeaderCall}
    (hother : ∀ d ∈ calls, d.handled auth = false →
      d.name.equalsIgnoreCase c.name = false ∧ c.name.equalsIgnoreCase d.name = false)
    (hhs : hs.filter (Header.named c.name) = [c.header]) :
    (after (keep auth) calls hs).filter (Header.named c.name) = [c.header] := by
  induction calls generalizing hs with
  | nil => exact hhs
  | cons d calls ih =>
    refine ih (fun d hd => hother d (mem_cons_of_mem _ hd)) ?_
    cases hhandled : d.handled auth with
    | true => rwa [keep, if_pos hhandled]
    | false =>
      obtain ⟨hd, hc⟩ := hother d mem_cons_self hhandled
      rw [keep_other hd, hhs]
      intro h hh
      rw [hhs] at hh
      obtain rfl := mem_singleton.mp hh
      exact hc

theorem after_block {calls : List HeaderCall} (hcomplete : ∀ h ∈ hs, h.Complete)
    (hmeets : AllFit (keep auth) (HeaderCall.Meets auth) calls hs) :
    after addHeader calls ⟨block hs, auth⟩ = ⟨block (after (keep auth) calls hs), auth⟩ ∧
      ∀ h ∈ after (keep auth) calls hs, h.Complete := by
  induction calls generalizing hs with
  | nil => exact ⟨rfl, hcomplete⟩
  | cons c calls ih =>
    rw [Runs.after, addHeader_block hmeets.1 hcomplete]
    exact ih (keep_complete hmeets.1 hcomplete) hmeets.2

/-- **The headers sent.**  Calls whose names can be found leave exactly the
lines of the headers they are meant to leave, and of each name that was
replaced the last value. -/
theorem addHeaders_kept (auth : Text) (calls : List HeaderCall)
    (hmeets : AllFit (keep auth) (HeaderCall.Meets auth) calls []) :
    (after addHeader calls ⟨[], auth⟩).headers = block (kept auth calls) ∧
    (∀ h ∈ kept auth calls, h.Complete) ∧
    ∀ front c back, calls = front ++ c :: back → c.handled auth = false → c.replace = true →
      (∀ d ∈ back, d.handled auth = false →
        d.name.equalsIgnoreCase c.name = false ∧ c.name.equalsIgnoreCase d.name = false) →
      (kept auth calls).filter (Header.named c.name) = [c.header] := by
  obtain ⟨hblock, hcomplete⟩ := after_block (fun h hh => absurd hh List.not_mem_nil) hmeets
  refine ⟨congrArg HeaderStore.headers hblock, hcomplete, ?_⟩
  rintro front c back rfl hhandled hreplace hother
  rw [kept, after_append]
  show (after (keep auth) back _).filter _ = _
  exact after_replaced hother (keep_replaced hhandled hreplace)

end

def headerCall (name value : String) : HeaderCall := ⟨text name, text value, false, true⟩

/-- A header is added, another one, and the first one again. -/
theorem addHeaders_kept_sample :
    (after addHeader [headerCall "Foo" "a", headerCall "X-Bar" "b", headerCall "Foo" "c"]
      ⟨[], []⟩).headers = text "X-Bar: b\r\nFoo: c\r\n" := by
  have hmeets : AllFit (keep []) (HeaderCall.Meets [])
      [headerCall "Foo" "a", headerCall "X-Bar" "b", headerCall "Foo" "c"] [] := by
    refine ⟨fun _ => ⟨by unfold Header.Complete; decide, fun _ => .inl ⟨by decide, ?_⟩⟩,
      fun _ => ⟨by unfold Header.Complete; decide, fun _ => .inl ⟨by decide, ?_⟩⟩,
      fun _ => ⟨by unfold Header.Complete; decide, fun _ => .inr ⟨[], ⟨text "Foo", text "a"⟩,
        [⟨text "X-Bar", text "b"⟩], rfl, rfl, by decide, by decide, ?_⟩⟩, trivial⟩ <;>
    · unfold Occurs
      decide
  rw [(addHeaders_kept [] _ hmeets).1]
  decide

/-- A header whose name ends in the name that is replaced is taken apart, and
what is left of it stands in front of the new line. -/
theorem not_addHeaders_kept :
    (after addHeader [headerCall "X-Foo" "a", headerCall "Foo" "b"] ⟨[], []⟩).headers =
        text "X-Foo: b\r\n" ∧
      (after addHeader [headerCall "X-Foo" "a", headerCall "Foo" "b"] ⟨[], []⟩).headers ≠
        block (kept [] [headerCall "X-Foo" "a", headerCall "Foo" "b"]) := by
  decide

end Http
