import RalioFirmware.Basis.QuotedSearch
import RalioFirmware.Mesh.Metadata

/-!
# JSON texts of the ESP-NOW mesh

The nodes write their JSON by joining texts, and look for a value by the name that stands in
front of it, in quotation marks and with a colon.  There are no escape characters: a string ends
at the first quotation mark.

The second half of the module is the reading of such a text.  What a reader skips on its way to a
name is a matter of the name only, and is closed under concatenation; so a text is read by going
through its parts.
-/

namespace Mesh

open Http CString List

/-! ## Numbers -/

/-- The digits of a number to a base, the last one first.  The rounds of the loop are as many as
a number of the type has digits at most. -/
def digits (base : Nat) : Nat → Nat → Text
  | 0, _ => []
  | rounds + 1, number =>
    hexChar (number % base) ::
      if number / base = 0 then [] else digits base rounds (number / base)

/-- `uint64ToString` for the base 16. -/
def uint64ToString (number : Nat) : Text := (digits 16 16 number).reverse

/-- `String(unsigned int)`. -/
def unsignedToString (number : Nat) : Text := (digits 10 10 number).reverse

/-- `hexStringToUint8Array` for six bytes; `none` is the assertion. -/
def stringToMac (beside : UInt8 → UInt8) (macString : Text) : Option Mac :=
  let byte (i : Nat) := UInt8.ofNat (charValue beside (macString.charAt (2 * i)) * 16 +
    charValue beside (macString.charAt (2 * i + 1)))
  if 12 ≤ macString.length then some ⟨byte 0, byte 1, byte 2, byte 3, byte 4, byte 5⟩ else none

/-- The number that the leading digits to a base stand for. -/
def leadingValue (base : Nat) (mem : Text) : Nat :=
  (mem.takeWhile fun b => (hexDigit b).any (· < base)).foldl
    (fun n b => n * base + (hexDigit b).getD 0) 0

/-- The base that a text shows by its prefix, and what comes behind the prefix. -/
def numberBase : Text → Nat × Text
  | 48 :: 120 :: rest => (16, rest)
  | 48 :: 88 :: rest => (16, rest)
  | 48 :: rest => (8, rest)
  | mem => (10, mem)

/-- `strtoul` for the base 0 and an `unsigned long` of 32 bits. -/
def strtoul (mem : Text) : Nat :=
  let mem := mem.dropWhile isspace
  let negative := mem.headD 0 = 45
  let (base, mem) := numberBase (if negative ∨ mem.headD 0 = 43 then mem.tail else mem)
  let value := leadingValue base mem
  if 4294967296 ≤ value then 4294967295
  else if negative then (4294967296 - value) % 4294967296
  else value

/-! ## Writing -/

namespace JsonTranslator

def jsonConnectionState : Text := text "connectionState"
def jsonPassword : Text := text "password"
def jsonOwnSessionKey : Text := text "ownSK"
def jsonPeerSessionKey : Text := text "peerSK"
def jsonPeerStaMac : Text := text "peerStaMac"
def jsonPeerApMac : Text := text "peerApMac"
def jsonDuration : Text := text "duration"
def jsonNonce : Text := text "nonce"
def jsonHmac : Text := text "hmac"
def jsonDesync : Text := text "desync"
def jsonArguments : Text := text "arguments"

/-- `String('"') + s + String('"')`. -/
def quoted (s : Text) : Text := 34 :: s ++ [34]

/-- `result[result.length() - 1] = '}'`. -/
def closeObject (result : Text) : Text := result.dropLast ++ [125]

/-- `encode`, whose list is one of pairs. -/
def encode (identifiersAndValues : List (Text × Text)) : Text :=
  closeObject (123 :: identifiersAndValues.flatMap fun p =>
    quoted p.1 ++ [58] ++ (if p.2.charAt 0 = 123 then p.2 else quoted p.2) ++ [44])

/-- `encodeLiterally`, whose list is one of pairs. -/
def encodeLiterally (identifiersAndValues : List (Text × Text)) : Text :=
  closeObject (123 :: identifiersAndValues.flatMap fun p => quoted p.1 ++ [58] ++ p.2 ++ [44])

/-! ## Reading -/

/-- `String::indexOf` of a text, from the first character on. -/
def indexOfText (s s2 : Text) : Int :=
  if s.length = 0 then -1
  else match strstr (cstr s2) s with
    | none => -1
    | some i => (i : Int)

def getStartIndex (jsonString valueIdentifier : Text) : Int :=
  let startIndex := indexOfText jsonString (quoted valueIdentifier ++ [58])
  if startIndex < 0 then startIndex else startIndex + (valueIdentifier.length + 3 : Nat)

/-- The loop of `getEndIndex` for an object, on what is left of the text at an index. -/
def objectEnd : Text → Nat → Bool → Nat → Int
  | [], _, _, _ => -1
  | c :: rest, depth, withinString, index =>
    if c = 34 then objectEnd rest depth (!withinString) (index + 1)
    else if withinString then objectEnd rest depth withinString (index + 1)
    else if c = 123 then objectEnd rest (depth + 1) withinString (index + 1)
    else if c = 125 then
      if depth = 1 then (index : Int) else objectEnd rest (depth - 1) withinString (index + 1)
    else objectEnd rest depth withinString (index + 1)

def getEndIndex (jsonString : Text) (searchStartIndex : Nat) : Int :=
  if jsonString.charAt searchStartIndex = 34 then jsonString.indexOf 34 (searchStartIndex + 1)
  else if jsonString.charAt searchStartIndex = 123 then
    objectEnd (jsonString.drop (searchStartIndex + 1)) 1 false (searchStartIndex + 1)
  else -1

/-- `decode` into a `String`. -/
def decode (jsonString valueIdentifier : Text) : Option Text :=
  let startIndex := getStartIndex jsonString valueIdentifier
  if startIndex < 0 then none
  else
    let endIndex := getEndIndex jsonString startIndex.toNat
    if endIndex < 0 then none
    else if jsonString.charAt startIndex.toNat = 34 then
      some (jsonString.substring (startIndex.toNat + 1) endIndex.toNat)
    else
      -- An object: `getEndIndex` finds no end from any other character.
      some (jsonString.substring startIndex.toNat (endIndex.toNat + 1))

def getMac (beside : UInt8 → UInt8) (jsonString valueIdentifier : Text) : Option Mac :=
  match decode jsonString valueIdentifier with
  | none => none
  | some jsonValue => if jsonValue.length ≠ 12 then none else stringToMac beside jsonValue

def getConnectionState (jsonString : Text) : Option Text := decode jsonString jsonConnectionState

def getPassword (jsonString : Text) : Option Text := decode jsonString jsonPassword

def getOwnSessionKey (beside : UInt8 → UInt8) (jsonString : Text) : Option Nat :=
  (decode jsonString jsonOwnSessionKey).map (stringToUint64 beside)

def getPeerSessionKey (beside : UInt8 → UInt8) (jsonString : Text) : Option Nat :=
  (decode jsonString jsonPeerSessionKey).map (stringToUint64 beside)

def getPeerStaMac (beside : UInt8 → UInt8) (jsonString : Text) : Option Mac :=
  getMac beside jsonString jsonPeerStaMac

def getPeerApMac (beside : UInt8 → UInt8) (jsonString : Text) : Option Mac :=
  getMac beside jsonString jsonPeerApMac

def getDuration (jsonString : Text) : Option Nat := (decode jsonString jsonDuration).map strtoul

def getNonce (jsonString : Text) : Option Text := decode jsonString jsonNonce

def getHmac (jsonString : Text) : Option Text := decode jsonString jsonHmac

def getDesync (jsonString : Text) : Option Bool :=
  (decode jsonString jsonDesync).map fun jsonValue => strtoul jsonValue ≠ 0

/-! ## Where a value is found -/

/-- The needle of `getStartIndex`. -/
abbrev key (id : Text) : Text := quotedKey 34 58 id

theorem quoted_colon (id : Text) : quoted id ++ [58] = key id := by
  simp [quoted, quotedKey]

structure IsName (id : Text) : Prop where
  nonempty : id ≠ []
  letter : ∀ c ∈ id, 65 ≤ c ∧ c ≤ 122

instance (id : Text) : Decidable (IsName id) :=
  decidable_of_iff (id ≠ [] ∧ id.all (fun c => decide (65 ≤ c ∧ c ≤ 122)) = true)
    ⟨fun h => ⟨h.1, fun c hc => of_decide_eq_true (List.all_eq_true.mp h.2 c hc)⟩,
      fun h => ⟨h.1, List.all_eq_true.mpr fun c hc => decide_eq_true (h.letter c hc)⟩⟩

theorem IsName.plain {id : Text} (h : IsName id) : Plain 34 id where
  quote_notMem := fun hmem => absurd (h.letter _ hmem).1 (by decide)
  zero_notMem := fun hmem => absurd (h.letter _ hmem).1 (by decide)

theorem zero_notMem_key {id : Text} (h : IsName id) : 0 ∉ key id := by
  intro hmem
  rcases mem_cons.mp hmem with hzero | hmem
  · exact absurd hzero (by decide)
  · rcases mem_append.mp hmem with hmem | hmem
    · exact h.plain.zero_notMem hmem
    · exact absurd hmem (by decide)

theorem key_ne_nil (id : Text) : key id ≠ [] := cons_ne_nil _ _

def Separates (c : UInt8) : Prop := c = 44 ∨ c = 58 ∨ c = 123 ∨ c = 125

variable {s : Text} {separator : UInt8}

theorem skips_item {id : Text} (hid : IsName id) (hs : Plain 34 s)
    (hsep : Separates separator) (hother : s ≠ id ∨ separator ≠ 58) :
    Skips (key id) (quotedItem 34 s separator) := by
  have hne : separator ≠ 0 ∧ separator ≠ 34 ∧ ¬ (65 ≤ separator ∧ separator ≤ 122) := by
    rcases hsep with rfl | rfl | rfl | rfl <;> decide
  refine skips_quotedItem (by decide) hid.plain.quote_notMem hs hne.1 hne.2.1 hid.nonempty ?_
    hother
  intro hhead
  exact hne.2.2 (hid.letter _ (mem_of_mem_head? hhead))

section

variable {id front : Text}

theorem indexOfText_found (hid : IsName id) (hskip : Skips (key id) front) (back : Text) :
    indexOfText (front ++ (key id ++ back)) (key id) = (front.length : Int) := by
  have hpos : 0 < (key id).length := length_pos_of_ne_nil (key_ne_nil id)
  have hlength : ¬ (front ++ (key id ++ back)).length = 0 := by grind
  rw [indexOfText, if_neg hlength, cstr_eq_self (zero_notMem_key hid), hskip,
    strstr_here (key_ne_nil id) (zero_notMem_key hid), Option.map_some, Nat.zero_add]

theorem getStartIndex_found (hid : IsName id) (hskip : Skips (key id) front) (back : Text) :
    getStartIndex (front ++ (key id ++ back)) id = (front.length + (key id).length : Nat) := by
  have hkey : (key id).length = id.length + 3 := by simp [quotedKey]
  rw [getStartIndex, quoted_colon, indexOfText_found hid hskip, hkey]
  have hpos : ¬ ((front.length : Int) < 0) := by omega
  simp only [if_neg hpos]
  omega

theorem decode_absent (hid : IsName id) (hskip : Skips (key id) front) :
    decode front id = none := by
  have hnone : strstr (key id) front = none := by
    have hall := hskip []
    rw [append_nil, strstr, if_neg (key_ne_nil id), Option.map_none] at hall
    exact hall
  have hindex : indexOfText front (key id) = -1 := by
    rw [indexOfText, cstr_eq_self (zero_notMem_key hid), hnone]
    split <;> rfl
  have hstart : getStartIndex front id = -1 := by
    rw [getStartIndex, quoted_colon, hindex]
    rfl
  rw [decode, hstart]
  rfl

/-- **A string is read to its closing quotation mark.** -/
theorem decode_string {value : Text} (hid : IsName id) (hskip : Skips (key id) front)
    (hvalue : Plain 34 value) (back : Text) :
    decode (front ++ (key id ++ (quoted value ++ back))) id = some value := by
  have hstart := getStartIndex_found hid hskip (quoted value ++ back)
  rw [← append_assoc, ← length_append] at hstart
  rw [← append_assoc]
  generalize front ++ key id = start at hstart ⊢
  have htext : start ++ (quoted value ++ back) = (start ++ [34]) ++ (value ++ 34 :: back) := by
    simp [quoted]
  have hopen : (start ++ [34]).length = start.length + 1 := by simp
  have hchar : (start ++ (quoted value ++ back)).charAt start.length = 34 := by
    simp [Text.charAt, quoted]
  have hend : getEndIndex (start ++ (quoted value ++ back)) start.length =
      (start.length + 1 + value.length : Nat) := by
    rw [getEndIndex, if_pos hchar, htext, ← hopen,
      indexOf_found hvalue.quote_notMem hvalue.zero_notMem]
  have hpos : ¬ ((start.length : Int) < 0) := by omega
  have hpos' : ¬ (((start.length + 1 + value.length : Nat) : Int) < 0) := by omega
  simp only [decode, hstart, if_neg hpos, Int.toNat_natCast, hend, if_neg hpos', if_pos hchar]
  rw [htext, ← hopen, substring_found]

end

/-! ## The members of an object -/

structure Member where
  name : Text
  value : Text
  after : UInt8

structure Member.Sound (m : Member) : Prop where
  name : IsName m.name
  value : Plain 34 m.value
  after : m.after = 44 ∨ m.after = 125

def Member.chars (m : Member) : Text := quotedItem 34 m.name 58 ++ quotedItem 34 m.value m.after

def membersText (members : List Member) : Text := members.flatMap Member.chars

variable {m : Member}

theorem Member.Sound.skips (h : m.Sound) {id : Text} (hid : IsName id)
    (hne : m.name ≠ id) : Skips (key id) m.chars := by
  have hafter : Separates m.after ∧ m.after ≠ 58 := by
    rcases h.after with hc | hc <;> rw [hc, Separates] <;> decide
  refine (skips_item hid h.name.plain (.inr (.inl rfl)) (.inl hne)).append ?_
  exact skips_item hid h.value hafter.1 (.inr hafter.2)

variable {members : List Member}

/-- **Every member is read** as what was written under its name. -/
theorem decode_member (hsound : ∀ m ∈ members, m.Sound)
    (hnodup : (members.map Member.name).Nodup) (hmem : m ∈ members) {front : Text}
    (hskip : Skips (key m.name) front) (back : Text) :
    decode (front ++ (membersText members ++ back)) m.name = some m.value := by
  induction members generalizing front with
  | nil => cases hmem
  | cons a members ih =>
    rw [map_cons, nodup_cons] at hnodup
    have ha : a.Sound := hsound a mem_cons_self
    have htail : ∀ b ∈ members, b.Sound := fun b hb => hsound b (mem_cons_of_mem _ hb)
    rcases mem_cons.mp hmem with rfl | hmem
    · have htext : membersText (m :: members) ++ back =
          key m.name ++ (quoted m.value ++ (m.after :: (membersText members ++ back))) := by
        simp [membersText, Member.chars, quotedItem, quotedKey, quoted]
      rw [htext]
      exact decode_string ha.name hskip ha.value _
    · have hm : m.Sound := htail m hmem
      have hne : a.name ≠ m.name := fun h =>
        hnodup.1 (h ▸ mem_map_of_mem hmem)
      have htext : front ++ (membersText (a :: members) ++ back) =
          (front ++ a.chars) ++ (membersText members ++ back) := by
        simp [membersText]
      rw [htext]
      exact ih htail hnodup.2 hmem (hskip.append (ha.skips hm.name hne))

theorem skips_members (hsound : ∀ m ∈ members, m.Sound) {id : Text}
    (hid : IsName id) (habsent : id ∉ members.map Member.name) :
    Skips (key id) (membersText members) := by
  induction members with
  | nil => exact Skips.nil
  | cons a members ih =>
    rw [map_cons, mem_cons, not_or] at habsent
    refine ((hsound a mem_cons_self).skips hid (Ne.symm habsent.1)).append ?_
    exact ih (fun b hb => hsound b (mem_cons_of_mem _ hb)) habsent.2

/-! ## What `encode` writes -/

def commas (members : List (Text × Text)) : List Member := members.map fun p => ⟨p.1, p.2, 44⟩

def objectMembers (init : List (Text × Text)) (last : Text × Text) : List Member :=
  commas init ++ [⟨last.1, last.2, 125⟩]

theorem membersText_append (ms ms' : List Member) :
    membersText (ms ++ ms') = membersText ms ++ membersText ms' := by
  simp [membersText]

theorem membersText_commas (pairs : List (Text × Text)) :
    membersText (commas pairs) =
      pairs.flatMap fun p => quoted p.1 ++ [58] ++ quoted p.2 ++ [44] := by
  induction pairs with
  | nil => rfl
  | cons p pairs ih =>
    rw [flatMap_cons, ← ih]
    simp [commas, membersText, Member.chars, quotedItem, quoted]

theorem closeObject_strings (init : List (Text × Text)) (last : Text × Text) :
    closeObject (123 :: (init ++ [last]).flatMap fun p =>
        quoted p.1 ++ [58] ++ quoted p.2 ++ [44]) =
      123 :: membersText (objectMembers init last) := by
  rw [flatMap_append, ← membersText_commas, objectMembers, membersText_append]
  generalize membersText (commas init) = front
  have hlast : (123 :: (front ++ [last].flatMap fun p =>
      quoted p.1 ++ [58] ++ quoted p.2 ++ [44])) =
      (123 :: (front ++ (quoted last.1 ++ [58] ++ quoted last.2))) ++ [44] := by simp
  rw [hlast, closeObject, dropLast_concat]
  simp [membersText, Member.chars, quotedItem, quoted]

theorem encode_strings {init : List (Text × Text)} {last : Text × Text}
    (hstring : ∀ p ∈ init ++ [last], p.2.charAt 0 ≠ 123) :
    encode (init ++ [last]) = 123 :: membersText (objectMembers init last) := by
  rw [encode, ← closeObject_strings]
  have hitems : (init ++ [last]).flatMap (fun p =>
      quoted p.1 ++ [58] ++ (if p.2.charAt 0 = 123 then p.2 else quoted p.2) ++ [44]) =
      (init ++ [last]).flatMap fun p => quoted p.1 ++ [58] ++ quoted p.2 ++ [44] := by
    refine flatMap_congr ?_
    intro p hp
    rw [if_neg (hstring p hp)]
  rw [hitems]

theorem encode_object (id inner : Text) :
    encode [(id, 123 :: inner)] = 123 :: (key id ++ (123 :: inner ++ [125])) := by
  have hitem : (123 :: [(id, 123 :: inner)].flatMap fun p : Text × Text =>
      quoted p.1 ++ [58] ++ (if p.2.charAt 0 = 123 then p.2 else quoted p.2) ++ [44]) =
      (123 :: (key id ++ (123 :: inner))) ++ [44] := by
    simp [Text.charAt, quoted, quotedKey]
  rw [encode, hitem, closeObject, dropLast_concat]
  simp

def SoundPairs (pairs : List (Text × Text)) : Prop := ∀ p ∈ pairs, IsName p.1 ∧ Plain 34 p.2

theorem SoundPairs.commas {pairs : List (Text × Text)} (h : SoundPairs pairs) :
    ∀ m ∈ commas pairs, m.Sound := by
  intro m hm
  obtain ⟨p, hp, rfl⟩ := mem_map.mp hm
  exact ⟨(h p hp).1, (h p hp).2, .inl rfl⟩

theorem SoundPairs.objectMembers {init : List (Text × Text)} {last : Text × Text}
    (h : SoundPairs (init ++ [last])) : ∀ m ∈ objectMembers init last, m.Sound := by
  intro m hm
  rcases mem_append.mp hm with hm | hm
  · exact SoundPairs.commas (fun p hp => h p (mem_append_left _ hp)) m hm
  · obtain rfl := mem_singleton.mp hm
    have hlast := h last (mem_append_right _ (mem_singleton.mpr rfl))
    exact ⟨hlast.1, hlast.2, .inr rfl⟩

theorem names_objectMembers (init : List (Text × Text)) (last : Text × Text) :
    (objectMembers init last).map Member.name = (init ++ [last]).map Prod.fst := by
  simp [objectMembers, commas]

/-! ## An object behind a header -/

/-- A header, and the beginning of an object in an object. -/
def opening (header outer : Text) : Text := header ++ 123 :: (key outer ++ [123])

variable {outer : Text}

theorem skips_opening {id header : Text} (hid : IsName id) (hheader : Plain 34 header)
    (houter : IsName outer) (hne : outer ≠ id) : Skips (key id) (opening header outer) := by
  refine (Skips.of_notMem hheader.quote_notMem hheader.zero_notMem).append ?_
  refine Skips.append (Skips.of_notMem (by decide) (by decide) : Skips (key id) [123]) ?_
  exact (skips_item hid houter.plain (.inr (.inl rfl)) (.inl hne)).append
    (Skips.of_notMem (by decide) (by decide))

/-- **An object behind a header is read** member by member. -/
theorem decode_behind {header : Text} {init : List (Text × Text)} {last : Text × Text}
    (hheader : Plain 34 header) (houter : IsName outer) (hpairs : SoundPairs (init ++ [last]))
    (hnodup : (outer :: (init ++ [last]).map Prod.fst).Nodup) {id value : Text}
    (hmem : (id, value) ∈ init ++ [last]) (back : Text) :
    decode (opening header outer ++ (membersText (objectMembers init last) ++ back)) id =
      some value := by
  rw [nodup_cons] at hnodup
  have hid := (hpairs _ hmem).1
  have hne : outer ≠ id := fun h => hnodup.1 (h ▸ mem_map_of_mem hmem)
  have hskip := skips_opening hid hheader houter hne
  obtain ⟨m, hm, rfl, rfl⟩ : ∃ m ∈ objectMembers init last, m.name = id ∧ m.value = value := by
    rcases mem_append.mp hmem with hinit | hlast
    · exact ⟨_, mem_append_left _ (mem_map_of_mem hinit), rfl, rfl⟩
    · rw [mem_singleton] at hlast
      exact ⟨_, mem_append_right _ (mem_singleton.mpr rfl), by rw [← hlast],
        by rw [← hlast]⟩
  refine decode_member hpairs.objectMembers ?_ hm hskip back
  rw [names_objectMembers]
  exact hnodup.2

theorem decode_behind_absent {header : Text} {init : List (Text × Text)}
    {last : Text × Text} (hheader : Plain 34 header) (houter : IsName outer)
    (hpairs : SoundPairs (init ++ [last])) {id : Text} (hid : IsName id)
    (habsent : id ∉ outer :: (init ++ [last]).map Prod.fst) :
    decode (opening header outer ++ (membersText (objectMembers init last) ++ [125])) id =
      none := by
  rw [mem_cons, not_or] at habsent
  refine decode_absent hid ((skips_opening hid hheader houter (Ne.symm habsent.1)).append
    ((skips_members hpairs.objectMembers hid ?_).append
      (Skips.of_notMem (by decide) (by decide))))
  rw [names_objectMembers]
  exact habsent.2

/-! ## The object itself -/

theorem objectEnd_within (hs : 34 ∉ s) (rest : Text) (depth index : Nat) :
    objectEnd (s ++ rest) depth true index = objectEnd rest depth true (index + s.length) := by
  induction s generalizing index with
  | nil => rfl
  | cons c s ih =>
    obtain ⟨hc, hs⟩ := not_or.mp (mem_cons.not.mp hs)
    rw [cons_append, objectEnd, if_neg (Ne.symm hc), if_pos rfl, ih hs, length_cons,
      Nat.add_assoc, Nat.add_comm 1]

theorem objectEnd_quoted (hs : 34 ∉ s) (rest : Text) (depth index : Nat) :
    objectEnd (34 :: (s ++ 34 :: rest)) depth false index =
      objectEnd rest depth false (index + s.length + 2) := by
  rw [objectEnd, if_pos rfl, Bool.not_false, objectEnd_within hs, objectEnd, if_pos rfl,
    Bool.not_true]
  congr 1
  omega

theorem objectEnd_item (hs : 34 ∉ s)
    (hsep : separator = 44 ∨ separator = 58) (rest : Text) (depth index : Nat) :
    objectEnd (quotedItem 34 s separator ++ rest) depth false index =
      objectEnd rest depth false (index + (quotedItem 34 s separator).length) := by
  have htext : quotedItem 34 s separator ++ rest = 34 :: (s ++ 34 :: separator :: rest) := by
    simp [quotedItem]
  have hlength : (quotedItem 34 s separator).length = s.length + 3 := by simp [quotedItem]
  have hne : separator ≠ 34 ∧ separator ≠ 123 ∧ separator ≠ 125 := by
    rcases hsep with rfl | rfl <;> decide
  rw [htext, objectEnd_quoted hs, objectEnd, if_neg hne.1, if_neg Bool.false_ne_true,
    if_neg hne.2.1, if_neg hne.2.2, hlength]
  congr 1

theorem objectEnd_commas {init : List (Text × Text)} (h : SoundPairs init) (rest : Text)
    (depth index : Nat) :
    objectEnd (membersText (commas init) ++ rest) depth false index =
      objectEnd rest depth false (index + (membersText (commas init)).length) := by
  induction init generalizing index with
  | nil => rfl
  | cons p init ih =>
    obtain ⟨hname, hvalue⟩ := h p mem_cons_self
    have htext : membersText (commas (p :: init)) =
        quotedItem 34 p.1 58 ++ (quotedItem 34 p.2 44 ++ membersText (commas init)) := by
      simp [membersText, commas, Member.chars]
    rw [htext, append_assoc, append_assoc,
      objectEnd_item hname.plain.quote_notMem (.inr rfl),
      objectEnd_item hvalue.quote_notMem (.inl rfl),
      ih (fun q hq => h q (mem_cons_of_mem _ hq))]
    simp only [length_append, Nat.add_assoc]

theorem objectEnd_object {init : List (Text × Text)} {last : Text × Text}
    (h : SoundPairs (init ++ [last])) (rest : Text) (index : Nat) :
    objectEnd (membersText (objectMembers init last) ++ rest) 1 false index =
      (index + (membersText (objectMembers init last)).length - 1 : Nat) := by
  have hinit : SoundPairs init := fun p hp => h p (mem_append_left _ hp)
  obtain ⟨hname, hvalue⟩ := h last (mem_append_right _ (mem_singleton.mpr rfl))
  have htext : membersText (objectMembers init last) = membersText (commas init) ++
      (quotedItem 34 last.1 58 ++ 34 :: (last.2 ++ [34, 125])) := by
    simp [objectMembers, membersText, Member.chars, quotedItem]
  have hend : quotedItem 34 last.1 58 ++ 34 :: (last.2 ++ [34, 125]) ++ rest =
      quotedItem 34 last.1 58 ++ 34 :: (last.2 ++ 34 :: (125 :: rest)) := by simp
  rw [htext, append_assoc, hend, objectEnd_commas hinit,
    objectEnd_item hname.plain.quote_notMem (.inr rfl), objectEnd_quoted hvalue.quote_notMem,
    objectEnd, if_neg (by decide), if_neg Bool.false_ne_true, if_neg (by decide), if_pos rfl,
    if_pos rfl]
  simp only [length_append, length_cons, length_nil]
  omega

/-- **An object is read** with its braces. -/
theorem decode_object {id front : Text} {init : List (Text × Text)} {last : Text × Text}
    (hid : IsName id) (hskip : Skips (key id) front) (h : SoundPairs (init ++ [last]))
    (back : Text) :
    decode (front ++ (key id ++ (123 :: membersText (objectMembers init last) ++ back))) id =
      some (123 :: membersText (objectMembers init last)) := by
  have hobject := objectEnd_object h back
  have hpos : 0 < (membersText (objectMembers init last)).length := by
    refine length_pos_of_ne_nil ?_
    rw [objectMembers, membersText_append]
    simp [membersText, Member.chars, quotedItem]
  generalize membersText (objectMembers init last) = inner at hobject hpos ⊢
  have hstart := getStartIndex_found hid hskip (123 :: inner ++ back)
  rw [← append_assoc, ← length_append] at hstart
  rw [← append_assoc]
  generalize front ++ key id = start at hstart ⊢
  have hchar : (start ++ (123 :: inner ++ back)).charAt start.length = 123 := by
    simp [Text.charAt]
  have hdrop : (start ++ (123 :: inner ++ back)).drop (start.length + 1) = inner ++ back := by
    rw [← drop_drop, drop_left]
    rfl
  have hend : getEndIndex (start ++ (123 :: inner ++ back)) start.length =
      (start.length + inner.length : Nat) := by
    rw [getEndIndex, hchar, if_neg (by decide), if_pos rfl, hdrop, hobject]
    omega
  have hnonneg : ¬ ((start.length : Int) < 0) := by omega
  have hnonneg' : ¬ (((start.length + inner.length : Nat) : Int) < 0) := by omega
  have hquote : ¬ ((123 : UInt8) = 34) := by decide
  simp only [decode, hstart, if_neg hnonneg, Int.toNat_natCast, hend, if_neg hnonneg', hchar,
    if_neg hquote]
  have hlength : start.length + inner.length + 1 = start.length + (123 :: inner).length := by
    simp only [length_cons]
    omega
  rw [hlength, substring_found]

end JsonTranslator

end Mesh
