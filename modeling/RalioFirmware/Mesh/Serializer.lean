import RalioFirmware.Mesh.ConnectionTable
import RalioFirmware.Mesh.JsonTranslator

/-!
# The messages by which two nodes pair

A node that wants an encrypted connection sends a request with a nonce and an HMAC, its peer
answers with the nonce, the mesh password and the session keys, and a connection can be written
down and restored later.  All three are JSON texts behind a header.

The JSON has no escape characters.  A nonce or a password with a quotation mark, or with a NUL,
cannot be read, and `encode` takes a nonce that starts with a brace for an object; everything else
comes back as it was.
-/

namespace Mesh

open Http CString JsonTranslator

/-! ## The headers -/

def encryptionRequestHeader : Text := text "AddEC:"
def temporaryEncryptionRequestHeader : Text := text "AddTEC:"
def basicConnectionInfoHeader : Text := text "BasicCI:"
def encryptedConnectionInfoHeader : Text := text "EncryptedCI:"
def softLimitEncryptedConnectionInfoHeader : Text := text "SLEncryptedCI:"
def maxConnectionsReachedHeader : Text := text "MAX_CONNECTIONS_REACHED_PEER:"
def encryptedConnectionVerificationHeader : Text := text "ECVerified:"

inductive RequestHeader where
  | encryptionRequest
  | temporaryEncryptionRequest
  | basicConnectionInfo
  | maxConnectionsReached
deriving DecidableEq

def RequestHeader.chars : RequestHeader → Text
  | .encryptionRequest => encryptionRequestHeader
  | .temporaryEncryptionRequest => temporaryEncryptionRequestHeader
  | .basicConnectionInfo => basicConnectionInfoHeader
  | .maxConnectionsReached => maxConnectionsReachedHeader

inductive InfoHeader where
  | encryptedConnectionInfo
  | softLimitEncryptedConnectionInfo

def InfoHeader.chars : InfoHeader → Text
  | .encryptedConnectionInfo => encryptedConnectionInfoHeader
  | .softLimitEncryptedConnectionInfo => softLimitEncryptedConnectionInfoHeader

def messageBody (message : Text) : Text :=
  message.substring (Text.unsigned (message.indexOf 58 0 + 1)) message.length

/-! ## The HMAC -/

abbrev Hmac := Text → List UInt8 → (n : Nat) → Vector UInt8 n

def createMeshHmac (hmac : Hmac) (message : Text) (hashKey : List UInt8) (hmacLength : Nat) :
    Text :=
  uint8ArrayToHexString (hmac message hashKey hmacLength).toList

def NATURAL_LENGTH : Nat := 32

def verifyMeshHmac (hmac : Hmac) (message messageHmac : Text) (hashKey : List UInt8) : Bool :=
  (createMeshHmac hmac message hashKey (messageHmac.length / 2)).equals messageHmac

def verifyEncryptionRequestHmac (hmac : Hmac) (encryptionRequestHmacMessage : Text)
    (requesterStaMac requesterApMac : Mac) (hashKey : List UInt8) : Bool :=
  match getHmac encryptionRequestHmacMessage with
  | none => false
  | some messageHmac =>
    let hmacStartIndex := indexOfText encryptionRequestHmacMessage (quoted jsonHmac ++ [58])
    if hmacStartIndex < 0 then false
    else messageHmac.length = 2 * NATURAL_LENGTH &&
      verifyMeshHmac hmac (macToString requesterStaMac ++ macToString requesterApMac ++
        encryptionRequestHmacMessage.substring 0 hmacStartIndex.toNat) messageHmac hashKey

/-! ## The serializer -/

namespace Serializer

def createJsonEndPair (valueIdentifier value : Text) : Text :=
  [34] ++ valueIdentifier ++ [34] ++ [58] ++ [34] ++ value ++ [34, 125, 125]

def serializeEncryptedConnection (duration desync ownSK peerSK peerStaMac peerApMac : Text) :
    Text :=
  if duration = [] then
    encode [(jsonConnectionState, encode [(jsonDesync, desync), (jsonOwnSessionKey, ownSK),
      (jsonPeerSessionKey, peerSK), (jsonPeerStaMac, peerStaMac), (jsonPeerApMac, peerApMac)])]
  else
    encode [(jsonConnectionState, encode [(jsonDuration, duration), (jsonDesync, desync),
      (jsonOwnSessionKey, ownSK), (jsonPeerSessionKey, peerSK), (jsonPeerStaMac, peerStaMac),
      (jsonPeerApMac, peerApMac)])]

/-- The session keys change places: the message is for the peer. -/
def createEncryptedConnectionInfo (infoHeader requestNonce authenticationPassword : Text)
    (ownSessionKey peerSessionKey : Nat) : Text :=
  infoHeader ++ encode [(jsonArguments, encodeLiterally [(jsonNonce, quoted requestNonce),
    (jsonPassword, quoted authenticationPassword),
    (jsonOwnSessionKey, quoted (uint64ToString peerSessionKey)),
    (jsonPeerSessionKey, quoted (uint64ToString ownSessionKey))])]

/-- What the HMAC of a request covers, behind the addresses: the message with its object left
open. -/
def mainMessage (requestHeader requestNonce : Text) (duration : Nat) : Text :=
  let message := requestHeader ++
    if requestHeader.equals temporaryEncryptionRequestHeader then
      encode [(jsonArguments, encode [(jsonDuration, unsignedToString duration),
        (jsonNonce, requestNonce)])]
    else encode [(jsonArguments, encode [(jsonNonce, requestNonce)])]
  removeText message (message.length - 2) 4294967295 ++ [44]

/-- `staMac` and `apMac` are the addresses of the node. -/
def createEncryptionRequestHmacMessage (hmac : Hmac) (staMac apMac : Mac)
    (requestHeader requestNonce : Text) (hashKey : List UInt8) (duration : Nat) : Text :=
  let message := mainMessage requestHeader requestNonce duration
  message ++ createJsonEndPair jsonHmac (createMeshHmac hmac
    (macToString staMac ++ macToString apMac ++ message) hashKey NATURAL_LENGTH)

end Serializer

def EncryptedConnectionLog.serialize (now : Nat) (e : EncryptedConnectionLog) : Text :=
  Serializer.serializeEncryptedConnection
    (match e.timeTracker with
      | none => []
      | some t => unsignedToString (t.remainingDuration now))
    (unsignedToString e.desync.toNat) (uint64ToString e.ownSessionKey)
    (uint64ToString e.peerSessionKey) (macToString e.peerStaMac) (macToString e.peerApMac)

/-- What a serialized connection says, its duration apart. -/
structure ConnectionState where
  desync : Bool
  ownSessionKey : Nat
  peerSessionKey : Nat
  peerStaMac : Mac
  peerApMac : Mac

def readConnectionState (beside : UInt8 → UInt8) (serializedConnectionState : Text) :
    Option ConnectionState := do
  let desync ← getDesync serializedConnectionState
  let ownSessionKey ← getOwnSessionKey beside serializedConnectionState
  let peerSessionKey ← getPeerSessionKey beside serializedConnectionState
  let peerStaMac ← getPeerStaMac beside serializedConnectionState
  let peerApMac ← getPeerApMac beside serializedConnectionState
  return ⟨desync, ownSessionKey, peerSessionKey, peerStaMac, peerApMac⟩

namespace ConnectionManager

/-- The end of `addEncryptedConnection`. -/
def setDesync (peerStaMac : Mac) (desync : Bool) :
    EncryptedConnectionStatus × ConnectionManager →
      Except Halt (Option EncryptedConnectionStatus × ConnectionManager)
  | (result, m) =>
    if result = .CONNECTION_ESTABLISHED then
      match m.iterator peerStaMac with
      | some i => .ok (some result, m.modify i fun e => { e with desync })
      -- A null pointer.
      | none => .error .assertFailed
    else .ok (some result, m)

/-- `addEncryptedConnection` of a serialized connection; the status `none` is
`REQUEST_TRANSMISSION_FAILED`. -/
def addSerializedConnection (beside : UInt8 → UInt8) (serializedConnectionState : Text)
    (ignoreDuration : Bool) (hashKey : List UInt8) (sdk : Bool) (tick : Nat)
    (m : ConnectionManager) :
    Except Halt (Option EncryptedConnectionStatus × ConnectionManager) :=
  match readConnectionState beside serializedConnectionState with
  | none => .ok (none, m)
  | some s =>
    let added := match if ignoreDuration then none else getDuration serializedConnectionState with
      | some duration => m.addTemporaryEncryptedConnection s.peerStaMac s.peerApMac
          s.peerSessionKey s.ownSessionKey hashKey duration sdk tick
      | none => m.addEncryptedConnection s.peerStaMac s.peerApMac s.peerSessionKey s.ownSessionKey
          hashKey sdk
    added.bind (setDesync s.peerStaMac s.desync)

end ConnectionManager

/-! ## Numbers that are read back -/

def numbersTo (base : Nat) : Nat → Nat
  | 0 => 1
  | rounds + 1 => numbersTo base rounds * base

theorem foldr_digits {base bound : Nat} (hbase : 0 < base) {f : UInt8 → Nat → Nat}
    (hf : ∀ d < base, ∀ n, n * base + d < bound → f (hexChar d) n = n * base + d)
    {rounds number : Nat} (hrounds : number < numbersTo base rounds) (hbound : number < bound) :
    (digits base rounds number).foldr f 0 = number := by
  induction rounds generalizing number with
  | zero =>
    rw [numbersTo, Nat.lt_one_iff] at hrounds
    rw [hrounds]
    rfl
  | succ rounds ih =>
    have hsplit : number / base * base + number % base = number := Nat.div_add_mod' number base
    have hdigit : number % base < base := Nat.mod_lt _ hbase
    have hhigh : number / base < numbersTo base rounds :=
      (Nat.div_lt_iff_lt_mul hbase).mpr hrounds
    have htail : (if number / base = 0 then [] else digits base rounds (number / base)).foldr
        f 0 = number / base := by
      split
      · rename_i hzero
        rw [hzero]
        rfl
      · exact ih hhigh (Nat.lt_of_le_of_lt (Nat.div_le_self _ _) hbound)
    rw [digits, List.foldr_cons, htail, hf _ hdigit _ (by rw [hsplit]; exact hbound), hsplit]

variable {rounds : Nat}

theorem mem_digits {base number : Nat} (hbase : 0 < base) {b : UInt8}
    (hb : b ∈ digits base rounds number) : ∃ d < base, b = hexChar d := by
  induction rounds generalizing number with
  | zero => cases hb
  | succ rounds ih =>
    rw [digits] at hb
    rcases List.mem_cons.mp hb with rfl | hb
    · exact ⟨_, Nat.mod_lt _ hbase, rfl⟩
    · split at hb
      · cases hb
      · exact ih hb

theorem digits_first {base number : Nat} (hbase : 0 < base) (hne : number ≠ 0)
    (hrounds : number < numbersTo base rounds) :
    ∃ d rest, (digits base rounds number).reverse = hexChar d :: rest ∧ d ≠ 0 ∧ d < base := by
  induction rounds generalizing number with
  | zero =>
    rw [numbersTo] at hrounds
    omega
  | succ rounds ih =>
    have hhigh : number / base < numbersTo base rounds :=
      (Nat.div_lt_iff_lt_mul hbase).mpr hrounds
    rw [digits, List.reverse_cons]
    by_cases hzero : number / base = 0
    · have hlt : number < base := (Nat.div_eq_zero_iff_lt hbase).mp hzero
      rw [if_pos hzero, Nat.mod_eq_of_lt hlt]
      exact ⟨number, [], rfl, hne, hlt⟩
    · obtain ⟨d, rest, hrest, hd⟩ := ih hzero hhigh
      rw [if_neg hzero, hrest]
      exact ⟨d, rest ++ [hexChar (number % base)], rfl, hd⟩

/-- **A session key is read back.** -/
theorem stringToUint64_uint64ToString (beside : UInt8 → UInt8) {number : Nat}
    (hnumber : number < 18446744073709551616) :
    stringToUint64 beside (uint64ToString number) = number := by
  rw [stringToUint64, uint64ToString, List.foldl_reverse]
  refine foldr_digits (by decide) ?_ hnumber hnumber
  intro d hd n hlt
  rw [charValue_hexChar beside d hd]
  exact Nat.mod_eq_of_lt hlt

theorem hexDigit_digit {d : Nat} (hd : d < 10) : hexDigit (hexChar d) = some d := by
  revert hd
  revert d
  decide

theorem leadingValue_unsignedToString {number : Nat} (hnumber : number < 4294967296) :
    leadingValue 10 (unsignedToString number) = number := by
  have hall : (unsignedToString number).takeWhile (fun b => (hexDigit b).any (· < 10)) =
      unsignedToString number := by
    refine List.takeWhile_eq_self_iff.mpr ?_
    intro b hb
    obtain ⟨d, hd, rfl⟩ := mem_digits (by decide) (List.mem_reverse.mp hb)
    rw [hexDigit_digit hd]
    simpa using hd
  rw [leadingValue, hall, unsignedToString, List.foldl_reverse]
  have hrounds : number < numbersTo 10 10 :=
    Nat.lt_trans hnumber (by decide)
  refine @foldr_digits 10 4294967296 (by decide) _ ?_ _ _ hrounds hnumber
  intro d hd n _
  rw [hexDigit_digit hd]
  rfl

theorem numberBase_decimal {c : UInt8} (hc : c ≠ 48) (rest : Text) :
    numberBase (c :: rest) = (10, c :: rest) := by
  unfold numberBase
  split
  · rename_i heq
    exact absurd (List.cons.inj heq).1 hc
  · rename_i heq
    exact absurd (List.cons.inj heq).1 hc
  · rename_i heq
    exact absurd (List.cons.inj heq).1 hc
  · rfl

/-- **A duration is read back**: in decimal, since it does not start with a zero. -/
theorem strtoul_unsignedToString {number : Nat} (hnumber : number < 4294967296) :
    strtoul (unsignedToString number) = number := by
  by_cases hzero : number = 0
  · rw [hzero]
    decide
  · have hrounds : number < numbersTo 10 10 := Nat.lt_trans hnumber (by decide)
    obtain ⟨d, rest, htext, hd, hlt⟩ := digits_first (by decide) hzero hrounds
    have htext : unsignedToString number = hexChar d :: rest := htext
    have hvalue := leadingValue_unsignedToString hnumber
    have hfirst : ∀ d < 10, d ≠ 0 → isspace (hexChar d) = false ∧ hexChar d ≠ 45 ∧
        hexChar d ≠ 43 ∧ hexChar d ≠ 48 := by decide
    obtain ⟨hspace, hminus, hplus, hnozero⟩ := hfirst d hlt hd
    have hdrop : (hexChar d :: rest).dropWhile isspace = hexChar d :: rest := by
      rw [List.dropWhile_cons, if_neg (by rw [hspace]; decide)]
    have hsign : ¬ (hexChar d = 45 ∨ hexChar d = 43) := by
      rintro (h | h)
      · exact hminus h
      · exact hplus h
    rw [htext] at hvalue ⊢
    simp only [strtoul, hdrop, List.headD_cons, if_neg hsign, numberBase_decimal hnozero, hvalue]
    rw [if_neg (by omega), if_neg hminus]

theorem stringToMac_macToString (beside : UInt8 → UInt8) (mac : Mac) :
    stringToMac beside (macToString mac) = some mac := by
  have hbyte : ∀ b : UInt8, UInt8.ofNat (charValue beside (hexChar (b.toNat / 16)) * 16 +
      charValue beside (hexChar (b.toNat % 16))) = b := by
    intro b
    have hb : b.toNat < 256 := b.toNat_lt
    rw [charValue_hexChar beside _ (by omega), charValue_hexChar beside _ (by omega),
      Nat.div_add_mod', UInt8.ofNat_toNat]
  have hlength : 12 ≤ (macToString mac).length := Nat.le_refl 12
  rw [stringToMac, if_pos hlength]
  rw [Option.some_inj]
  exact congr (congr (congr (congr (congr (congrArg Mac.mk (hbyte mac.b0)) (hbyte mac.b1))
    (hbyte mac.b2)) (hbyte mac.b3)) (hbyte mac.b4)) (hbyte mac.b5)

/-! ## Values that can be quoted -/

variable {s : Text}

theorem HexText.plain (hs : HexText s) : Plain 34 s := by
  obtain ⟨hquote, hzero⟩ := @HexText.notMem s hs 34 (by decide)
  exact ⟨hquote, hzero⟩

theorem HexText.charAt_ne (hs : HexText s) : s.charAt 0 ≠ 123 := by
  cases s with
  | nil => decide
  | cons b s =>
    obtain ⟨d, hd, rfl⟩ := hs b List.mem_cons_self
    have hbrace : ∀ d < 16, hexChar d ≠ 123 := by decide
    exact hbrace d hd

theorem hexText_digits {base number : Nat} (hbase : 0 < base) (hle : base ≤ 16) :
    HexText (digits base rounds number).reverse := by
  intro b hb
  obtain ⟨d, hd, rfl⟩ := mem_digits hbase (List.mem_reverse.mp hb)
  exact ⟨d, Nat.lt_of_lt_of_le hd hle, rfl⟩

theorem hexText_uint64ToString (number : Nat) : HexText (uint64ToString number) :=
  hexText_digits (by decide) (by decide)

theorem hexText_unsignedToString (number : Nat) : HexText (unsignedToString number) :=
  hexText_digits (by decide) (by decide)

theorem hexText_macToString (mac : Mac) : HexText (macToString mac) :=
  hexText_uint8ArrayToHexString _

theorem unsignedToString_ne_nil (number : Nat) : unsignedToString number ≠ [] := by
  rw [unsignedToString, digits]
  simp

/-! ## A message behind its header -/

structure IsHeader (header : Text) : Prop where
  colon : header = header.dropLast ++ [58]
  plain : Plain 34 header
  only : 58 ∉ header.dropLast

theorem RequestHeader.isHeader (h : RequestHeader) : IsHeader h.chars := by
  cases h with
  | encryptionRequest => exact ⟨by decide, by decide, by decide⟩
  | temporaryEncryptionRequest => exact ⟨by decide, by decide, by decide⟩
  | basicConnectionInfo => exact ⟨by decide, by decide, by decide⟩
  | maxConnectionsReached => exact ⟨by decide, by decide, by decide⟩

theorem InfoHeader.isHeader (h : InfoHeader) : IsHeader h.chars := by
  cases h with
  | encryptedConnectionInfo => exact ⟨by decide, by decide, by decide⟩
  | softLimitEncryptedConnectionInfo => exact ⟨by decide, by decide, by decide⟩

theorem RequestHeader.equals_temporary (h : RequestHeader) :
    h.chars.equals temporaryEncryptionRequestHeader =
      decide (h = .temporaryEncryptionRequest) := by
  cases h <;> decide

theorem messageBody_behind {header : Text} (h : IsHeader header)
    (hlength : header.length < 4294967296) (body : Text) : messageBody (header ++ body) = body := by
  have hzero : 0 ∉ header.dropLast := fun hmem =>
    h.plain.zero_notMem (List.dropLast_subset _ hmem)
  have htext : header ++ body = [] ++ (header.dropLast ++ 58 :: body) := by
    conv_lhs => rw [h.colon]
    simp
  have hcolon : (header ++ body).indexOf 58 0 = (header.dropLast.length : Int) := by
    rw [htext, ← List.length_nil, indexOf_found h.only hzero]
    simp
  have hlen : header.length = header.dropLast.length + 1 := by
    conv_lhs => rw [h.colon]
    simp
  have hstart : Text.unsigned ((header.dropLast.length : Int) + 1) = header.length := by
    rw [Text.unsigned]
    omega
  have hall := substring_found header body []
  rw [List.append_nil, ← List.length_append] at hall
  rw [messageBody, hcolon, hstart, hall]

theorem messageBody_opening {header : Text} (h : IsHeader header)
    (hlength : header.length < 4294967296) (outer rest : Text) :
    messageBody (opening header outer ++ rest) = opening [] outer ++ rest := by
  have hbehind := messageBody_behind h hlength (opening [] outer ++ rest)
  rw [← hbehind]
  simp [opening]

/-! ## What the serializer writes -/

theorem encodeLiterally_strings (init : List (Text × Text)) (last : Text × Text) :
    encodeLiterally ((init ++ [last]).map fun p => (p.1, quoted p.2)) =
      123 :: membersText (objectMembers init last) := by
  rw [← closeObject_strings, encodeLiterally, List.flatMap_map]

/-- The fields of a message with the session keys, the last one apart. -/
def infoFields (nonce password : Text) (peerSessionKey : Nat) : List (Text × Text) :=
  [(jsonNonce, nonce), (jsonPassword, password),
    (jsonOwnSessionKey, uint64ToString peerSessionKey)]

theorem createEncryptedConnectionInfo_eq (header nonce password : Text) (own peer : Nat) :
    Serializer.createEncryptedConnectionInfo header nonce password own peer =
      opening header jsonArguments ++ (membersText (objectMembers (infoFields nonce password peer)
        (jsonPeerSessionKey, uint64ToString own)) ++ [125]) := by
  have hinner := encodeLiterally_strings (infoFields nonce password peer)
    (jsonPeerSessionKey, uint64ToString own)
  have hinner : encodeLiterally [(jsonNonce, quoted nonce), (jsonPassword, quoted password),
      (jsonOwnSessionKey, quoted (uint64ToString peer)),
      (jsonPeerSessionKey, quoted (uint64ToString own))] = _ := hinner
  rw [Serializer.createEncryptedConnectionInfo, hinner, encode_object]
  simp [opening]

def requestFields (header : RequestHeader) (nonce : Text) (duration : Nat) : List (Text × Text) :=
  (if header = .temporaryEncryptionRequest then [(jsonDuration, unsignedToString duration)]
    else []) ++ [(jsonNonce, nonce)]

theorem open_objectMembers (init : List (Text × Text)) (last : Text × Text) :
    ∃ front, membersText (objectMembers init last) = front ++ [125] ∧
      membersText (commas (init ++ [last])) = front ++ [44] := by
  refine ⟨membersText (commas init) ++ (quoted last.1 ++ [58] ++ quoted last.2), ?_, ?_⟩
  · rw [objectMembers, membersText_append]
    simp [membersText, Member.chars, quotedItem, quoted]
  · rw [membersText_commas, membersText_commas, List.flatMap_append]
    simp

theorem removeText_end (front back : Text) (hback : back ≠ []) (hlen : back.length ≤ 4294967295) :
    removeText (front ++ back) front.length 4294967295 = front := by
  have hpos := List.length_pos_of_ne_nil hback
  have hindex : ¬ front.length ≥ (front ++ back).length := by
    rw [List.length_append]
    omega
  have hcount : min 4294967295 ((front ++ back).length - front.length) = back.length := by
    rw [List.length_append]
    omega
  rw [removeText, if_neg hindex, if_neg (by omega), hcount, List.take_left,
    ← List.length_append, List.drop_length, List.append_nil]

variable {nonce : Text}

theorem mainMessage_eq (header : RequestHeader) (hnonce : nonce.charAt 0 ≠ 123)
    (duration : Nat) :
    Serializer.mainMessage header.chars nonce duration =
      opening header.chars jsonArguments ++
        membersText (commas (requestFields header nonce duration)) := by
  obtain ⟨front, hclosed, hopen⟩ := open_objectMembers
    (if header = .temporaryEncryptionRequest then [(jsonDuration, unsignedToString duration)]
      else []) (jsonNonce, nonce)
  have hmessage : header.chars ++
      (if header.chars.equals temporaryEncryptionRequestHeader then
        encode [(jsonArguments, encode [(jsonDuration, unsignedToString duration),
          (jsonNonce, nonce)])]
      else encode [(jsonArguments, encode [(jsonNonce, nonce)])]) =
      (opening header.chars jsonArguments ++ front) ++ [125, 125] := by
    rw [header.equals_temporary]
    by_cases htemp : header = .temporaryEncryptionRequest
    · rw [if_pos htemp] at hclosed
      have hinner := @encode_strings [(jsonDuration, unsignedToString duration)]
        (jsonNonce, nonce) (by
          intro p hp
          rcases List.mem_pair.mp hp with rfl | rfl
          · exact (hexText_unsignedToString duration).charAt_ne
          · exact hnonce)
      have hinner : encode [(jsonDuration, unsignedToString duration), (jsonNonce, nonce)] = _ :=
        hinner
      rw [if_pos (decide_eq_true htemp), hinner, hclosed, encode_object]
      simp [opening]
    · rw [if_neg htemp] at hclosed
      have hinner := @encode_strings [] (jsonNonce, nonce) (by
        intro p hp
        obtain rfl := List.mem_singleton.mp hp
        exact hnonce)
      have hinner : encode [(jsonNonce, nonce)] = _ := hinner
      rw [if_neg (by simpa using htemp), hinner, hclosed, encode_object]
      simp [opening]
  have hindex : ((opening header.chars jsonArguments ++ front) ++ [125, 125]).length - 2 =
      (opening header.chars jsonArguments ++ front).length := by grind
  simp only [Serializer.mainMessage, hmessage, hindex]
  rw [removeText_end _ _ (by decide) (by decide), requestFields, hopen, List.append_assoc]

theorem createEncryptionRequestHmacMessage_eq (hmac : Hmac) (sta ap : Mac)
    (header : RequestHeader) (hnonce : nonce.charAt 0 ≠ 123)
    (hashKey : List UInt8) (duration : Nat) :
    Serializer.createEncryptionRequestHmacMessage hmac sta ap header.chars nonce hashKey duration =
      opening header.chars jsonArguments ++
        (membersText (objectMembers (requestFields header nonce duration)
          (jsonHmac, createMeshHmac hmac (macToString sta ++ macToString ap ++
            Serializer.mainMessage header.chars nonce duration) hashKey NATURAL_LENGTH)) ++
          [125]) := by
  rw [Serializer.createEncryptionRequestHmacMessage, objectMembers, membersText_append]
  generalize createMeshHmac hmac (macToString sta ++ macToString ap ++
    Serializer.mainMessage header.chars nonce duration) hashKey NATURAL_LENGTH = value
  rw [mainMessage_eq header hnonce]
  simp [Serializer.createJsonEndPair, membersText, Member.chars, quotedItem]

/-- The fields of a serialized connection in front of the last one. -/
def connectionFields (now : Nat) (e : EncryptedConnectionLog) : List (Text × Text) :=
  (match e.timeTracker with
    | none => []
    | some t => [(jsonDuration, unsignedToString (t.remainingDuration now))]) ++
  [(jsonDesync, unsignedToString e.desync.toNat),
    (jsonOwnSessionKey, uint64ToString e.ownSessionKey),
    (jsonPeerSessionKey, uint64ToString e.peerSessionKey),
    (jsonPeerStaMac, macToString e.peerStaMac)]

theorem hexText_connectionFields (now : Nat) (e : EncryptedConnectionLog) :
    ∀ p ∈ connectionFields now e ++ [(jsonPeerApMac, macToString e.peerApMac)],
      IsName p.1 ∧ HexText p.2 := by
  have htail : ∀ p ∈ [(jsonDesync, unsignedToString e.desync.toNat),
      (jsonOwnSessionKey, uint64ToString e.ownSessionKey),
      (jsonPeerSessionKey, uint64ToString e.peerSessionKey),
      (jsonPeerStaMac, macToString e.peerStaMac), (jsonPeerApMac, macToString e.peerApMac)],
      IsName p.1 ∧ HexText p.2 := by
    intro p hp
    simp only [List.mem_cons, List.not_mem_nil, or_false] at hp
    rcases hp with rfl | rfl | rfl | rfl | rfl
    · exact ⟨(by decide : IsName jsonDesync), hexText_unsignedToString _⟩
    · exact ⟨(by decide : IsName jsonOwnSessionKey), hexText_uint64ToString _⟩
    · exact ⟨(by decide : IsName jsonPeerSessionKey), hexText_uint64ToString _⟩
    · exact ⟨(by decide : IsName jsonPeerStaMac), hexText_macToString _⟩
    · exact ⟨(by decide : IsName jsonPeerApMac), hexText_macToString _⟩
  intro p hp
  rw [connectionFields, List.append_assoc] at hp
  rcases List.mem_append.mp hp with hp | hp
  · cases ht : e.timeTracker with
    | none =>
      rw [ht] at hp
      cases hp
    | some t =>
      rw [ht] at hp
      obtain rfl := List.mem_singleton.mp hp
      exact ⟨(by decide : IsName jsonDuration), hexText_unsignedToString _⟩
  · exact htail p hp

theorem serialize_eq (now : Nat) (e : EncryptedConnectionLog) :
    e.serialize now = opening [] jsonConnectionState ++
      (membersText (objectMembers (connectionFields now e)
        (jsonPeerApMac, macToString e.peerApMac)) ++ [125]) := by
  have hinner := @encode_strings (connectionFields now e)
    (jsonPeerApMac, macToString e.peerApMac)
    fun p hp => (hexText_connectionFields now e p hp).2.charAt_ne
  have houter : e.serialize now = encode [(jsonConnectionState,
      encode (connectionFields now e ++ [(jsonPeerApMac, macToString e.peerApMac)]))] := by
    rw [EncryptedConnectionLog.serialize, Serializer.serializeEncryptedConnection,
      connectionFields]
    cases e.timeTracker with
    | none => rfl
    | some t => exact if_neg (unsignedToString_ne_nil _)
  rw [houter, hinner, encode_object]
  simp [opening]

/-! ## What the other node reads -/

theorem getMac_some {beside : UInt8 → UInt8} {json id : Text} {mac : Mac}
    (h : decode json id = some (macToString mac)) : getMac beside json id = some mac := by
  have hlength : ¬ (macToString mac).length ≠ 12 := not_not.mpr rfl
  simp only [getMac, h, if_neg hlength, stringToMac_macToString]

variable {password : Text}

theorem soundPairs_info (hnonce : Plain 34 nonce)
    (hpassword : Plain 34 password) (own peer : Nat) :
    SoundPairs (infoFields nonce password peer ++
      [(jsonPeerSessionKey, uint64ToString own)]) := by
  intro p hp
  simp only [infoFields, List.cons_append, List.nil_append, List.mem_cons, List.not_mem_nil,
    or_false] at hp
  rcases hp with rfl | rfl | rfl | rfl
  · exact ⟨(by decide : IsName jsonNonce), hnonce⟩
  · exact ⟨(by decide : IsName jsonPassword), hpassword⟩
  · exact ⟨(by decide : IsName jsonOwnSessionKey), (hexText_uint64ToString _).plain⟩
  · exact ⟨(by decide : IsName jsonPeerSessionKey), (hexText_uint64ToString _).plain⟩

/-- What is read of a message with the session keys: the nonce from the whole, the rest from
behind the header. -/
structure InfoRead (beside : UInt8 → UInt8) (message nonce password : Text)
    (ownSessionKey peerSessionKey : Nat) : Prop where
  nonce : getNonce message = some nonce
  password : getPassword (messageBody message) = some password
  ownSessionKey : getOwnSessionKey beside (messageBody message) = some ownSessionKey
  peerSessionKey : getPeerSessionKey beside (messageBody message) = some peerSessionKey

/-- **The message with the session keys** says to the peer which keys are its own. -/
theorem info_read (beside : UInt8 → UInt8) (header : InfoHeader)
    (hnonce : Plain 34 nonce) (hpassword : Plain 34 password) {own peer : Nat}
    (hown : own < 18446744073709551616) (hpeer : peer < 18446744073709551616) :
    InfoRead beside
      (Serializer.createEncryptedConnectionInfo header.chars nonce password own peer)
      nonce password peer own := by
  have hpairs := soundPairs_info hnonce hpassword own peer
  have hnodup : (jsonArguments :: (infoFields nonce password peer ++
      [(jsonPeerSessionKey, uint64ToString own)]).map Prod.fst).Nodup := by
    show [jsonArguments, jsonNonce, jsonPassword, jsonOwnSessionKey, jsonPeerSessionKey].Nodup
    decide
  have hread : ∀ front, Plain 34 front → ∀ {id value}, (id, value) ∈ _ → _ :=
    fun front hfront _ _ hmem =>
      decode_behind hfront (by decide : IsName jsonArguments) hpairs hnodup hmem [125]
  rw [createEncryptedConnectionInfo_eq]
  have hlt : header.chars.length < 4294967296 := by cases header <;> decide
  have hbody := messageBody_opening header.isHeader hlt jsonArguments (membersText
    (objectMembers (infoFields nonce password peer) (jsonPeerSessionKey, uint64ToString own)) ++
      [125])
  refine ⟨?_, ?_, ?_, ?_⟩
  · exact hread _ header.isHeader.plain (by simp [infoFields])
  · rw [hbody]
    exact hread [] (by decide) (by simp [infoFields])
  · have hkey := hread [] (by decide)
      (by simp [infoFields] : (jsonOwnSessionKey, uint64ToString peer) ∈ _)
    rw [hbody, getOwnSessionKey, hkey, Option.map_some, stringToUint64_uint64ToString _ hpeer]
  · have hkey := hread [] (by decide)
      (by simp [infoFields] : (jsonPeerSessionKey, uint64ToString own) ∈ _)
    rw [hbody, getPeerSessionKey, hkey, Option.map_some, stringToUint64_uint64ToString _ hown]

theorem soundPairs_request (header : RequestHeader) {value : Text}
    (hnonce : Plain 34 nonce) (hvalue : HexText value) (duration : Nat) :
    SoundPairs (requestFields header nonce duration ++ [(jsonHmac, value)]) := by
  intro p hp
  rw [requestFields, List.append_assoc] at hp
  rcases List.mem_append.mp hp with hp | hp
  · split at hp
    · obtain rfl := List.mem_singleton.mp hp
      exact ⟨(by decide : IsName jsonDuration), (hexText_unsignedToString _).plain⟩
    · cases hp
  · rcases List.mem_pair.mp hp with rfl | rfl
    · exact ⟨(by decide : IsName jsonNonce), hnonce⟩
    · exact ⟨(by decide : IsName jsonHmac), hvalue.plain⟩

theorem names_request (header : RequestHeader) (nonce value : Text) (duration : Nat) :
    (requestFields header nonce duration ++ [(jsonHmac, value)]).map Prod.fst =
      if header = .temporaryEncryptionRequest then [jsonDuration, jsonNonce, jsonHmac]
      else [jsonNonce, jsonHmac] := by
  rw [requestFields]
  split <;> rfl

/-- A duration is in a request for a temporary connection only. -/
def RequestHeader.duration (header : RequestHeader) (duration : Nat) : Option Nat :=
  if header = .temporaryEncryptionRequest then some duration else none

theorem getDuration_behind (header : RequestHeader) {front value : Text} {duration : Nat}
    (hfront : Plain 34 front) (hnonce : Plain 34 nonce) (hvalue : HexText value)
    (hduration : duration < 4294967296) :
    getDuration (opening front jsonArguments ++ (membersText (objectMembers
      (requestFields header nonce duration) (jsonHmac, value)) ++ [125])) =
      header.duration duration := by
  have hpairs := soundPairs_request header hnonce hvalue duration
  have hnames := names_request header nonce value duration
  rw [getDuration, RequestHeader.duration]
  by_cases htemp : header = .temporaryEncryptionRequest
  · rw [if_pos htemp] at hnames ⊢
    have hmem : (jsonDuration, unsignedToString duration) ∈
        requestFields header nonce duration ++ [(jsonHmac, value)] := by
      rw [requestFields, if_pos htemp]
      exact List.mem_cons_self
    rw [decode_behind hfront (by decide) hpairs (by rw [hnames]; decide) hmem, Option.map_some,
      strtoul_unsignedToString hduration]
  · rw [if_neg htemp] at hnames ⊢
    rw [decode_behind_absent hfront (by decide) hpairs (by decide : IsName jsonDuration)
      (by rw [hnames]; decide), Option.map_none]

/-- What is read of a message with an HMAC; it verifies against the addresses and the key that it
was made with, and against others only where their hash is the same. -/
structure RequestRead (hash : Hmac) (message nonce covered : Text) (duration : Option Nat)
    (staMac apMac : Mac) (hashKey : List UInt8) : Prop where
  nonce : getNonce message = some nonce
  wholeDuration : getDuration message = duration
  bodyDuration : getDuration (messageBody message) = duration
  verifiedDuration : getDuration (encryptedConnectionVerificationHeader ++ message) = duration
  hmac : getHmac message = some (createMeshHmac hash
    (macToString staMac ++ macToString apMac ++ covered) hashKey NATURAL_LENGTH)
  verifies : verifyEncryptionRequestHmac hash message staMac apMac hashKey = true
  verifies_iff : ∀ sta ap key, verifyEncryptionRequestHmac hash message sta ap key = true ↔
    createMeshHmac hash (macToString sta ++ macToString ap ++ covered) key NATURAL_LENGTH =
      createMeshHmac hash (macToString staMac ++ macToString apMac ++ covered) hashKey
        NATURAL_LENGTH

theorem length_uint8ArrayToHexString (bytes : List UInt8) :
    (uint8ArrayToHexString bytes).length = 2 * bytes.length := by
  induction bytes with
  | nil => rfl
  | cons b bytes ih =>
    rw [uint8ArrayToHexString, List.flatMap_cons, List.length_append, ← uint8ArrayToHexString, ih]
    simp only [List.length_cons, List.length_nil]
    omega

theorem createMeshHmac_length (hmac : Hmac) (message : Text) (hashKey : List UInt8) (n : Nat) :
    (createMeshHmac hmac message hashKey n).length = 2 * n := by
  rw [createMeshHmac, length_uint8ArrayToHexString, Vector.length_toList]

theorem hexText_createMeshHmac (hmac : Hmac) (message : Text) (hashKey : List UInt8) (n : Nat) :
    HexText (createMeshHmac hmac message hashKey n) :=
  hexText_uint8ArrayToHexString _

theorem verify_iff {hmac : Hmac} {covered value : Text} (hskip : Skips (key jsonHmac) covered)
    (hvalue : HexText value) (hlength : value.length = 2 * NATURAL_LENGTH) (sta ap : Mac)
    (hashKey : List UInt8) :
    verifyEncryptionRequestHmac hmac (covered ++ Serializer.createJsonEndPair jsonHmac value) sta
        ap hashKey = true ↔
      createMeshHmac hmac (macToString sta ++ macToString ap ++ covered) hashKey NATURAL_LENGTH =
        value := by
  have hid : IsName jsonHmac := by decide
  have htext : covered ++ Serializer.createJsonEndPair jsonHmac value =
      covered ++ (key jsonHmac ++ (quoted value ++ [125, 125])) := by
    simp [Serializer.createJsonEndPair, quoted, quotedKey]
  have hread : getHmac (covered ++ (key jsonHmac ++ (quoted value ++ [125, 125]))) = some value :=
    decode_string hid hskip hvalue.plain _
  have hstart := indexOfText_found hid hskip (quoted value ++ [125, 125])
  have hpos : ¬ ((covered.length : Int) < 0) := by omega
  have hfront : (covered ++ (key jsonHmac ++ (quoted value ++ [125, 125]))).substring 0
      covered.length = covered := by
    have hsub := substring_found [] covered (key jsonHmac ++ (quoted value ++ [125, 125]))
    simpa using hsub
  have hhalf : value.length / 2 = NATURAL_LENGTH := by omega
  rw [htext, verifyEncryptionRequestHmac, hread]
  simp only [quoted_colon, hstart, if_neg hpos, Int.toNat_natCast, hfront, hlength, decide_true,
    Bool.true_and]
  rw [verifyMeshHmac, hhalf]
  exact Text.equals_iff (.inr hvalue.plain.zero_notMem)

/-- **A message with an HMAC** is read back, and verifies. -/
theorem request_read (hmac : Hmac) (header : RequestHeader)
    (hnonce : Plain 34 nonce) (hobject : nonce.charAt 0 ≠ 123) {duration : Nat}
    (hduration : duration < 4294967296) (staMac apMac : Mac) (hashKey : List UInt8) :
    RequestRead hmac (Serializer.createEncryptionRequestHmacMessage hmac staMac apMac header.chars
      nonce hashKey duration) nonce (Serializer.mainMessage header.chars nonce duration)
      (header.duration duration) staMac apMac hashKey := by
  have hvalue := hexText_createMeshHmac hmac (macToString staMac ++ macToString apMac ++
    Serializer.mainMessage header.chars nonce duration) hashKey NATURAL_LENGTH
  have hlength := createMeshHmac_length hmac (macToString staMac ++ macToString apMac ++
    Serializer.mainMessage header.chars nonce duration) hashKey NATURAL_LENGTH
  have hmessage := createEncryptionRequestHmacMessage_eq hmac staMac apMac header hobject hashKey
    duration
  have hplain := header.isHeader.plain
  have hverify : ∀ sta ap key, verifyEncryptionRequestHmac hmac
      (Serializer.createEncryptionRequestHmacMessage hmac staMac apMac header.chars nonce hashKey
        duration) sta ap key = true ↔
      createMeshHmac hmac (macToString sta ++ macToString ap ++
          Serializer.mainMessage header.chars nonce duration) key NATURAL_LENGTH =
        createMeshHmac hmac (macToString staMac ++ macToString apMac ++
          Serializer.mainMessage header.chars nonce duration) hashKey NATURAL_LENGTH := by
    intro sta ap key
    refine verify_iff ?_ hvalue hlength sta ap key
    have hpairs := soundPairs_request header hnonce hvalue duration
    have hnames := names_request header nonce [] duration
    have hsound : SoundPairs (requestFields header nonce duration) :=
      fun p hp => hpairs p (List.mem_append_left _ hp)
    rw [mainMessage_eq header hobject]
    refine (skips_opening (by decide) hplain (by decide) (by decide)).append
      (skips_members hsound.commas (by decide) ?_)
    rw [requestFields]
    split
    · exact (by decide : jsonHmac ∉ [jsonDuration, jsonNonce])
    · exact (by decide : jsonHmac ∉ [jsonNonce])
  have hpairs := soundPairs_request header hnonce hvalue duration
  have hnames := names_request header nonce (createMeshHmac hmac (macToString staMac ++
    macToString apMac ++ Serializer.mainMessage header.chars nonce duration) hashKey
    NATURAL_LENGTH) duration
  have hnodup : (jsonArguments :: (requestFields header nonce duration ++ [(jsonHmac,
      createMeshHmac hmac (macToString staMac ++ macToString apMac ++
        Serializer.mainMessage header.chars nonce duration) hashKey NATURAL_LENGTH)]).map
      Prod.fst).Nodup := by
    rw [hnames]
    split <;> decide
  have hread : ∀ {id value}, (id, value) ∈ _ → _ :=
    fun hmem =>
      decode_behind hplain (by decide : IsName jsonArguments) hpairs hnodup hmem [125]
  refine ⟨?_, ?_, ?_, ?_, ?_, (hverify _ _ _).mpr rfl, hverify⟩
  · rw [hmessage]
    exact hread (by simp [requestFields])
  · rw [hmessage]
    exact getDuration_behind header hplain hnonce hvalue hduration
  · have hlt : header.chars.length < 4294967296 := by cases header <;> decide
    rw [hmessage, messageBody_opening header.isHeader hlt]
    exact getDuration_behind header (by decide) hnonce hvalue hduration
  · have hfront : Plain 34 (encryptedConnectionVerificationHeader ++ header.chars) := by
      cases header <;> decide
    have hread := getDuration_behind header hfront hnonce hvalue hduration
    rw [hmessage, ← hread]
    simp [opening]
  · rw [hmessage]
    exact hread (by simp)

/-! ## A connection that is written down -/

structure ConnectionRead (beside : UInt8 → UInt8) (now : Nat) (e : EncryptedConnectionLog)
    (json : Text) : Prop where
  state : getConnectionState json = some (encode (connectionFields now e ++
    [(jsonPeerApMac, macToString e.peerApMac)]))
  duration : getDuration json = e.timeTracker.map (·.remainingDuration now)
  desync : getDesync json = some e.desync
  ownSessionKey : getOwnSessionKey beside json = some e.ownSessionKey
  peerSessionKey : getPeerSessionKey beside json = some e.peerSessionKey
  peerStaMac : getPeerStaMac beside json = some e.peerStaMac
  peerApMac : getPeerApMac beside json = some e.peerApMac

theorem ExpiringTimeTracker.remainingDuration_lt (now : Nat) (t : ExpiringTimeTracker) :
    t.remainingDuration now < 4294967296 := by
  rw [ExpiringTimeTracker.remainingDuration]
  split
  · decide
  · exact Nat.mod_lt _ (by decide)

variable {e : EncryptedConnectionLog}

/-- **A serialized connection is read back.** -/
theorem connection_read (beside : UInt8 → UInt8) (now : Nat)
    (hown : e.ownSessionKey < 18446744073709551616)
    (hpeer : e.peerSessionKey < 18446744073709551616) :
    ConnectionRead beside now e (e.serialize now) := by
  have hpairs : SoundPairs (connectionFields now e ++
      [(jsonPeerApMac, macToString e.peerApMac)]) := fun p hp =>
    ⟨(hexText_connectionFields now e p hp).1, (hexText_connectionFields now e p hp).2.plain⟩
  have hnames : (connectionFields now e ++ [(jsonPeerApMac, macToString e.peerApMac)]).map
      Prod.fst = (if e.timeTracker.isSome then [jsonDuration] else []) ++ [jsonDesync,
        jsonOwnSessionKey, jsonPeerSessionKey, jsonPeerStaMac, jsonPeerApMac] := by
    rw [connectionFields]
    cases e.timeTracker <;> rfl
  have hnodup : (jsonConnectionState :: (connectionFields now e ++
      [(jsonPeerApMac, macToString e.peerApMac)]).map Prod.fst).Nodup := by
    rw [hnames]
    split <;> decide
  have hread : ∀ {id value}, (id, value) ∈ _ → _ := fun hmem =>
    decode_behind (by decide : Plain 34 []) (by decide : IsName jsonConnectionState) hpairs hnodup
      hmem [125]
  rw [serialize_eq]
  refine ⟨?_, ?_, ?_, ?_, ?_, ?_, ?_⟩
  · have hobject := @decode_object jsonConnectionState [123] _ _ (by decide)
      (Skips.of_notMem (by decide) (by decide)) hpairs [125]
    rw [encode_strings fun p hp => (hexText_connectionFields now e p hp).2.charAt_ne, ← hobject]
    simp [opening, getConnectionState]
  · cases ht : e.timeTracker with
    | none =>
      rw [ht] at hnames
      have habsent := decode_behind_absent (by decide : Plain 34 [])
        (by decide : IsName jsonConnectionState) hpairs (by decide : IsName jsonDuration)
        (by rw [hnames]; decide)
      rw [getDuration, habsent]
      rfl
    | some t =>
      have hduration := hread (by simp [connectionFields, ht] :
        (jsonDuration, unsignedToString (t.remainingDuration now)) ∈ _)
      rw [getDuration, hduration, Option.map_some,
        strtoul_unsignedToString (t.remainingDuration_lt now)]
      rfl
  · have hdesync := hread (by simp [connectionFields] :
      (jsonDesync, unsignedToString e.desync.toNat) ∈ _)
    rw [getDesync, hdesync, Option.map_some,
      strtoul_unsignedToString (by cases e.desync <;> decide)]
    cases e.desync <;> rfl
  · have hkey := hread (by simp [connectionFields] :
      (jsonOwnSessionKey, uint64ToString e.ownSessionKey) ∈ _)
    rw [getOwnSessionKey, hkey, Option.map_some, stringToUint64_uint64ToString _ hown]
  · have hkey := hread (by simp [connectionFields] :
      (jsonPeerSessionKey, uint64ToString e.peerSessionKey) ∈ _)
    rw [getPeerSessionKey, hkey, Option.map_some, stringToUint64_uint64ToString _ hpeer]
  · exact getMac_some (hread (by simp [connectionFields]))
  · exact getMac_some (hread (by simp))

/-! ## A connection that is restored -/

namespace ConnectionManager

variable {m : ConnectionManager}

variable {l : List EncryptedConnectionLog}

theorem modify_last (e : EncryptedConnectionLog)
    (f : EncryptedConnectionLog → EncryptedConnectionLog) :
    (l ++ [e]).modify l.length f = l ++ [f e] := by
  induction l with
  | nil => rfl
  | cons a l ih => rw [List.cons_append, List.length_cons, List.modify_succ_cons, ih]; rfl

theorem iterator_last
    (hnone : l.findIdx? (fun a => a.connectedTo e.peerStaMac) = none)
    (htable : m.encryptedConnections = l ++ [e]) :
    m.iterator e.peerStaMac = some l.length := by
  rw [iterator, htable, List.findIdx?_append, hnone]
  simp [EncryptedConnectionLog.connectedTo]

variable {sta : Mac}

theorem addEncryptedConnection_new (ap : Mac) (peerKey ownKey : Nat)
    (hashKey : List UInt8) (hnone : m.iterator sta = none)
    (hroom : m.encryptedConnections.length < maxEncryptedConnections) :
    ∃ m', m.addEncryptedConnection sta ap peerKey ownKey hashKey true =
        .ok (.CONNECTION_ESTABLISHED, m') ∧ m'.now = m.now ∧
      m'.encryptedConnections = m.encryptedConnections ++
        [⟨sta, ap, peerKey, ownKey, hashKey, none, false, false⟩] := by
  have hne : m.encryptedConnections.length ≠ maxEncryptedConnections := Nat.ne_of_lt hroom
  refine ⟨{ m with
    peers := m.peers ++ [sta]
    encryptedConnections := m.encryptedConnections ++
      [⟨sta, ap, peerKey, ownKey, hashKey, none, false, false⟩] }, ?_, rfl, rfl⟩
  rw [addEncryptedConnection, if_pos (Nat.le_of_lt hroom), hnone]
  simp only [if_neg hne, if_true]

@[simp] theorem updateSoonest_encryptedConnections (remainingDuration tick : Nat) :
    (m.updateSoonestExpiringConnectionTracker remainingDuration tick).encryptedConnections =
      m.encryptedConnections := by
  unfold updateSoonestExpiringConnectionTracker
  dsimp only
  split
  · rfl
  · split <;> rfl

theorem addTemporaryEncryptedConnection_new (ap : Mac) (peerKey ownKey : Nat)
    (hashKey : List UInt8) (duration tick : Nat) (hnone : m.iterator sta = none)
    (hroom : m.encryptedConnections.length < maxEncryptedConnections) :
    ∃ m', m.addTemporaryEncryptedConnection sta ap peerKey ownKey hashKey duration true tick =
        .ok (.CONNECTION_ESTABLISHED, m') ∧
      m'.encryptedConnections = m.encryptedConnections ++ [⟨sta, ap, peerKey, ownKey, hashKey,
        some (ExpiringTimeTracker.create duration m.now), false, false⟩] := by
  obtain ⟨added, hadd, hnow, htable⟩ :=
    addEncryptedConnection_new ap peerKey ownKey hashKey hnone hroom
  have hfound : added.iterator sta = some m.encryptedConnections.length :=
    iterator_last (by exact hnone) htable
  refine ⟨added.setRemainingDuration m.encryptedConnections.length duration tick, ?_, ?_⟩
  · rw [addTemporaryEncryptedConnection, if_pos (Nat.le_of_lt hroom), hnone]
    simp only [hadd, Bind.bind, Except.bind, if_true, hfound]
    rfl
  · rw [setRemainingDuration, updateSoonest_encryptedConnections, modify, htable, modify_last, hnow]
    rfl

theorem setDesync_last {m' : ConnectionManager} (desync : Bool)
    (hnone : l.findIdx? (fun a => a.connectedTo e.peerStaMac) = none)
    (htable : m'.encryptedConnections = l ++ [e]) :
    ∃ m'', setDesync e.peerStaMac desync (.CONNECTION_ESTABLISHED, m') =
        .ok (some .CONNECTION_ESTABLISHED, m'') ∧
      m''.encryptedConnections = l ++ [{ e with desync }] := by
  refine ⟨m'.modify l.length fun a => { a with desync }, ?_, ?_⟩
  · simp only [setDesync, if_true, iterator_last hnone htable]
  · rw [modify, htable, modify_last]

end ConnectionManager

theorem ExpiringTimeTracker.remainingDuration_created {duration : Nat} (now : Nat)
    (hduration : duration < 4294967296) :
    (ExpiringTimeTracker.create duration now).remainingDuration now = duration := by
  have helapsed : (ExpiringTimeTracker.create duration now).elapsedTime now = 0 :=
    ExpiringTimeTracker.elapsedTime_create
  rw [ExpiringTimeTracker.remainingDuration, ExpiringTimeTracker.expired, helapsed]
  have htimeout : (ExpiringTimeTracker.create duration now).timeout = duration := rfl
  rw [htimeout]
  by_cases hzero : duration = 0
  · simp [hzero]
  · have hnot : ¬ (0 ≥ duration) := by omega
    simp only [decide_eq_false hzero, decide_eq_false hnot, Bool.and_false, Bool.or_false,
      Bool.false_eq_true, if_false]
    omega

/-- What a connection shows of itself is what the original showed; its hash key is that of the
node, and it is not to be removed. -/
structure Restores (now : Nat) (original : EncryptedConnectionLog) (now' : Nat)
    (hashKey : List UInt8) (e : EncryptedConnectionLog) : Prop where
  peerStaMac : e.peerStaMac = original.peerStaMac
  peerApMac : e.peerApMac = original.peerApMac
  peerSessionKey : e.peerSessionKey = original.peerSessionKey
  ownSessionKey : e.ownSessionKey = original.ownSessionKey
  desync : e.desync = original.desync
  duration : e.timeTracker.map (·.remainingDuration now') =
    original.timeTracker.map (·.remainingDuration now)
  hashKey : e.hashKey = hashKey
  scheduledForRemoval : e.scheduledForRemoval = false

/-- **A connection is restored** behind those that are there. -/
theorem ConnectionManager.restored (beside : UInt8 → UInt8) {m : ConnectionManager} (now : Nat)
    (hashKey : List UInt8) (tick : Nat)
    (hown : e.ownSessionKey < 18446744073709551616)
    (hpeer : e.peerSessionKey < 18446744073709551616) (hnone : m.iterator e.peerStaMac = none)
    (hroom : m.encryptedConnections.length < maxEncryptedConnections) :
    ∃ m' r, m.addSerializedConnection beside (e.serialize now) false hashKey true tick =
        .ok (some .CONNECTION_ESTABLISHED, m') ∧
      m'.encryptedConnections = m.encryptedConnections ++ [r] ∧
      Restores now e m.now hashKey r := by
  have hread := connection_read beside now hown hpeer
  have hstate : readConnectionState beside (e.serialize now) =
      some ⟨e.desync, e.ownSessionKey, e.peerSessionKey, e.peerStaMac, e.peerApMac⟩ := by
    simp only [readConnectionState, hread.desync, hread.ownSessionKey, hread.peerSessionKey,
      hread.peerStaMac, hread.peerApMac]
    rfl
  rw [addSerializedConnection, hstate]
  simp only [hread.duration, Bool.false_eq_true, if_false]
  cases ht : e.timeTracker with
  | none =>
    obtain ⟨m₁, hadd, -, htable₁⟩ := addEncryptedConnection_new e.peerApMac e.peerSessionKey
      e.ownSessionKey hashKey hnone hroom
    obtain ⟨m', hset, htable⟩ := setDesync_last e.desync (by exact hnone) htable₁
    refine ⟨m', _, ?_, htable, ⟨rfl, rfl, rfl, rfl, rfl, by rw [ht]; rfl, rfl, rfl⟩⟩
    simp only [Option.map_none, hadd]
    exact hset
  | some t =>
    obtain ⟨m₁, hadd, htable₁⟩ := addTemporaryEncryptedConnection_new e.peerApMac
      e.peerSessionKey e.ownSessionKey hashKey (t.remainingDuration now) tick hnone hroom
    obtain ⟨m', hset, htable⟩ := setDesync_last e.desync (by exact hnone) htable₁
    refine ⟨m', _, ?_, htable, ⟨rfl, rfl, rfl, rfl, rfl, ?_, rfl, rfl⟩⟩
    · simp only [Option.map_some, hadd]
      exact hset
    · rw [ht]
      exact congrArg some (ExpiringTimeTracker.remainingDuration_created _
        (t.remainingDuration_lt now))

/-! ## The round trip -/

/-- **What two nodes write for each other when they pair is read back**: the message with the
session keys, every message with an HMAC, which also verifies, and a serialized connection, which
can be restored. -/
theorem pairing_reads_back (hmac : Hmac) (beside : UInt8 → UInt8) {nonce password : Text}
    {own peer duration : Nat} (staMac apMac : Mac) (hashKey : List UInt8)
    (hnonce : Plain 34 nonce) (hpassword : Plain 34 password)
    (hown : own < 18446744073709551616) (hpeer : peer < 18446744073709551616)
    (hduration : duration < 4294967296) :
    (∀ header : InfoHeader, InfoRead beside
      (Serializer.createEncryptedConnectionInfo header.chars nonce password own peer)
      nonce password peer own) ∧
    (nonce.charAt 0 ≠ 123 → ∀ header : RequestHeader, RequestRead hmac
      (Serializer.createEncryptionRequestHmacMessage hmac staMac apMac header.chars nonce hashKey
        duration) nonce (Serializer.mainMessage header.chars nonce duration)
      (header.duration duration) staMac apMac hashKey) ∧
    (∀ (now : Nat) (e : EncryptedConnectionLog), e.ownSessionKey < 18446744073709551616 →
      e.peerSessionKey < 18446744073709551616 →
      ConnectionRead beside now e (e.serialize now) ∧
      ∀ (m : ConnectionManager) (tick : Nat), m.iterator e.peerStaMac = none →
        m.encryptedConnections.length < maxEncryptedConnections →
        ∃ m' r, m.addSerializedConnection beside (e.serialize now) false hashKey true tick =
            .ok (some .CONNECTION_ESTABLISHED, m') ∧
          m'.encryptedConnections = m.encryptedConnections ++ [r] ∧
          Restores now e m.now hashKey r) := by
  refine ⟨?_, ?_, ?_⟩
  · intro header
    exact info_read beside header hnonce hpassword hown hpeer
  · intro hobject header
    exact request_read hmac header hnonce hobject hduration staMac apMac hashKey
  · intro now e hownKey hpeerKey
    refine ⟨connection_read beside now hownKey hpeerKey, ?_⟩
    intro m tick hnone hroom
    exact m.restored beside now hashKey tick hownKey hpeerKey hnone hroom

/-- A node on the table of which nothing stands takes a connection back. -/
theorem pairing_reads_back_sample :
    (let e : EncryptedConnectionLog := ⟨⟨1, 2, 3, 4, 5, 6⟩, ⟨7, 8, 9, 10, 11, 12⟩, 4660,
        18446744073709551615, [1], some ⟨0, 4294967295⟩, true, false⟩
      ∃ m' r, ConnectionManager.init.addSerializedConnection (fun _ => 0) (e.serialize 1000) false
          [1] true 0 = .ok (some .CONNECTION_ESTABLISHED, m') ∧
        m'.encryptedConnections = [r] ∧ Restores 1000 e 0 [1] r) ∧
    getPassword (messageBody (Serializer.createEncryptedConnectionInfo
      encryptedConnectionInfoHeader (text "0A0B0C0D0E0F1F2") (text "ownSK:\x7b\x7d") 0 7)) =
      some (text "ownSK:\x7b\x7d") := by
  have h := @pairing_reads_back (fun _ _ n => Vector.replicate n 0) (fun _ => 0)
    (text "0A0B0C0D0E0F1F2") (text "ownSK:\x7b\x7d") 0 7 5 ⟨1, 2, 3, 4, 5, 6⟩
    ⟨7, 8, 9, 10, 11, 12⟩ [1] (by decide) (by decide) (by decide) (by decide) (by decide)
  refine ⟨?_, (h.1 .encryptedConnectionInfo).password⟩
  exact (h.2.2 1000 _ (by decide) (by decide)).2 .init 0 rfl (by decide)

/-- **Not every value comes back**: not a password with a quotation mark or with a NUL, not a
nonce with a quotation mark, not one that starts with a brace, and not the hash key of a
connection. -/
theorem not_pairing_reads_back :
    getPassword (messageBody (Serializer.createEncryptedConnectionInfo
      encryptedConnectionInfoHeader (text "0A") (text "pass\"word") 0 7)) ≠
        some (text "pass\"word") ∧
    getPassword (messageBody (Serializer.createEncryptedConnectionInfo
      encryptedConnectionInfoHeader (text "0A") (text "pass\x00word") 0 7)) ≠
        some (text "pass\x00word") ∧
    getNonce (Serializer.createEncryptedConnectionInfo encryptedConnectionInfoHeader
      (text "0A\"") (text "password") 0 7) ≠ some (text "0A\"") ∧
    getNonce (Serializer.createEncryptionRequestHmacMessage (fun _ _ n => Vector.replicate n 0)
      ⟨1, 2, 3, 4, 5, 6⟩ ⟨7, 8, 9, 10, 11, 12⟩ encryptionRequestHeader (text "\x7b0A") [1] 0) ≠
        some (text "\x7b0A") ∧
    ¬ ∃ m', ConnectionManager.init.addSerializedConnection (fun _ => 0)
        (EncryptedConnectionLog.serialize 0 ⟨⟨1, 2, 3, 4, 5, 6⟩, ⟨7, 8, 9, 10, 11, 12⟩, 1, 2,
          [1], none, false, false⟩) false [2] true 0 = .ok (some .CONNECTION_ESTABLISHED, m') ∧
      m'.encryptedConnections = [⟨⟨1, 2, 3, 4, 5, 6⟩, ⟨7, 8, 9, 10, 11, 12⟩, 1, 2, [1], none,
        false, false⟩] := by
  refine ⟨by decide, by decide, by decide, by decide, ?_⟩
  rintro ⟨m', hadd, htable⟩
  obtain ⟨m'', r, hadd', htable', hrestores⟩ := ConnectionManager.init.restored (fun _ => 0) 0
    [2] 0 (by decide : 2 < 18446744073709551616) (by decide : 1 < 18446744073709551616)
    (e := ⟨⟨1, 2, 3, 4, 5, 6⟩, ⟨7, 8, 9, 10, 11, 12⟩, 1, 2, [1], none, false, false⟩)
    rfl (by decide)
  rw [hadd'] at hadd
  obtain ⟨-, rfl⟩ := Prod.mk.inj (Except.ok.inj hadd)
  rw [htable] at htable'
  have hkey := hrestores.hashKey
  rw [← (List.cons.inj htable').1] at hkey
  exact absurd hkey (by decide)

end Mesh
