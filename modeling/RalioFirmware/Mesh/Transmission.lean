import RalioFirmware.Mesh.Connections

/-!
# The bytes of an ESP-NOW transmission

A message is cut into transmissions of at most 250 bytes.  Each starts with the protocol bytes: the
type of the message, a byte with the number of transmissions that remain and the flag of the first
one, the address of the sender's access point, and the message ID.  With AEAD, a nonce and a tag
follow, and the protocol bytes salt the key.
-/

namespace Mesh

open Http List

/-! ## Message types -/

/-- Question, answer, broadcast, synchronization request, peer request, peer request
confirmation. -/
inductive MessageType where
  | Q
  | A
  | B
  | S
  | P
  | C
deriving DecidableEq, Repr

def MessageType.char : MessageType → UInt8
  | .Q => 81
  | .A => 65
  | .B => 66
  | .S => 83
  | .P => 80
  | .C => 67

def MessageType.ofChar (c : UInt8) : Option MessageType :=
  [MessageType.Q, .A, .B, .S, .P, .C].find? fun t => t.char = c

@[simp] theorem MessageType.ofChar_char (t : MessageType) : ofChar t.char = some t := by
  cases t <;> rfl

theorem MessageType.char_inj {t t' : MessageType} (h : t.char = t'.char) : t = t' := by
  have hsome : some t = some t' := by rw [← ofChar_char t, h, ofChar_char]
  exact Option.some.inj hsome

def usesConstantSessionKey (messageType : UInt8) : Bool :=
  messageType = MessageType.A.char || messageType = MessageType.C.char

/-! ## Numbers -/

/-- `uint64ToUint8ArrayBE`. -/
def uint64ToUint8Array (value : Nat) : List UInt8 :=
  [UInt8.ofNat (value / 72057594037927936), UInt8.ofNat (value / 281474976710656),
    UInt8.ofNat (value / 1099511627776), UInt8.ofNat (value / 4294967296),
    UInt8.ofNat (value / 16777216), UInt8.ofNat (value / 65536), UInt8.ofNat (value / 256),
    UInt8.ofNat value]

/-- `uint8ArrayToUint64BE`. -/
def uint8ArrayToUint64 (bytes : List UInt8) : Nat :=
  (bytes.take 8).foldl (fun value b => value * 256 + b.toNat) 0

theorem uint8ArrayToUint64_append {value : Nat} (h : value < 18446744073709551616)
    (rest : List UInt8) : uint8ArrayToUint64 (uint64ToUint8Array value ++ rest) = value := by
  simp only [uint8ArrayToUint64, uint64ToUint8Array, cons_append, nil_append,
    take_succ_cons, take_zero, foldl_cons, foldl_nil, UInt8.toNat_ofNat']
  omega

def Mac.ofBytes (bytes : List UInt8) : Mac :=
  ⟨bytes.getD 0 0, bytes.getD 1 0, bytes.getD 2 0, bytes.getD 3 0, bytes.getD 4 0,
    bytes.getD 5 0⟩

def createMacAndTypeValue (uint64Mac : Nat) (messageType : UInt8) : Nat :=
  uint64Mac * 256 + messageType.toNat

/-! ## Settings -/

/-- `experimental::crypto::ChaCha20Poly1305` with a key: it works in place, and what was encrypted
can be read again. -/
structure ChaCha20Poly1305 where
  /-- The text and the tag of a message, for a key salt and a nonce. -/
  encrypt : Text → List UInt8 → List UInt8 → Text × List UInt8
  /-- The message of a text, for a key salt, a nonce and a tag. -/
  decrypt : Text → List UInt8 → List UInt8 → List UInt8 → Option Text
  length_encrypt : ∀ message salt nonce, (encrypt message salt nonce).1.length = message.length
  length_tag : ∀ message salt nonce, (encrypt message salt nonce).2.length = 16
  decrypt_encrypt : ∀ message salt nonce,
    decrypt (encrypt message salt nonce).1 salt nonce (encrypt message salt nonce).2 = some message

structure Settings where
  maxTransmissionsPerMessage : Nat
  /-- `setMaxTransmissionsPerMessage` sees to it. -/
  maxTransmissions_le : maxTransmissionsPerMessage ≤ 128
  useEncryptedMessages : Bool
  cipher : ChaCha20Poly1305
  /-- `experimental::crypto::SHA256::hmac` of data with a key. -/
  hmac : List UInt8 → List UInt8 → List UInt8

namespace Settings

variable (s : Settings)

def metadataSize : Nat := 16 + if s.useEncryptedMessages then 28 else 0

def getMaxMessageBytesPerTransmission : Nat := 250 - s.metadataSize

theorem metadataSize_cases :
    s.metadataSize = 16 ∧ s.useEncryptedMessages = false ∨
      s.metadataSize = 44 ∧ s.useEncryptedMessages = true := by
  unfold metadataSize
  cases s.useEncryptedMessages with
  | false => exact .inl ⟨rfl, rfl⟩
  | true => exact .inr ⟨rfl, rfl⟩

theorem max_pos : 0 < s.getMaxMessageBytesPerTransmission := by
  unfold getMaxMessageBytesPerTransmission
  rcases s.metadataSize_cases with ⟨h, -⟩ | ⟨h, -⟩ <;> omega

end Settings

/-! ## Transmissions -/

structure Frame where
  messageType : UInt8
  transmissionsRemaining : Nat
  messageStart : Bool
  transmissionMac : Mac
  messageID : Nat
  part : Text
deriving DecidableEq, Repr

namespace Frame

variable {s : Settings}

def protocolBytes (f : Frame) : List UInt8 :=
  [f.messageType, if f.messageStart then UInt8.ofNat f.transmissionsRemaining ||| 0x80
    else UInt8.ofNat f.transmissionsRemaining] ++
    f.transmissionMac.bytes ++ uint64ToUint8Array f.messageID

/-- The array that `espnowSendToNodeUnsynchronized` gives to the SDK. -/
def transmission (s : Settings) (nonce : List UInt8) (f : Frame) : List UInt8 :=
  if s.useEncryptedMessages then
    f.protocolBytes ++ nonce ++ (s.cipher.encrypt f.part f.protocolBytes nonce).2 ++
      (s.cipher.encrypt f.part f.protocolBytes nonce).1
  else f.protocolBytes ++ f.part

/-- The accessors of `EspnowProtocolInterpreter`.  The content is what `uint8ArrayToMultiString`
puts together around the null characters in it. -/
def read (s : Settings) (dataArray : List UInt8) : Frame where
  messageType := dataArray.getD 0 0
  transmissionsRemaining := (dataArray.getD 1 0 &&& 0x7F).toNat
  messageStart := dataArray.getD 1 0 &&& 0x80 ≠ 0
  transmissionMac := Mac.ofBytes (dataArray.drop 2)
  messageID := uint8ArrayToUint64 (dataArray.drop 8)
  part := dataArray.drop s.metadataSize

def decrypted (s : Settings) (dataArray : List UInt8) : Option (List UInt8) :=
  if s.useEncryptedMessages then
    (s.cipher.decrypt (dataArray.drop 44) (dataArray.take 16) ((dataArray.drop 16).take 12)
      ((dataArray.drop 28).take 16)).map fun text => dataArray.take 44 ++ text
  else some dataArray

structure Valid (s : Settings) (f : Frame) : Prop where
  remaining_lt : f.transmissionsRemaining < 128
  messageID_lt : f.messageID < 18446744073709551616
  part_le : f.part.length ≤ s.getMaxMessageBytesPerTransmission

theorem length_protocolBytes (f : Frame) : f.protocolBytes.length = 16 := rfl

theorem remaining_start {n : Nat} (h : n < 128) :
    ((UInt8.ofNat n ||| 0x80) &&& 0x7F).toNat = n ∧ (UInt8.ofNat n ||| 0x80) &&& 0x80 ≠ 0 := by
  revert n
  decide

theorem remaining_later {n : Nat} (h : n < 128) :
    (UInt8.ofNat n &&& 0x7F).toNat = n ∧ UInt8.ofNat n &&& 0x80 = 0 := by
  revert n
  decide

theorem read_protocolBytes {f : Frame} (h : f.Valid s) (rest : List UInt8) :
    read s (f.protocolBytes ++ rest) =
      { f with part := (f.protocolBytes ++ rest).drop s.metadataSize } := by
  have hID : uint8ArrayToUint64 ((f.protocolBytes ++ rest).drop 8) = f.messageID :=
    uint8ArrayToUint64_append h.messageID_lt rest
  have hbyte : (f.protocolBytes ++ rest).getD 1 0 =
      if f.messageStart then UInt8.ofNat f.transmissionsRemaining ||| 0x80
      else UInt8.ofNat f.transmissionsRemaining := rfl
  unfold read
  rw [hID, hbyte]
  cases hstart : f.messageStart with
  | true =>
    obtain ⟨hremaining, hflag⟩ := remaining_start h.remaining_lt
    rw [if_pos rfl, hremaining, decide_eq_true hflag, ← hstart]
    rfl
  | false =>
    obtain ⟨hremaining, hflag⟩ := remaining_later h.remaining_lt
    rw [if_neg Bool.false_ne_true, hremaining, hflag, ← hstart]
    rw [decide_eq_false (not_not_intro rfl)]
    rw [← hstart]
    rfl

theorem drop_protocolBytes (f : Frame) {rest : List UInt8} (n : Nat) :
    (f.protocolBytes ++ rest).drop (16 + n) = rest.drop n := by
  rw [← f.length_protocolBytes]
  exact drop_length_add_append n

/-- **A transmission is read as it was made.** -/
theorem read_transmission {f : Frame} (h : f.Valid s) {nonce : List UInt8}
    (hnonce : nonce.length = 12) :
    ∃ dataArray, decrypted s (f.transmission s nonce) = some dataArray ∧ read s dataArray = f := by
  rcases s.metadataSize_cases with ⟨hsize, huse⟩ | ⟨hsize, huse⟩
  · refine ⟨f.protocolBytes ++ f.part, ?_, ?_⟩
    · rw [decrypted, transmission, huse, if_neg Bool.false_ne_true, if_neg Bool.false_ne_true]
    · rw [read_protocolBytes h, hsize, f.drop_protocolBytes 0, drop_zero]
  · -- The protocol bytes, the nonce and the tag are where `decrypt` looks for them.
    have htag := s.cipher.length_tag f.part f.protocolBytes nonce
    have hopen := s.cipher.decrypt_encrypt f.part f.protocolBytes nonce
    generalize hsealed : s.cipher.encrypt f.part f.protocolBytes nonce = sealed at htag hopen
    obtain ⟨text, tag⟩ := sealed
    dsimp only at htag hopen
    have hbytes : f.transmission s nonce = f.protocolBytes ++ (nonce ++ (tag ++ text)) := by
      rw [transmission, huse, if_pos rfl, hsealed, append_assoc, append_assoc]
    have hnonceTag : (nonce ++ tag).length = 28 := by rw [length_append, hnonce, htag]
    refine ⟨f.protocolBytes ++ (nonce ++ tag ++ f.part), ?_, ?_⟩
    · have hheader : (f.transmission s nonce).take 16 = f.protocolBytes := by
        rw [hbytes, ← f.length_protocolBytes, take_left]
      have hfront : (f.transmission s nonce).take 44 = f.protocolBytes ++ (nonce ++ tag) := by
        have hlength : (f.protocolBytes ++ (nonce ++ tag)).length = 44 := by
          rw [length_append, hnonceTag, f.length_protocolBytes]
        rw [hbytes, ← append_assoc nonce, ← append_assoc, ← hlength, take_left]
      have hnonceAt : ((f.transmission s nonce).drop 16).take 12 = nonce := by
        rw [hbytes, f.drop_protocolBytes 0, drop_zero, ← hnonce, take_left]
      have htagAt : ((f.transmission s nonce).drop 28).take 16 = tag := by
        rw [hbytes, f.drop_protocolBytes 12, ← hnonce, drop_left, ← htag, take_left]
      have htextAt : (f.transmission s nonce).drop 44 = text := by
        rw [hbytes, f.drop_protocolBytes 28, ← append_assoc, ← hnonceTag, drop_left]
      rw [decrypted, huse, if_pos rfl, hheader, hfront, hnonceAt, htagAt, htextAt, hopen,
        Option.map_some, append_assoc]
    · rw [read_protocolBytes h, hsize, f.drop_protocolBytes 28, ← hnonceTag, drop_left]

end Frame

/-! ## The parts of a message -/

namespace Settings

variable (s : Settings) {message : Text} {remaining : Nat}

/-- `ceil` of the quotient. -/
def transmissionsRequired (message : Text) : Nat :=
  (message.length + s.getMaxMessageBytesPerTransmission - 1) / s.getMaxMessageBytesPerTransmission

/-- What the transmission carries after which so many remain. -/
def part (message : Text) (transmissionsRemaining : Nat) : Text :=
  let remainingLength := message.length % s.getMaxMessageBytesPerTransmission
  let transmissionSize :=
    if transmissionsRemaining > 0 then s.getMaxMessageBytesPerTransmission
    else if message.length > 0 then
      if remainingLength = 0 then s.getMaxMessageBytesPerTransmission else remainingLength
    else 0
  (message.drop ((s.transmissionsRequired message - transmissionsRemaining - 1) *
    s.getMaxMessageBytesPerTransmission)).take transmissionSize

def arrived (message : Text) (transmissionsRemaining : Nat) : Text :=
  message.take ((s.transmissionsRequired message - transmissionsRemaining) *
    s.getMaxMessageBytesPerTransmission)

theorem length_part_le : (s.part message remaining).length ≤
    s.getMaxMessageBytesPerTransmission := by
  have hmod := Nat.mod_lt message.length s.max_pos
  unfold part
  dsimp only
  rw [length_take]
  refine (Nat.min_le_left _ _).trans ?_
  split
  · exact Nat.le_refl _
  · grind

theorem transmissionsRequired_pos (h : message ≠ []) : 0 < s.transmissionsRequired message := by
  have hlength := length_pos_iff.mpr h
  exact Nat.div_pos (by omega) s.max_pos

theorem length_last (h : message ≠ []) :
    (s.transmissionsRequired message - 1) * s.getMaxMessageBytesPerTransmission +
      (if message.length % s.getMaxMessageBytesPerTransmission = 0 then
        s.getMaxMessageBytesPerTransmission
      else message.length % s.getMaxMessageBytesPerTransmission) = message.length := by
  have hlength := length_pos_iff.mpr h
  have hmax := s.max_pos
  have hmod := Nat.mod_lt message.length hmax
  unfold transmissionsRequired
  generalize s.getMaxMessageBytesPerTransmission = size at hmax hmod ⊢
  have hdiv := Nat.div_add_mod message.length size
  split
  · rename_i hzero
    have hrequired : (message.length + size - 1) / size = message.length / size := by
      have hsplit : message.length + size - 1 = size * (message.length / size) + (size - 1) := by
        omega
      rw [hsplit, Nat.mul_add_div hmax, Nat.div_eq_of_lt (Nat.sub_lt hmax Nat.one_pos),
        Nat.add_zero]
    obtain ⟨q, hq⟩ : ∃ q, message.length / size = q + 1 := by
      refine Nat.exists_eq_succ_of_ne_zero fun hnone => ?_
      rw [hnone, hzero] at hdiv
      omega
    rw [hrequired, hq, Nat.add_sub_cancel]
    rw [hq, Nat.mul_add, Nat.mul_comm size q] at hdiv
    omega
  · rename_i hpart
    have hrequired : (message.length + size - 1) / size = message.length / size + 1 := by
      have hsplit : message.length + size - 1 =
          size * (message.length / size + 1) + (message.length % size - 1) := by grind
      have hrest : (message.length % size - 1) / size = 0 := Nat.div_eq_of_lt (by omega)
      rw [hsplit, Nat.mul_add_div hmax, hrest, Nat.add_zero]
    rw [hrequired, Nat.add_sub_cancel, Nat.mul_comm]
    exact hdiv

theorem arrived_zero (h : message ≠ []) : s.arrived message 0 = message := by
  have hlast := s.length_last h
  have hrequired := s.transmissionsRequired_pos h
  have hmod := Nat.mod_lt message.length s.max_pos
  have hle : message.length ≤
      s.transmissionsRequired message * s.getMaxMessageBytesPerTransmission := by
    obtain ⟨k, hk⟩ : ∃ k, s.transmissionsRequired message = k + 1 :=
      ⟨s.transmissionsRequired message - 1, by omega⟩
    rw [hk, Nat.add_sub_cancel] at hlast
    rw [hk, Nat.add_mul, Nat.one_mul]
    split at hlast
    · omega
    · omega
  rw [arrived, Nat.sub_zero, take_of_length_le hle]

/-- **The parts make up the message**: the next one goes on where the others end. -/
theorem arrived_append_part (h : message ≠ [])
    (hremaining : remaining < s.transmissionsRequired message) :
    s.arrived message (remaining + 1) ++ s.part message remaining =
      s.arrived message remaining := by
  unfold arrived part
  dsimp only
  rw [Nat.sub_sub, ← take_add]
  cases remaining with
  | zero =>
    have hlast := s.length_last h
    rw [if_neg (Nat.lt_irrefl 0), if_pos (length_pos_iff.mpr h), Nat.zero_add, hlast,
      take_length]
    exact (s.arrived_zero h).symm
  | succ r =>
    have hnext : s.transmissionsRequired message - (r + 1) =
        s.transmissionsRequired message - (r + 1 + 1) + 1 := by omega
    rw [if_pos (Nat.succ_pos r), hnext, Nat.add_mul, Nat.one_mul]

theorem arrived_required : s.arrived message (s.transmissionsRequired message) = [] := by
  rw [arrived, Nat.sub_self, Nat.zero_mul, take_zero]

end Settings

end Mesh
