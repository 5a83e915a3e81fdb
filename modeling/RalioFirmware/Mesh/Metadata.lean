import RalioFirmware.Mesh.FloodingMesh
import Mathlib.Data.List.Basic

/-!
# How the metadata of a broadcast is read

The reading looks for delimiters in the whole text, the content included.  It finds those of the
metadata all the same, because they come first: neither the mesh name nor the ID has one.
-/

namespace Mesh

open Http CString List

/-! ## Searching -/

theorem strchr_found {ch : UInt8} {front : List UInt8} (hch : ch ∉ front) (hzero : 0 ∉ front)
    (back : List UInt8) : strchr ch (front ++ ch :: back) = some front.length := by
  induction front with
  | nil => simp [strchr]
  | cons b front ih =>
    obtain ⟨hb, hch⟩ := not_or.mp (mem_cons.not.mp hch)
    obtain ⟨hb0, hzero⟩ := not_or.mp (mem_cons.not.mp hzero)
    rw [cons_append, strchr, if_neg (Ne.symm hb), if_neg (Ne.symm hb0), ih hch hzero]
    rfl

theorem indexOf_found {ch : UInt8} {front : Text} (hch : ch ∉ front) (hzero : 0 ∉ front)
    (start back : Text) :
    (start ++ (front ++ ch :: back)).indexOf ch start.length =
      ((start.length + front.length : Nat) : Int) := by
  have hlt : ¬ start.length ≥ (start ++ (front ++ ch :: back)).length := by grind
  rw [Text.indexOf, if_neg hlt, drop_left, strchr_found hch hzero]

theorem indexOf_nul {ch : UInt8} {front : Text} (hch : ch ∉ front) (hzero : 0 ∈ front)
    (start back : Text) : (start ++ (front ++ back)).indexOf ch start.length = -1 := by
  obtain ⟨s, t, rfl⟩ := append_of_mem hzero
  obtain ⟨hs, ht⟩ := not_or.mp (mem_append.not.mp hch)
  have hne : ch ≠ 0 := fun h => ht (h ▸ mem_cons_self)
  have hnone : strchr ch (s ++ 0 :: t ++ back) = none := by
    rw [append_assoc]
    exact strchr_nul hne hs _
  rw [Text.indexOf, drop_left, hnone]
  split <;> rfl

theorem substring_found (start front back : Text) :
    (start ++ (front ++ back)).substring start.length (start.length + front.length) = front := by
  have hle : ¬ start.length > start.length + front.length := by omega
  rw [Text.substring, if_neg hle]
  cases front with
  | nil => simp
  | cons b front => simp

@[simp] theorem removeText_front (front back : Text) :
    removeText (front ++ back) 0 front.length = back := by
  rw [removeText]
  split
  · rename_i h
    simp only [length_append, ge_iff_le, Nat.le_zero, Nat.add_eq_zero_iff,
      length_eq_zero_iff] at h
    rw [h.1, h.2]
    rfl
  · grind

/-! ## The ID of a message -/

theorem hexChar_cases (d : Nat) (h : d < 16) :
    (48 ≤ hexChar d ∧ hexChar d ≤ 57) ∨ (65 ≤ hexChar d ∧ hexChar d ≤ 70) := by
  revert h
  revert d
  decide

theorem charValue_hexChar (beside : UInt8 → UInt8) (d : Nat) (h : d < 16) :
    charValue beside (hexChar d) = d := by
  have hvalue : ∀ d < 16, (¬ (hexChar d < 48 ∨ 122 < hexChar d)) ∧
      charValue (fun _ => 0) (hexChar d) = d := by decide
  obtain ⟨hin, hd⟩ := hvalue d h
  rw [charValue, if_neg hin] at hd ⊢
  exact hd

def HexText (s : Text) : Prop := ∀ b ∈ s, ∃ d < 16, b = hexChar d

theorem HexText.append {s t : Text} (hs : HexText s) (ht : HexText t) : HexText (s ++ t) := by
  intro b hb
  rcases mem_append.mp hb with hb | hb
  · exact hs b hb
  · exact ht b hb

theorem HexText.notMem {s : Text} (hs : HexText s) {c : UInt8} (hc : AllowedDelimiter c) :
    c ∉ s ∧ 0 ∉ s := by
  constructor
  · intro hmem
    obtain ⟨d, hd, rfl⟩ := hs c hmem
    obtain ⟨h1, h2, -, -⟩ := hc
    rcases hexChar_cases d hd with ⟨hlo, hhi⟩ | ⟨hlo, hhi⟩
    · grind
    · grind
  · intro hmem
    obtain ⟨d, hd, hzero⟩ := hs 0 hmem
    have hne : ∀ d < 16, (0 : UInt8) ≠ hexChar d := by decide
    exact hne d hd hzero

theorem hexText_uint8ArrayToHexString (bytes : List UInt8) :
    HexText (uint8ArrayToHexString bytes) := by
  intro b hb
  obtain ⟨byte, -, hb⟩ := mem_flatMap.mp hb
  have hlt : byte.toNat < 256 := byte.toNat_lt
  rcases mem_pair.mp hb with rfl | rfl
  · exact ⟨_, by omega, rfl⟩
  · exact ⟨_, by omega, rfl⟩

theorem hexText_countToString (count : Nat) : HexText (countToString count) := by
  intro b hb
  simp only [countToString, mem_cons, not_mem_nil, or_false] at hb
  rcases hb with rfl | rfl | rfl | rfl
  all_goals exact ⟨_, Nat.mod_lt _ (by omega), rfl⟩

theorem stringToUint64_byte (beside : UInt8 → UInt8) {value : Nat} (b : UInt8)
    (hroom : value * 256 + b.toNat < 18446744073709551616) :
    ((value * 16 + charValue beside (hexChar (b.toNat / 16))) % 18446744073709551616 * 16 +
        charValue beside (hexChar (b.toNat % 16))) % 18446744073709551616 =
      value * 256 + b.toNat := by
  have hb : b.toNat < 256 := b.toNat_lt
  rw [charValue_hexChar beside (b.toNat / 16) (by omega),
    charValue_hexChar beside (b.toNat % 16) (by omega)]
  omega

def numbers : Nat → Nat
  | 0 => 1
  | k + 1 => 256 * numbers k

theorem numbers_pos (k : Nat) : 1 ≤ numbers k := by
  induction k with
  | zero => exact Nat.le_refl 1
  | succ k ih =>
    rw [numbers]
    omega

theorem stringToUint64_bytes (beside : UInt8 → UInt8) (bytes : List UInt8) {value : Nat}
    (hroom : (value + 1) * numbers bytes.length ≤ 18446744073709551616) :
    (uint8ArrayToHexString bytes).foldl
        (fun result c => (result * 16 + charValue beside c) % 18446744073709551616) value =
      bytes.foldl (fun result b => result * 256 + b.toNat) value := by
  induction bytes generalizing value with
  | nil => rfl
  | cons b bytes ih =>
    have hb : b.toNat < 256 := b.toNat_lt
    rw [length_cons, numbers, ← Nat.mul_assoc] at hroom
    have hnext : (value * 256 + b.toNat + 1) * numbers bytes.length ≤ 18446744073709551616 :=
      Nat.le_trans (Nat.mul_le_mul_right _ (by omega)) hroom
    have hlt : value * 256 + b.toNat < 18446744073709551616 := by
      have := Nat.mul_le_mul_left (value * 256 + b.toNat + 1) (numbers_pos bytes.length)
      omega
    simp only [uint8ArrayToHexString, flatMap_cons, cons_append, nil_append,
      foldl_cons]
    rw [stringToUint64_byte beside b hlt]
    exact ih hnext

theorem count_bytes {count : Nat} (hcount : count < 65536) :
    (UInt8.ofNat (count / 256)).toNat = count / 256 ∧
      (UInt8.ofNat (count % 256)).toNat = count % 256 := by
  rw [UInt8.toNat_ofNat', UInt8.toNat_ofNat']
  omega

theorem countToString_eq {count : Nat} (hcount : count < 65536) :
    countToString count =
      uint8ArrayToHexString [UInt8.ofNat (count / 256), UInt8.ofNat (count % 256)] := by
  obtain ⟨hhigh, hlow⟩ := count_bytes hcount
  have h1 : count / 4096 % 16 = count / 256 / 16 := by omega
  have h2 : count / 16 % 16 = count % 256 / 16 := by omega
  have h3 : count % 16 = count % 256 % 16 := by omega
  simp only [uint8ArrayToHexString, flatMap_cons, flatMap_nil, append_nil,
    cons_append, nil_append, hhigh, hlow, countToString, h1, h2, ← h3]

/-- **An ID is read back as the address and the counter it was made of.** -/
theorem stringToUint64_messageID (beside : UInt8 → UInt8) (mac : Mac) {count : Nat}
    (hcount : count < 65536) :
    stringToUint64 beside (macToString mac ++ countToString count) =
      macToUint64 mac * 65536 + count := by
  have hlength : (mac.bytes ++ [UInt8.ofNat (count / 256), UInt8.ofNat (count % 256)]).length = 8 :=
    rfl
  obtain ⟨hhigh, hlow⟩ := count_bytes hcount
  have hroom : (0 + 1) * numbers 8 ≤ 18446744073709551616 := by decide
  rw [← hlength] at hroom
  have hread := stringToUint64_bytes beside _ hroom
  rw [countToString_eq hcount, macToString, uint8ArrayToHexString, uint8ArrayToHexString,
    ← flatMap_append]
  refine hread.trans ?_
  simp only [Mac.bytes, cons_append, nil_append, foldl_cons, foldl_nil, hhigh,
    hlow, macToUint64]
  omega

/-! ## The texts of a broadcast -/

structure Original where
  meshName : Text
  mac : Mac
  count : Nat
  content : Text
deriving Inhabited

namespace Original

def idText (o : Original) : Text := macToString o.mac ++ countToString o.count

def messageID (o : Original) : Nat := macToUint64 o.mac * 65536 + o.count

/-- What is in the air after `broadcast`. -/
def text (delimiter : UInt8) (o : Original) : Text :=
  o.meshName ++ [delimiter] ++ o.idText ++ [delimiter] ++ o.content

/-- What is in the air after `encryptedBroadcast`. -/
def encryptedText (delimiter : UInt8) (o : Original) : Text :=
  o.idText ++ [delimiter] ++ o.content

theorem idText_length (o : Original) : o.idText.length = 16 := rfl

theorem hexText_idText (o : Original) : HexText o.idText :=
  (hexText_uint8ArrayToHexString _).append (hexText_countToString _)

variable {o : Original} {c : Config}

def parts (broadcastTarget : Text) (delimiter : UInt8) (o : Original) : Node.Parts :=
  ⟨broadcastTarget, o.encryptedText delimiter, 16, o.messageID⟩

theorem parts_message (broadcastTarget : Text) (delimiter : UInt8) (o : Original) :
    (o.parts broadcastTarget delimiter).message = o.content := by
  have hlength : 16 + 1 = (o.idText ++ [delimiter]).length := by
    rw [length_append, idText_length]
    rfl
  rw [Node.Parts.message, parts, encryptedText, hlength, removeText_front]

theorem parts_metadata (delimiter : UInt8) (o : Original) :
    (o.encryptedText delimiter).substring 0 (16 + 1) = o.idText ++ [delimiter] := by
  have h := substring_found [] (o.idText ++ [delimiter]) o.content
  rw [length_append, idText_length] at h
  simpa [encryptedText] using h

theorem indexOf_id (hallowed : AllowedDelimiter c.metadataDelimiter) (start : Text) :
    (start ++ o.encryptedText c.metadataDelimiter).indexOf c.metadataDelimiter start.length =
      ((start.length + 16 : Nat) : Int) := by
  obtain ⟨hd, hzero⟩ := o.hexText_idText.notMem hallowed
  have h := indexOf_found hd hzero start o.content
  rw [idText_length] at h
  simpa [encryptedText] using h

theorem readRequest_remaining (broadcastTarget : Text) (hcount : o.count < 65536) {request : Text}
    (hsplit : Node.splitTarget c request =
      some (broadcastTarget, o.encryptedText c.metadataDelimiter)) :
    Node.readRequest c request = some (o.parts broadcastTarget c.metadataDelimiter) := by
  have hindex := @indexOf_id o c c.allowed []
  have hid : (o.encryptedText c.metadataDelimiter).substring 0 16 = o.idText := by
    have h := substring_found [] o.idText ([c.metadataDelimiter] ++ o.content)
    rw [idText_length] at h
    simpa [encryptedText] using h
  simp only [nil_append, length_nil, Nat.zero_add] at hindex
  have hne : ¬ (((16 : Nat) : Int) = -1) := by decide
  unfold Node.readRequest
  rw [hsplit]
  dsimp only
  rw [hindex, if_neg hne, Int.toNat_natCast, hid, idText, stringToUint64_messageID _ _ hcount]
  rfl

/-- **A request that was sent encrypted is read as it was meant.** -/
theorem readRequest_encrypted (hcount : o.count < 65536) :
    Node.readRequest c (o.encryptedText c.metadataDelimiter) =
      some (o.parts [] c.metadataDelimiter) := by
  refine readRequest_remaining [] hcount ?_
  have hfirst : (o.encryptedText c.metadataDelimiter).charAt 0 ∈ o.idText := by
    simp [encryptedText, idText, macToString, uint8ArrayToHexString, Mac.bytes, Text.charAt]
  have hne : (o.encryptedText c.metadataDelimiter).charAt 0 ≠ c.metadataDelimiter :=
    fun h => (o.hexText_idText.notMem c.allowed).1 (h ▸ hfirst)
  rw [Node.splitTarget, if_neg hne]

theorem text_eq (delimiter : UInt8) (o : Original) :
    o.text delimiter = o.meshName ++ delimiter :: o.encryptedText delimiter := by
  simp [text, encryptedText]

theorem charAt_mark (c : Config) (text : Text) :
    Text.charAt (c.metadataDelimiter :: text) 0 = c.metadataDelimiter := rfl

/-- **So is a broadcast that a filter has marked.** -/
theorem readRequest_marked (hname : c.metadataDelimiter ∉ o.meshName) (hzero : 0 ∉ o.meshName)
    (hcount : o.count < 65536) :
    Node.readRequest c (c.metadataDelimiter :: o.text c.metadataDelimiter) =
      some (o.parts (o.meshName ++ [c.metadataDelimiter]) c.metadataDelimiter) := by
  refine readRequest_remaining _ hcount ?_
  have hindex := indexOf_found hname hzero [c.metadataDelimiter]
    (o.encryptedText c.metadataDelimiter)
  have hsub := substring_found [c.metadataDelimiter] (o.meshName ++ [c.metadataDelimiter])
    (o.encryptedText c.metadataDelimiter)
  have hremove := removeText_front ([c.metadataDelimiter] ++ o.meshName ++ [c.metadataDelimiter])
    (o.encryptedText c.metadataDelimiter)
  have hne : ¬ (((1 + o.meshName.length : Nat) : Int) = -1) := by omega
  simp only [length_append, length_cons, length_nil, Nat.zero_add,
    append_assoc, cons_append, nil_append] at hindex hsub hremove
  rw [text_eq, Node.splitTarget, if_pos (charAt_mark c _)]
  dsimp only
  rw [hindex, if_neg hne, Int.toNat_natCast, Nat.add_assoc, hsub, Nat.add_comm 1, hremove]

theorem readRequest_nul (hname : c.metadataDelimiter ∉ o.meshName) (hzero : 0 ∈ o.meshName) :
    Node.readRequest c (c.metadataDelimiter :: o.text c.metadataDelimiter) = none := by
  have hindex := indexOf_nul hname hzero [c.metadataDelimiter]
    (c.metadataDelimiter :: o.encryptedText c.metadataDelimiter)
  simp only [length_cons, length_nil, Nat.zero_add, cons_append,
    nil_append] at hindex
  have hsplit : Node.splitTarget c (c.metadataDelimiter :: o.text c.metadataDelimiter) = none := by
    rw [text_eq, Node.splitTarget, if_pos (charAt_mark c _)]
    dsimp only
    rw [hindex, if_pos rfl]
  unfold Node.readRequest
  rw [hsplit]

theorem isOwn {meshName content : Text} {count : Nat} (hcount : count < 65536) :
    Node.isOwn c (Original.mk meshName c.softAPmac count content).messageID = true := by
  refine decide_eq_true ?_
  rw [messageID]
  dsimp only
  omega

end Original

end Mesh
