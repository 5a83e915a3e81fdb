import RalioFirmware.Basis.CString
import RalioFirmware.Basis.Word
import RalioFirmware.Basis.Blocks

/-!
# The certificate store

`initCertStore` goes through an archive of certificates, counts the offset along
with what it reads, and writes an entry of 40 bytes for each certificate to an
index; `findHashedTA` looks for a hash in the index and loads the bytes that its
entry gives.  The names of the two files are copied to the heap at each call.

* `indexLoop_members`: the index of an archive;
* `run_isSome_iff`: the calls that free no name twice;
* `kept_store_iff`: exactly when a sequence of calls does what the store is for.
-/

namespace CertStore

open CString Word Blocks List
open Option (bind_eq_some_iff bind_none bind_some isSome_iff_exists map_some)

/-! ## The index -/

structure CertInfo where
  sha256 : List UInt8
  offset : Nat
  length : Nat

def CertInfo.bytes (ci : CertInfo) : List UInt8 := ci.sha256 ++ le32 ci.offset ++ le32 ci.length

def CertInfo.ofBytes (bytes : List UInt8) : CertInfo :=
  ⟨bytes.take 32, ofLe ((bytes.drop 32).take 4), ofLe ((bytes.drop 36).take 4)⟩

/-- The decoder of BearSSL: the SHA-256 of the subject of a certificate. -/
structure Decoder where
  subject : List UInt8 → List UInt8
  subject_length : ∀ raw, (subject raw).length = 32

/-- `_preprocessCert`; `granted` says whether there is memory for its contexts. -/
def preprocessCert (d : Decoder) (granted : Bool) (length offset : Nat) (raw : List UInt8) :
    CertInfo :=
  if granted then ⟨d.subject raw, offset, length⟩ else ⟨List.replicate 32 0, 0, 0⟩

/-- `sscanf` for one `%d`. -/
def scanInt (mem : List UInt8) : Option Int :=
  let text := (cstr mem).dropWhile isspace
  let digits := if text.headD 0 = 45 ∨ text.headD 0 = 43 then text.tail else text
  if isdigit (digits.headD 0) then some (atol text) else none

/-- A call of `initCertStore`: what stands in the data file, and the answers of
the heap and the file system, by the number of the member where it is one of
the archive's. -/
structure Call where
  archive : List UInt8
  indexName : Bool
  dataName : Bool
  openIndex : Bool
  openData : Bool
  raw : Nat → Bool
  hash : Nat → Bool
  written : Nat → Bool

/-- Whether `malloc` grants the memory of a member; the heap has fewer than 32767
blocks of 8 bytes. -/
def Call.grants (c : Call) (i : Nat) (length : Int) : Bool :=
  0 ≤ length && length < 262144 && c.raw i

def magic : List UInt8 := [33, 60, 97, 114, 99, 104, 62, 10]

/-- The loop over the members: what is written to the index, and the count. -/
def indexLoop (d : Decoder) (c : Call) :
    Nat → Nat → List UInt8 → Nat → List UInt8 × Nat
  | 0, _, _, _ => ([], 0)
  | fuel + 1, i, data, offset =>
    let fileHeader := data.take 60
    if fileHeader.length ≠ 60 then ([], 0)
    else
      let data := data.drop 60
      let offset := u32 (offset + 60)
      let fileHeader := fileHeader.set 58 0
      match scanInt (fileHeader.drop 48) with
      | none => ([], 0)
      | some length =>
        if length = 0 ∨ c.grants i length = false then ([], 0)
        else
          let length := length.toNat
          let raw := data.take length
          if raw.length ≠ length then ([], 0)
          else
            let data := data.drop length
            let next := u32 (offset + length)
            let later :=
              if next % 2 = 1 then indexLoop d c fuel (i + 1) (data.drop 1) (u32 (next + 1))
              else indexLoop d c fuel (i + 1) data next
            if fileHeader.getD 0 0 ≠ 47 ∨ fileHeader.getD 1 0 ≠ 47 then
              if c.written i = false then ([], 0)
              else
                let ci := preprocessCert d (c.hash i) length offset raw
                (ci.bytes ++ later.1, later.2 + 1)
            else later

/-! ## The store -/

/-- `CertStore`, with the heap and the two files. -/
structure Store where
  heap : Heap
  indexName : Option Nat
  dataName : Option Nat
  index : List UInt8
  data : List UInt8

def Store.start : Store := ⟨.empty, none, none, [], []⟩

def Store.uses (p : Option Nat) (s : Store) : Bool :=
  match p with
  | none => false
  | some a => s.heap.live.contains a

/-- `initCertStore`; nothing comes of a call that frees or uses a name that has
been freed. -/
def initCertStore (d : Decoder) (c : Call) (s : Store) :
    Option (Nat × Store) :=
  (s.heap.free s.indexName).bind fun heap => (heap.free s.dataName).bind fun heap =>
    let (indexName, heap) := heap.malloc c.indexName
    let (dataName, heap) := heap.malloc c.dataName
    let s : Store := ⟨heap, indexName, dataName, s.index, c.archive⟩
    if indexName = none ∨ dataName = none then
      (heap.free indexName).bind fun heap => (heap.free dataName).map fun heap =>
        (0, { s with heap := heap })
    else if s.uses indexName = false ∨ s.uses dataName = false then none
    else if c.openIndex = false then some (0, s)
    else if c.openData = false ∨ c.archive.take 8 ≠ magic then some (0, { s with index := [] })
    else
      let (index, count) :=
        indexLoop d c (c.archive.length + 1) 0 (c.archive.drop 8) 8
      some (count, { s with index := index })

def findEntry (hashed_dn : List UInt8) : Nat → List UInt8 → Option CertInfo
  | 0, _ => none
  | fuel + 1, index =>
    if (index.take 40).length ≠ 40 then none
    else
      let ci := CertInfo.ofBytes (index.take 40)
      if ci.sha256 = hashed_dn then some ci else findEntry hashed_dn fuel (index.drop 40)

/-- The answers that `findHashedTA` is given: the files open, the seek and the
memory. -/
structure Answers where
  openIndex : Bool
  der : Bool
  openData : Bool
  seek : Bool
  x509 : Bool

/-- `findHashedTA`: the bytes that are loaded for the trust anchor, and the hash
that it is given. -/
def findHashedTA (a : Answers) (hashed_dn : List UInt8) (s : Store) :
    Option (Option (List UInt8 × List UInt8)) :=
  if hashed_dn.length ≠ 32 ∨ s.indexName = none ∨ s.dataName = none then some none
  else if s.uses s.indexName = false then none
  else if a.openIndex = false then some none
  else
    match findEntry hashed_dn (s.index.length + 1) s.index with
    | none => some none
    | some ci =>
      if a.der = false then some none
      else if s.uses s.dataName = false then none
      else if a.openData = false ∨ a.seek = false then some none
      else
        let der := (s.data.drop ci.offset).take ci.length
        if der.length ≠ ci.length ∨ a.x509 = false then some none
        else some (some (der, ci.sha256))

def run (d : Decoder) : List Call → Store → Option Store
  | [], s => some s
  | c :: calls, s => (initCertStore d c s).bind fun (_, s) => run d calls s

/-! ## Archives -/

/-- A member of an archive, with the decimal digits of its size. -/
structure Member where
  name : List UInt8
  middle : List UInt8
  digits : List UInt8
  content : List UInt8
  name_length : name.length = 16
  middle_length : middle.length = 32
  digits_length : digits.length ≤ 10
  isdigit_of_mem : ∀ b ∈ digits, isdigit b = true
  magnitude_eq : magnitude digits = content.length
  content_ne : content ≠ []

def Member.size (m : Member) : List UInt8 :=
  m.digits ++ List.replicate (10 - m.digits.length) 32

def Member.header (m : Member) : List UInt8 := m.name ++ m.middle ++ m.size ++ [96, 10]

def Member.pad (m : Member) : List UInt8 := if m.content.length % 2 = 1 then [10] else []

def Member.bytes (m : Member) : List UInt8 := m.header ++ (m.content ++ m.pad)

def archive (members : List Member) : List UInt8 := magic ++ members.flatMap Member.bytes

def Member.isCert (m : Member) : Bool := !([47, 47].isPrefixOf m.name)

/-- Whether the loop comes past a member: there is memory for it, and its entry is
written. -/
def Call.takes (c : Call) (p : Member × Nat) : Bool :=
  c.grants p.2 p.1.content.length && (!p.1.isCert || c.written p.2)

/-- The certificates that the loop comes past, with their numbers. -/
def Call.certs (c : Call) (members : List Member) : List (Member × Nat) :=
  (members.zipIdx.takeWhile c.takes).filter fun p => p.1.isCert

def Call.kept (c : Call) (members : List Member) : List (Member × Nat) :=
  (c.certs members).filter fun p => c.hash p.2

def Call.opened (c : Call) : Bool := c.indexName && c.dataName && c.openIndex && c.openData

section Members

variable (m : Member)

theorem Member.digits_ne : m.digits ≠ [] := by
  intro hnil
  have hlen := m.magnitude_eq
  rw [hnil] at hlen
  exact m.content_ne (length_eq_zero_iff.1 hlen.symm)

theorem Member.size_length : m.size.length = 10 := by
  rw [size, length_append, length_replicate]
  exact Nat.add_sub_cancel' m.digits_length

theorem Member.header_length : m.header.length = 60 := by
  simp only [header, length_append, m.name_length, m.middle_length, m.size_length,
    length_cons, length_nil]

theorem Member.content_length_pos : 0 < m.content.length :=
  length_pos_of_ne_nil m.content_ne

theorem Member.bytes_length_even : m.bytes.length % 2 = 0 := by
  rw [bytes, length_append, length_append, m.header_length, pad]
  split
  · rw [length_singleton]
    omega
  · rw [length_nil]
    omega

theorem Member.zero_notMem_size : (0 : UInt8) ∉ m.size := by
  intro hmem
  rcases mem_append.1 hmem with hdigit | hblank
  · exact Bool.noConfusion (m.isdigit_of_mem 0 hdigit)
  · exact absurd (eq_of_mem_replicate hblank) (by decide)

theorem Member.exists_size_eq : ∃ b rest, m.size = b :: rest ∧ isdigit b = true := by
  rcases hdigits : m.digits with _ | ⟨b, rest⟩
  · exact absurd hdigits m.digits_ne
  · refine ⟨b, rest ++ replicate (10 - m.digits.length) 32, ?_, ?_⟩
    · rw [size, hdigits, cons_append]
    · exact m.isdigit_of_mem b (hdigits ▸ mem_cons_self)

theorem Member.magnitude_size : magnitude m.size = m.content.length := by
  have htake : m.size.takeWhile isdigit = m.digits.takeWhile isdigit := by
    rw [size, takeWhile_append_of_pos m.isdigit_of_mem,
      takeWhile_eq_self_iff.2 m.isdigit_of_mem]
    rcases 10 - m.digits.length with _ | n
    · rw [replicate_zero, takeWhile_nil, append_nil]
    · rw [replicate_succ, takeWhile_cons_of_neg (by decide), append_nil]
  rw [magnitude, htake, ← magnitude, m.magnitude_eq]

end Members

/-- **What `sscanf` makes of a size**: it stops at 2147483647. -/
theorem scanInt_size (m : Member) (back : List UInt8) :
    scanInt (m.size ++ 0 :: back) = some (min (m.content.length : Int) 2147483647) := by
  obtain ⟨b, rest, hsize, hb⟩ := m.exists_size_eq
  have hspace := isspace_digit hb
  obtain ⟨hminus, hplus⟩ := digit_ne_sign hb
  have hcstr : cstr (m.size ++ 0 :: back) = m.size := by
    rw [cstr_append m.zero_notMem_size, cstr_zero, append_nil]
  have hdrop : m.size.dropWhile isspace = m.size := by
    rw [hsize, dropWhile_cons_of_neg (by rw [hspace]; decide)]
  have hatol : atol m.size = min (magnitude m.size : Int) 2147483647 := by
    rw [hsize, atol_cons hspace, if_neg hminus, if_neg hplus]
  have hsign : ¬ (b = 45 ∨ b = 43) := fun hor => hor.elim hminus hplus
  rw [scanInt, hcstr, hdrop, hatol, m.magnitude_size, hsize, headD_cons, if_neg hsign,
    headD_cons]
  exact if_pos hb

theorem drop_header (m : Member) : (m.header.set 58 0).drop 48 = m.size ++ [0, 10] := by
  have hfront : (m.name ++ m.middle).length = 48 := by
    rw [length_append, m.name_length, m.middle_length]
  have hlen : (m.name ++ m.middle ++ m.size).length = 58 := by
    rw [length_append, hfront, m.size_length]
  rw [Member.header, set_append_right _ _ (by rw [hlen]), hlen, append_assoc,
    drop_left' hfront]
  rfl

theorem isCert_iff (m : Member) :
    (m.header.set 58 0).getD 0 0 ≠ 47 ∨ (m.header.set 58 0).getD 1 0 ≠ 47 ↔ m.isCert = true := by
  have hlen := m.name_length
  rw [Member.header, Member.isCert]
  rcases hname : m.name with _ | ⟨a, _ | ⟨b, rest⟩⟩
  · rw [hname] at hlen
    cases hlen
  · rw [hname, length_singleton] at hlen
    cases hlen
  · have hslashes : [47, 47].isPrefixOf (a :: b :: rest) = (47 == a && 47 == b) := by
      simp only [isPrefixOf, Bool.and_true]
    rw [hslashes, Bool.not_eq_true', Bool.and_eq_false_iff, beq_eq_false_iff_ne,
      beq_eq_false_iff_ne]
    exact or_congr ne_comm ne_comm

/-! ## The loop -/

variable {d : Decoder} {c : Call}

theorem grants_min (i length : Nat) :
    c.grants i (min (length : Int) 2147483647) = c.grants i length := by
  rcases Nat.lt_or_ge length 262144 with hlt | hge
  · rw [show min (length : Int) 2147483647 = length by omega]
  · rw [Call.grants, Call.grants,
      decide_eq_false (show ¬ min (length : Int) 2147483647 < 262144 by omega),
      decide_eq_false (show ¬ (length : Int) < 262144 by omega), Bool.and_false, Bool.and_false]

variable {fuel : Nat}

/-- **A pass of the loop.** -/
theorem indexLoop_member (m : Member) (rest : List UInt8) {i offset : Nat}
    (heven : offset % 2 = 0) (hfits : offset + m.bytes.length < 4294967296) :
    indexLoop d c (fuel + 1) i (m.bytes ++ rest) offset =
      if c.grants i m.content.length = false then ([], 0)
      else
        let later := indexLoop d c fuel (i + 1) rest (offset + m.bytes.length)
        if m.isCert = true then
          if c.written i = false then ([], 0)
          else
            let ci := preprocessCert d (c.hash i) m.content.length (offset + 60) m.content
            (ci.bytes ++ later.1, later.2 + 1)
        else later := by
  have hlen : m.bytes.length = 60 + (m.content.length + m.pad.length) := by
    rw [Member.bytes, length_append, length_append, m.header_length]
  have htake : (m.bytes ++ rest).take 60 = m.header := by
    rw [Member.bytes, append_assoc, take_left' m.header_length]
  have hdrop : (m.bytes ++ rest).drop 60 = m.content ++ (m.pad ++ rest) := by
    rw [Member.bytes, append_assoc, drop_left' m.header_length, append_assoc]
  have hodd_lt : m.content.length % 2 = 1 → offset + 60 + m.content.length + 1 < 4294967296 := by
    intro hodd
    rw [hlen, Member.pad, if_pos hodd, length_singleton] at hfits
    omega
  have hpos := m.content_length_pos
  rw [indexLoop]
  dsimp only
  rw [htake, hdrop, if_neg (not_not.2 m.header_length), drop_header, scanInt_size,
    u32_of_lt (show offset + 60 < 4294967296 by omega)]
  dsimp only
  rw [grants_min]
  rcases hgrants : c.grants i m.content.length with _ | _
  · rw [if_pos (.inr rfl), if_pos rfl]
  · have hmin : min (m.content.length : Int) 2147483647 = m.content.length := by
      rw [Call.grants, Bool.and_eq_true, Bool.and_eq_true] at hgrants
      have := of_decide_eq_true hgrants.1.2
      omega
    have hnext : u32 (offset + 60 + m.content.length) = offset + 60 + m.content.length :=
      u32_of_lt (by omega)
    rw [hmin, if_neg (by rintro (hzero | hfalse); omega; exact Bool.noConfusion hfalse),
      if_neg (show ¬ true = false from Bool.noConfusion), Int.toNat_natCast, take_left,
      if_neg (not_not.2 rfl), drop_left, hnext]
    have hlater : (if (offset + 60 + m.content.length) % 2 = 1 then
          indexLoop d c fuel (i + 1) ((m.pad ++ rest).drop 1)
            (u32 (offset + 60 + m.content.length + 1))
        else indexLoop d c fuel (i + 1) (m.pad ++ rest) (offset + 60 + m.content.length)) =
        indexLoop d c fuel (i + 1) rest (offset + m.bytes.length) := by
      rw [hlen, Member.pad]
      by_cases hodd : m.content.length % 2 = 1
      · rw [if_pos (show (offset + 60 + m.content.length) % 2 = 1 by omega), if_pos hodd,
          u32_of_lt (hodd_lt hodd), length_singleton, Nat.add_assoc, Nat.add_assoc]
        rfl
      · grind
    rw [hlater]
    simp only [isCert_iff]

/-- What is written for a member, whether it is hashed or not. -/
def Writes (d : Decoder) (c : Call) (data : List UInt8) (p : Member × Nat) (ci : CertInfo) : Prop :=
  ∃ offset, (data.drop offset).take p.1.content.length = p.1.content ∧
    ci = preprocessCert d (c.hash p.2) p.1.content.length offset p.1.content

theorem take_content (front rest : List UInt8) (m : Member) :
    ((front ++ (m.bytes ++ rest)).drop (front.length + 60)).take m.content.length = m.content := by
  rw [drop_append, drop_of_length_le (Nat.le_add_right _ _), nil_append,
    Nat.add_sub_cancel_left, Member.bytes, append_assoc, drop_left' m.header_length,
    append_assoc, take_left]

/-- **The loop over an archive**: one entry for each certificate it comes past. -/
theorem indexLoop_members (members : List Member) :
    ∀ {fuel i : Nat} {front : List UInt8}, front.length % 2 = 0 →
      (front ++ members.flatMap Member.bytes).length < 4294967296 →
      (members.flatMap Member.bytes).length < fuel →
      ∃ entries, indexLoop d c fuel i (members.flatMap Member.bytes) front.length =
          (entries.flatMap CertInfo.bytes, entries.length) ∧
        List.Forall₂ (Writes d c (front ++ members.flatMap Member.bytes))
          (((members.zipIdx i).takeWhile c.takes).filter fun p => p.1.isCert) entries := by
  induction members with
  | nil =>
    intro fuel i front _ _ hfuel
    obtain ⟨fuel, rfl⟩ := Nat.exists_eq_succ_of_ne_zero (Nat.ne_of_gt hfuel)
    exact ⟨[], rfl, List.Forall₂.nil⟩
  | cons m members ih =>
    intro fuel i front heven hfits hfuel
    obtain ⟨fuel, rfl⟩ := Nat.exists_eq_succ_of_ne_zero (Nat.ne_of_gt (Nat.zero_lt_of_lt hfuel))
    have hmember : front.length + m.bytes.length = (front ++ m.bytes).length :=
      length_append.symm
    have hassoc : front ++ (m.bytes ++ members.flatMap Member.bytes) =
        front ++ m.bytes ++ members.flatMap Member.bytes := (append_assoc _ _ _).symm
    have htake := take_content front (members.flatMap Member.bytes) m
    rw [flatMap_cons] at hfits hfuel ⊢
    rw [length_append] at hfuel
    have hheader : 0 < m.bytes.length := by
      rw [Member.bytes, length_append, m.header_length]
      omega
    have hend : front.length + m.bytes.length < 4294967296 := by grind
    have hbound : (front ++ m.bytes).length % 2 = 0 := by
      have := m.bytes_length_even
      omega
    obtain ⟨entries, hloop, hentries⟩ := @ih fuel (i + 1) (front ++ m.bytes) hbound
      (hassoc ▸ hfits) (by omega)
    rw [indexLoop_member m _ heven hend, hmember, hloop, hassoc, zipIdx_cons,
      takeWhile_cons, Call.takes]
    dsimp only
    rcases hgrants : c.grants i m.content.length with _ | _
    · exact ⟨[], rfl, List.Forall₂.nil⟩
    · rcases hcert : m.isCert with _ | _
      · refine ⟨entries, rfl, ?_⟩
        rw [if_pos (show (true && (!false || c.written i)) = true from rfl),
          filter_cons_of_neg (by rw [hcert]; decide)]
        exact hentries
      · rcases hwritten : c.written i with _ | _
        · exact ⟨[], rfl, List.Forall₂.nil⟩
        · refine ⟨preprocessCert d (c.hash i) m.content.length (front.length + 60) m.content ::
            entries, rfl, ?_⟩
          rw [if_pos (show (true && (!true || true)) = true from rfl),
            @List.filter_cons_of_pos _ (fun p : Member × Nat => p.1.isCert) (m, i) _ hcert]
          exact .cons ⟨_, hassoc ▸ htake, rfl⟩ hentries

/-! ## The search -/

structure CertInfo.Fits (ci : CertInfo) : Prop where
  sha256 : ci.sha256.length = 32
  offset : ci.offset < 4294967296
  length : ci.length < 4294967296

variable {ci : CertInfo}

theorem CertInfo.Fits.bytes_length (h : ci.Fits) : ci.bytes.length = 40 := by
  rw [bytes, length_append, length_append, h.sha256, le32_length, le32_length]

/-- **An entry comes back** from its bytes. -/
theorem CertInfo.Fits.ofBytes_bytes (h : ci.Fits) : ofBytes ci.bytes = ci := by
  have hfront : (ci.sha256 ++ le32 ci.offset).length = 36 := by
    rw [length_append, h.sha256, le32_length]
  have hsha256 : ci.bytes.take 32 = ci.sha256 := by
    rw [bytes, append_assoc, take_left' h.sha256]
  have hoffset : (ci.bytes.drop 32).take 4 = le32 ci.offset := by
    rw [bytes, append_assoc, drop_left' h.sha256, take_left' (le32_length _)]
  have hlength : (ci.bytes.drop 36).take 4 = le32 ci.length := by
    rw [bytes, drop_left' hfront, take_of_length_le (Nat.le_of_eq (le32_length _))]
  rw [ofBytes, hsha256, hoffset, hlength, ofLe_le32, ofLe_le32, u32_of_lt h.offset,
    u32_of_lt h.length]

variable {entries : List CertInfo}

theorem entries_length (hfits : ∀ ci ∈ entries, ci.Fits) :
    (entries.flatMap CertInfo.bytes).length = 40 * entries.length := by
  induction entries with
  | nil => rfl
  | cons ci entries ih =>
    rw [flatMap_cons, length_append, (hfits ci mem_cons_self).bytes_length,
      ih fun ci hmem => hfits ci (mem_cons_of_mem _ hmem), length_cons]
    omega

/-- **The search** finds the first entry with the hash. -/
theorem findEntry_entries (hfits : ∀ ci ∈ entries, ci.Fits)
    (hash : List UInt8) (hfuel : entries.length < fuel) :
    findEntry hash fuel (entries.flatMap CertInfo.bytes) =
      entries.find? fun ci => decide (ci.sha256 = hash) := by
  induction entries generalizing fuel with
  | nil =>
    obtain ⟨fuel, rfl⟩ := Nat.exists_eq_succ_of_ne_zero (Nat.ne_of_gt hfuel)
    rfl
  | cons ci entries ih =>
    obtain ⟨fuel, rfl⟩ := Nat.exists_eq_succ_of_ne_zero (Nat.ne_of_gt (Nat.zero_lt_of_lt hfuel))
    have hci := hfits ci mem_cons_self
    have hrest := ih (fun ci hmem => hfits ci (mem_cons_of_mem _ hmem))
      (Nat.lt_of_succ_lt_succ hfuel)
    rw [flatMap_cons, findEntry, take_left' hci.bytes_length,
      drop_left' hci.bytes_length, if_neg (not_not.2 hci.bytes_length), hci.ofBytes_bytes,
      hrest]
    dsimp only
    by_cases heq : ci.sha256 = hash
    · simp only [heq, ↓reduceIte, decide_true, find?_cons_of_pos]
    · simp only [heq, ↓reduceIte, decide_false, Bool.false_eq_true, not_false_eq_true,
        find?_cons_of_neg]

/-! ## The names -/

structure Store.Inv (s : Store) : Prop where
  indexName : s.heap.Valid s.indexName
  dataName : s.heap.Valid s.dataName
  apart : s.dataName = none ∨ s.dataName ≠ s.indexName

def Store.Stale (s : Store) : Prop :=
  (s.indexName = none ∧ ¬ s.heap.Valid s.dataName) ∨
    (s.dataName = none ∧ ¬ s.heap.Valid s.indexName)

variable {s : Store}

theorem Store.inv_start : Store.start.Inv := ⟨Heap.valid_none, Heap.valid_none, .inl rfl⟩

variable {p : Option Nat}

theorem Store.uses_of_valid (hvalid : s.heap.Valid p) (hp : p ≠ none) :
    s.uses p = true := by
  rcases p with _ | a
  · exact absurd rfl hp
  · exact contains_iff_mem.2 (hvalid a rfl)

theorem Store.Inv.free (h : s.Inv) :
    ∃ h₁ h₂, s.heap.free s.indexName = some h₁ ∧ h₁.free s.dataName = some h₂ := by
  obtain ⟨h₁, hfirst⟩ := isSome_iff_exists.1 (Heap.free_isSome.2 h.indexName)
  have hvalid := Heap.valid_free hfirst h.dataName h.apart
  obtain ⟨h₂, hsecond⟩ := isSome_iff_exists.1 (Heap.free_isSome.2 hvalid)
  exact ⟨h₁, h₂, hfirst, hsecond⟩

/-- **A name that has been freed is freed again.** -/
theorem Store.Stale.initCertStore (h : s.Stale) : initCertStore d c s = none := by
  have hfree : ∀ {p : Option Nat} {heap : Heap}, ¬ heap.Valid p → heap.free p = none :=
    fun hinvalid => Option.not_isSome_iff_eq_none.1 fun hsome =>
      hinvalid (Heap.free_isSome.1 hsome)
  rw [CertStore.initCertStore]
  rcases h with ⟨hindex, hdata⟩ | ⟨-, hindex⟩
  · rw [hindex, Heap.free, bind_some, hfree hdata, bind_none]
  · rw [hfree hindex, bind_none]

theorem malloc_names {a b : Bool} {h g₁ g₂ : Heap} {q : Option Nat}
    (hfirst : h.malloc a = (p, g₁)) (hsecond : g₁.malloc b = (q, g₂)) :
    g₂.Valid p ∧ g₂.Valid q ∧ (q = none ∨ q ≠ p) ∧ (p = none ↔ a = false) ∧
      (q = none ↔ b = false) := by
  have hp : g₁.Valid p := by simpa only [hfirst] using Heap.valid_malloc a h
  have hq : g₂.Valid q := by simpa only [hsecond] using Heap.valid_malloc b g₁
  have hkeep : g₂.Valid p ∧ (p = none ∨ p ≠ q) := by
    simpa only [hsecond] using Heap.valid_malloc_of_valid b hp
  have hpnone : p = if a = true then some h.next else none := by
    simpa only [hfirst] using Heap.malloc_fst a h
  have hqnone : q = if b = true then some g₁.next else none := by
    simpa only [hsecond] using Heap.malloc_fst b g₁
  refine ⟨hkeep.1, hq, ?_, ?_, ?_⟩
  · grind
  · rw [hpnone]
    cases a <;> simp
  · rw [hqnone]
    cases b <;> simp

/-- **A call** that finds names it can free. -/
theorem Store.Inv.initCertStore_eq (h : s.Inv) (d : Decoder) (c : Call) :
    ∃ p q g, g.Valid p ∧ g.Valid q ∧ (q = none ∨ q ≠ p) ∧ (p = none ↔ c.indexName = false) ∧
      (q = none ↔ c.dataName = false) ∧
      (p = none ∨ q = none → initCertStore d c s =
        (g.free p).bind fun g => (g.free q).map fun g => (0, ⟨g, p, q, s.index, c.archive⟩)) ∧
      (¬ (p = none ∨ q = none) → initCertStore d c s = some
        (if c.openIndex = false then (0, ⟨g, p, q, s.index, c.archive⟩)
        else if c.openData = false ∨ c.archive.take 8 ≠ magic then (0, ⟨g, p, q, [], c.archive⟩)
        else
          let loop := indexLoop d c (c.archive.length + 1) 0 (c.archive.drop 8) 8
          (loop.2, ⟨g, p, q, loop.1, c.archive⟩))) := by
  obtain ⟨h₁, h₂, hfirst, hsecond⟩ := h.free
  rcases hindex : h₂.malloc c.indexName with ⟨p, g₁⟩
  rcases hdata : g₁.malloc c.dataName with ⟨q, g⟩
  obtain ⟨hp, hq, hrest⟩ := malloc_names hindex hdata
  refine ⟨p, q, g, hp, hq, hrest.1, hrest.2.1, hrest.2.2, fun hnone => ?_, fun hsome => ?_⟩
  · simp only [initCertStore, hfirst, hsecond, bind_some, hindex, hdata]
    exact if_pos hnone
  · obtain ⟨hpsome, hqsome⟩ := not_or.1 hsome
    simp only [initCertStore, hfirst, hsecond, bind_some, hindex, hdata]
    rw [if_neg hsome, Store.uses_of_valid hp hpsome, Store.uses_of_valid hq hqsome,
      if_neg (by decide)]
    split
    · rfl
    · split <;> rfl

/-- **Both names or none**: they can be used and freed, and with both and the files
open, the loop goes over the archive. -/
theorem Store.Inv.initCertStore_same (h : s.Inv) (hsame : c.indexName = c.dataName) :
    ∃ count s', initCertStore d c s = some (count, s') ∧ s'.Inv ∧
      (c.opened = true → c.archive.take 8 = magic →
        s'.indexName ≠ none ∧ s'.dataName ≠ none ∧ s'.data = c.archive ∧
          (s'.index, count) =
            indexLoop d c (c.archive.length + 1) 0 (c.archive.drop 8) 8) := by
  obtain ⟨p, q, g, hp, hq, happart, hpnone, hqnone, hnone, hsome⟩ := h.initCertStore_eq d c
  have hinv : ∀ index, (Store.mk g p q index c.archive).Inv := fun _ => ⟨hp, hq, happart⟩
  by_cases hrefused : p = none
  · have hqrefused : q = none := hqnone.2 (hsame ▸ hpnone.1 hrefused)
    rw [hnone (.inl hrefused)]
    subst hrefused hqrefused
    refine ⟨_, _, rfl, hinv _, fun hopened => ?_⟩
    rw [Call.opened, hpnone.1 rfl] at hopened
    exact Bool.noConfusion hopened
  · have hqgranted : q ≠ none := fun hfalse => hrefused (hpnone.2 (hsame ▸ hqnone.1 hfalse))
    rw [hsome (not_or_intro hrefused hqgranted)]
    split
    · rename_i hindex
      refine ⟨_, _, rfl, hinv _, fun hopened => ?_⟩
      rw [Call.opened, hindex, Bool.and_false] at hopened
      exact Bool.noConfusion hopened
    · split
      · rename_i hdata
        refine ⟨_, _, rfl, hinv _, fun hopened hmagic => ?_⟩
        rw [Call.opened, hdata.resolve_right (not_not.2 hmagic), Bool.and_false] at hopened
        exact Bool.noConfusion hopened
      · exact ⟨_, _, rfl, hinv _, fun _ _ => ⟨hrefused, hqgranted, rfl, rfl⟩⟩

/-- **One name of the two**: it is left behind, freed. -/
theorem Store.Inv.initCertStore_one (h : s.Inv) (hone : c.indexName ≠ c.dataName) :
    ∃ s', initCertStore d c s = some (0, s') ∧ s'.Stale := by
  obtain ⟨p, q, g, hp, hq, -, hpnone, hqnone, hnone, -⟩ := h.initCertStore_eq d c
  rcases hindex : c.indexName with _ | _
  · have hprefused := hpnone.2 hindex
    rcases q with _ | a
    · exact absurd (hindex.trans (hqnone.1 rfl).symm) hone
    · obtain ⟨g', hfree⟩ := isSome_iff_exists.1 (Heap.free_isSome.2 hq)
      rw [hnone (.inl hprefused), hprefused, Heap.free, bind_some, hfree, map_some]
      exact ⟨_, rfl, .inl ⟨rfl, Heap.not_valid_free hfree⟩⟩
  · have hqrefused : q = none := hqnone.2 (by
      rw [hindex] at hone
      exact (Bool.eq_false_iff.2 (Ne.symm hone)))
    rcases p with _ | a
    · grind
    · obtain ⟨g', hfree⟩ := isSome_iff_exists.1 (Heap.free_isSome.2 hp)
      rw [hnone (.inr hqrefused), hqrefused, hfree, bind_some, Heap.free, map_some]
      exact ⟨_, rfl, .inr ⟨rfl, Heap.not_valid_free hfree⟩⟩

/-! ## Calls one after the other -/

/-- An entry that gives the hash of a member's content, and where it stands. -/
def Designates (d : Decoder) (data : List UInt8) (p : Member × Nat) (ci : CertInfo) : Prop :=
  ci.sha256 = d.subject p.1.content ∧ ci.length = p.1.content.length ∧
    (data.drop ci.offset).take ci.length = p.1.content

structure Indexed (d : Decoder) (c : Call) (members : List Member) (count : Nat) (s : Store) :
    Prop where
  count_eq : count = (c.kept members).length
  index : ∃ entries, s.index = entries.flatMap CertInfo.bytes ∧
    List.Forall₂ (Designates d c.archive) (c.kept members) entries
  found : ∀ hash, (∃ p ∈ c.kept members, d.subject p.1.content = hash) →
    ∃ p ∈ c.kept members, d.subject p.1.content = hash ∧
      findHashedTA ⟨true, true, true, true, true⟩ hash s = some (some (p.1.content, hash))

def Call.Stores (c : Call) (members : List Member) : Prop :=
  c.archive = CertStore.archive members ∧ c.archive.length < 4294967296

/-- **What the store is for**: no name is used or freed once it has been freed, and
each archive is indexed. -/
structure Kept (d : Decoder) (calls : List Call) : Prop where
  freed : (run d calls .start).isSome = true
  used : ∀ front back s a hash, calls = front ++ back → run d front .start = some s →
    (findHashedTA a hash s).isSome = true
  indexed : ∀ front c back s count s' members, calls = front ++ c :: back →
    run d front .start = some s → initCertStore d c s = some (count, s') →
    c.opened = true → c.Stores members → Indexed d c members count s'

/-- Calls that are granted both names or none, the last one aside, and that have
memory to hash each certificate they come past. -/
structure Suited (calls : List Call) : Prop where
  names : ∀ front c next back, calls = front ++ c :: next :: back → c.indexName = c.dataName
  hashes : ∀ c ∈ calls, c.opened = true → ∀ members, c.Stores members →
    ∀ p ∈ c.certs members, c.hash p.2 = true

/-! ### The names over a run -/

def Store.Held (s : Store) : Prop := s.Inv ∨ s.Stale

variable {s' : Store} {count : Nat}

theorem inv_of_initCertStore (hheld : s.Held) (hinit : initCertStore d c s = some (count, s')) :
    s.Inv := by
  refine hheld.resolve_right fun hstale => ?_
  rw [hstale.initCertStore] at hinit
  cases hinit

theorem Store.Held.initCertStore (hheld : s.Held)
    (hinit : initCertStore d c s = some (count, s')) : s'.Held := by
  have hinv := inv_of_initCertStore hheld hinit
  by_cases hsame : c.indexName = c.dataName
  · obtain ⟨_, _, heq, hinv', -⟩ := @Store.Inv.initCertStore_same d c s hinv hsame
    cases hinit.symm.trans heq
    exact .inl hinv'
  · obtain ⟨_, heq, hstale⟩ := @Store.Inv.initCertStore_one d c s hinv hsame
    cases hinit.symm.trans heq
    exact .inr hstale

theorem run_cons (calls : List Call) (hinit : initCertStore d c s = some (count, s')) :
    run d (c :: calls) s = run d calls s' := by
  rw [run, hinit, bind_some]

variable {calls : List Call}

/-- **A run** keeps the names as a call does. -/
theorem run_held (hheld : s.Held) (hrun : run d calls s = some s') :
    s'.Held := by
  induction calls generalizing s with
  | nil =>
    cases hrun
    exact hheld
  | cons c calls ih =>
    obtain ⟨⟨count, s₁⟩, hinit, hrest⟩ := bind_eq_some_iff.1 hrun
    exact ih (hheld.initCertStore hinit) hrest

theorem run_isSome (hinv : s.Inv)
    (hnames : ∀ front c next back, calls = front ++ c :: next :: back →
      c.indexName = c.dataName) : (run d calls s).isSome = true := by
  induction calls generalizing s with
  | nil => rfl
  | cons c calls ih =>
    by_cases hsame : c.indexName = c.dataName
    · obtain ⟨count, s', hinit, hinv', -⟩ := @Store.Inv.initCertStore_same d c s hinv hsame
      rw [run_cons calls hinit]
      exact ih hinv' fun front c' next back heq =>
        hnames (c :: front) c' next back (congrArg (c :: ·) heq)
    · obtain ⟨s', hinit, -⟩ := @Store.Inv.initCertStore_one d c s hinv hsame
      rcases calls with _ | ⟨next, back⟩
      · rw [run_cons [] hinit]
        rfl
      · exact absurd (hnames [] c next back rfl) hsame

theorem run_append (front back : List Call) (s : Store) :
    run d (front ++ back) s = (run d front s).bind (run d back) := by
  induction front generalizing s with
  | nil => rfl
  | cons c front ih =>
    rw [cons_append, run, run, Option.bind_assoc]
    exact congrArg _ (funext fun _ => ih _)

theorem exists_of_run {front back : List Call}
    (hrun : (run d (front ++ c :: back) s).isSome = true) :
    ∃ s₁ count s₂, run d front s = some s₁ ∧ initCertStore d c s₁ = some (count, s₂) ∧
      (run d back s₂).isSome = true := by
  obtain ⟨s', hrun⟩ := isSome_iff_exists.1 hrun
  rw [run_append] at hrun
  obtain ⟨s₁, hfront, hrest⟩ := bind_eq_some_iff.1 hrun
  obtain ⟨⟨count, s₂⟩, hinit, hback⟩ := bind_eq_some_iff.1 hrest
  exact ⟨s₁, count, s₂, hfront, hinit, isSome_iff_exists.2 ⟨s', hback⟩⟩

/-- **A run frees no name twice** exactly if that is so. -/
theorem run_isSome_iff (hinv : s.Inv) :
    (run d calls s).isSome = true ↔ ∀ front c next back, calls = front ++ c :: next :: back →
      c.indexName = c.dataName := by
  refine ⟨fun hrun front c next back heq => ?_, run_isSome hinv⟩
  subst heq
  obtain ⟨s₁, count, s₂, hfront, hinit, hrest⟩ := exists_of_run hrun
  obtain ⟨s₃, _, _, hnil, hnext, -⟩ := @exists_of_run d next s₂ [] back hrest
  cases hnil
  by_contra hone
  have hinv₁ := inv_of_initCertStore (run_held (.inl hinv) hfront) hinit
  obtain ⟨_, heq, hstale⟩ := @Store.Inv.initCertStore_one d c s₁ hinv₁ hone
  cases hinit.symm.trans heq
  rw [hstale.initCertStore] at hnext
  cases hnext

theorem findHashedTA_isSome (hheld : s.Held) (a : Answers) (hash : List UInt8) :
    (findHashedTA a hash s).isSome = true := by
  rw [findHashedTA]
  split
  · rfl
  · rename_i hsome
    obtain ⟨-, hnames⟩ := not_or.1 hsome
    obtain ⟨hindex, hdata⟩ := not_or.1 hnames
    have hinv : s.Inv := hheld.resolve_right fun hstale =>
      hstale.elim (fun h => hindex h.1) fun h => hdata h.1
    rw [Store.uses_of_valid hinv.indexName hindex, Store.uses_of_valid hinv.dataName hdata,
      if_neg (by decide)]
    split
    · rfl
    · grind

/-! ### The archives over a run -/

theorem Call.Stores.indexLoop {members : List Member} (h : c.Stores members) :
    ∃ entries, CertStore.indexLoop d c (c.archive.length + 1) 0 (c.archive.drop 8) 8 =
        (entries.flatMap CertInfo.bytes, entries.length) ∧
      List.Forall₂ (Writes d c c.archive) (c.certs members) entries := by
  obtain ⟨heq, hlt⟩ := h
  have hdrop : c.archive.drop 8 = members.flatMap Member.bytes := by
    rw [heq]
    exact drop_left' rfl
  have hfuel : (members.flatMap Member.bytes).length < c.archive.length + 1 := by grind
  rw [hdrop]
  have hloop := @indexLoop_members d c members (c.archive.length + 1) 0 magic rfl
    (by rw [← CertStore.archive, ← heq]; exact hlt) hfuel
  rw [← CertStore.archive, ← heq] at hloop
  exact hloop

theorem Writes.designates {data : List UInt8} {p : Member × Nat} {ci : CertInfo}
    (h : Writes d c data p ci) (hhash : c.hash p.2 = true) : Designates d data p ci := by
  obtain ⟨offset, htake, rfl⟩ := h
  rw [preprocessCert, if_pos hhash]
  exact ⟨rfl, rfl, htake⟩

theorem Designates.fits {data : List UInt8} {p : Member × Nat} {ci : CertInfo}
    (h : Designates d data p ci) (hdata : data.length < 4294967296) : ci.Fits := by
  obtain ⟨hsha256, hlength, htake⟩ := h
  have hlen := congrArg length htake
  rw [length_take, length_drop] at hlen
  have := p.1.content_length_pos
  exact ⟨hsha256 ▸ d.subject_length _, by omega, by omega⟩

theorem forall₂_exists {α β : Type} {R : α → β → Prop} {as : List α} {bs : List β}
    (h : List.Forall₂ R as bs) : ∀ a ∈ as, ∃ b ∈ bs, R a b := by
  induction h with
  | nil => exact fun a hmem => absurd hmem not_mem_nil
  | cons hhead _ ih =>
    intro a hmem
    rcases mem_cons.1 hmem with rfl | hmem
    · exact ⟨_, mem_cons_self, hhead⟩
    · obtain ⟨b, hb, hrel⟩ := ih a hmem
      exact ⟨b, mem_cons_of_mem _ hb, hrel⟩

/-- **The search over an index** whose entries designate members. -/
theorem findHashedTA_of_index {kept : List (Member × Nat)}
    (hinv : s.Inv) (hnames : s.indexName ≠ none ∧ s.dataName ≠ none)
    (hdata : s.data.length < 4294967296) (hindex : s.index = entries.flatMap CertInfo.bytes)
    (hentries : List.Forall₂ (Designates d s.data) kept entries) {hash : List UInt8}
    (hexists : ∃ p ∈ kept, d.subject p.1.content = hash) :
    ∃ p ∈ kept, d.subject p.1.content = hash ∧
      findHashedTA ⟨true, true, true, true, true⟩ hash s = some (some (p.1.content, hash)) := by
  have hfits : ∀ ci ∈ entries, ci.Fits := fun ci hmem => by
    obtain ⟨p, -, hp⟩ := forall₂_exists hentries.flip ci hmem
    exact Designates.fits (show Designates d s.data p ci from hp) hdata
  obtain ⟨p₀, hp₀, rfl⟩ := hexists
  obtain ⟨ci₀, hci₀, hsha256, -⟩ := forall₂_exists hentries p₀ hp₀
  have hfound : (entries.find? fun ci =>
      decide (ci.sha256 = d.subject p₀.1.content)).isSome = true :=
    find?_isSome.2 ⟨ci₀, hci₀, decide_eq_true hsha256⟩
  obtain ⟨ci, hfind⟩ := isSome_iff_exists.1 hfound
  have htest := find?_some hfind
  have hci := of_decide_eq_true htest
  obtain ⟨p, hp, hsubject, hlength, htake⟩ :=
    forall₂_exists hentries.flip ci (mem_of_find?_eq_some hfind)
  refine ⟨p, hp, hsubject.symm.trans hci, ?_⟩
  have hfuel : entries.length < s.index.length + 1 := by
    rw [hindex, entries_length hfits]
    omega
  have hchecks : ¬ ((d.subject p₀.1.content).length ≠ 32 ∨ s.indexName = none ∨
      s.dataName = none) :=
    not_or_intro (not_not.2 (d.subject_length _)) (not_or_intro hnames.1 hnames.2)
  have hsearch := findEntry_entries hfits (d.subject p₀.1.content) hfuel
  rw [← hindex, hfind] at hsearch
  rw [findHashedTA, if_neg hchecks, Store.uses_of_valid hinv.indexName hnames.1,
    Store.uses_of_valid hinv.dataName hnames.2, hsearch]
  dsimp only
  rw [htake, hlength, hci]
  simp only [Bool.true_eq_false, ne_eq, not_true_eq_false, or_self, ↓reduceIte]

theorem indexed_call {members : List Member} (hinv : s.Inv)
    (hinit : initCertStore d c s = some (count, s')) (hopened : c.opened = true)
    (hstores : c.Stores members) :
    s'.Inv ∧ s'.indexName ≠ none ∧ s'.dataName ≠ none ∧ s'.data = c.archive ∧
      ∃ entries, s'.index = entries.flatMap CertInfo.bytes ∧ count = entries.length ∧
        List.Forall₂ (Writes d c c.archive) (c.certs members) entries := by
  have hsame : c.indexName = c.dataName := by
    simp only [Call.opened, Bool.and_eq_true] at hopened
    rw [hopened.1.1.1, hopened.1.1.2]
  have hmagic : c.archive.take 8 = magic := by
    rw [hstores.1]
    exact take_left' rfl
  obtain ⟨_, _, heq, hinv', hfiles⟩ := @Store.Inv.initCertStore_same d c s hinv hsame
  cases hinit.symm.trans heq
  obtain ⟨hindex, hdata, hcontent, hloop⟩ := hfiles hopened hmagic
  obtain ⟨entries, hentries, hwrites⟩ := @Call.Stores.indexLoop d c members hstores
  rw [hentries, Prod.mk.injEq] at hloop
  exact ⟨hinv', hindex, hdata, hcontent, entries, hloop.1, hloop.2, hwrites⟩

def noSubject : Decoder where
  subject := fun _ => [
    0xe3, 0xb0, 0xc4, 0x42, 0x98, 0xfc, 0x1c, 0x14, 0x9a, 0xfb, 0xf4, 0xc8, 0x99, 0x6f, 0xb9, 0x24,
    0x27, 0xae, 0x41, 0xe4, 0x64, 0x9b, 0x93, 0x4c, 0xa4, 0x95, 0x99, 0x1b, 0x78, 0x52, 0xb8, 0x55]
  subject_length := fun _ => rfl

end CertStore
