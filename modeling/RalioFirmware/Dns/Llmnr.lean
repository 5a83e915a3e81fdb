import RalioFirmware.Dns.Classify
import RalioFirmware.Basis.Word

/-!
# The LLMNR responder

`_process_packet` reads a datagram byte by byte and does not look at the end of
it: behind the end `read` gives -1, which goes into the fields as it is, and the
name is read into an array on the stack that keeps what it had where the
datagram has no more.  The byte behind the name is skipped unread, the name is
compared as it is with a host name in lower case, and the question of the
response is written from constants.

* `processPacket_some_iff`: the datagrams that are responded to;
* `answered_iff`: a datagram is answered as it is meant exactly where it is a
  query of type A and class IN for the host name in lower case, or is none for
  the host name and is not taken for one.
-/

namespace Llmnr

open CString Bytes List
open UInt8 (ofNat toNat_inj)

/-! ## The responder -/

/-- `begin`: the host name in lower case. -/
def begin_ (hostname : List UInt8) : Option (List UInt8) :=
  if strlen hostname > 63 then none else some ((cstr hostname).map tolower)

/-- `_conn->read()`; a `char` has no sign here. -/
def read : List UInt8 → Int × List UInt8
  | [] => (-1, [])
  | b :: rest => (b.toNat, rest)

/-- `((uint16_t) high << 8) | low` as a `uint16_t`; with -1 all bits are set. -/
def join (high low : Int) : Nat :=
  if low < 0 then 65535 else (((high % 65536) * 256 + low) % 65536).toNat

/-- `_conn_read16`. -/
def read16 (d : List UInt8) : Nat × List UInt8 :=
  let (high, d) := read d
  let (low, d) := read d
  (join high low, d)

/-- `_conn_read8`, as a `uint8_t`. -/
def read8 (d : List UInt8) : Nat × List UInt8 :=
  let (b, d) := read d
  ((b % 256).toNat, d)

/-- `_conn_readS`: the bytes that are stored. -/
def readS (n : Nat) (d : List UInt8) : List UInt8 × List UInt8 := (d.take n, d.drop n)

structure Header where
  id : Nat
  flags : Nat
  qdcount : Nat
  ancount : Nat
  nscount : Nat
  arcount : Nat

def readHeader (d : List UInt8) : Header × List UInt8 :=
  let (id, d) := read16 d
  let (flags, d) := read16 d
  let (qdcount, d) := read16 d
  let (ancount, d) := read16 d
  let (nscount, d) := read16 d
  let (arcount, d) := read16 d
  (⟨id, flags, qdcount, ancount, nscount, arcount⟩, d)

/-- `BAD_FLAGS`: the response bit, the opcode and the conflict bit. -/
def BAD_FLAGS : Nat := 0x8000 + 0x7800 + 0x0400

def Header.accepted (h : Header) : Bool :=
  h.flags &&& BAD_FLAGS = 0 && h.qdcount = 1 && h.ancount = 0 && h.nscount = 0 && h.arcount = 0

/-- The addresses of the device: that of its access point with its mask, if it
has one, and that of its station. -/
structure Interfaces where
  softAp : Option (Nat × Nat)
  station : Nat

/-- The address for a host: that of the access point if the host is in its
net. -/
def Interfaces.address (remote : Nat) (i : Interfaces) : Nat :=
  match i.softAp with
  | none => i.station
  | some (ip, netmask) =>
    if ip ≠ 0 ∧ remote &&& netmask = ip &&& netmask then ip else i.station

def labelBytes (label : List UInt8) : List UInt8 := UInt8.ofNat label.length :: label ++ [0]

/-- `rr`, with the name in front of it. -/
def answerBytes (qname : List UInt8) (ip : Nat) : List UInt8 :=
  labelBytes qname ++ [0, 1, 0, 1, 0, 0, 0, 30, 0, 4, UInt8.ofNat ip, UInt8.ofNat (ip / 256),
    UInt8.ofNat (ip / 65536), UInt8.ofNat (ip / 16777216)]

def response (id : Nat) (qname : List UInt8) (have_rr : Bool) (ip : Nat) : List UInt8 :=
  Dns.shortBytes id ++ [0x80, 0, 0, 1, 0, if have_rr then 1 else 0, 0, 0, 0, 0] ++
    labelBytes qname ++ [0, 1, 0, 1] ++ if have_rr then answerBytes qname ip else []

/-- `_process_packet` on a datagram from a host, with what the stack has where
`qname` comes to stand: the response that is sent. -/
def processPacket (hostname stack : List UInt8) (i : Interfaces) (remote : Nat)
    (d : List UInt8) : Option (List UInt8) :=
  let (header, d) := readHeader d
  if header.accepted = false then none
  else
    let (namelen, d) := read8 d
    if namelen ≠ hostname.length then none
    else
      let (bytes, d) := readS namelen d
      let (_, d) := read8 d
      let qname := (memcpy stack 0 bytes).set namelen 0
      if strcmp hostname qname ≠ 0 then none
      else
        let (qtype, d) := read16 d
        let (qclass, _) := read16 d
        let have_rr := qtype = 1 && qclass = 1
        some (response header.id (qname.take namelen) have_rr (i.address remote))

/-! ## What a query is -/

structure Question where
  id : List UInt8
  label : List UInt8
  qtype : List UInt8
  qclass : List UInt8
deriving DecidableEq

/-- A complete query with one question, whose name is one label and the root
label; more may stand behind it. -/
def parseQuery : List UInt8 → Option Question
  | i₁ :: i₂ :: f₁ :: _ :: q₁ :: q₂ :: a₁ :: a₂ :: n₁ :: n₂ :: r₁ :: r₂ :: len :: rest =>
    if f₁ < 4 ∧ [q₁, q₂] = [0, 1] ∧ [a₁, a₂, n₁, n₂, r₁, r₂] = [0, 0, 0, 0, 0, 0] ∧
        0 < len ∧ len ≤ 63 ∧ rest[len.toNat]? = some 0 ∧ len.toNat + 5 ≤ rest.length then
      some ⟨[i₁, i₂], rest.take len.toNat, (rest.drop (len.toNat + 1)).take 2,
        (rest.drop (len.toNat + 3)).take 2⟩
    else none
  | _ => none

/-- The question asks for a host, whatever the case of the letters. -/
def Question.For (hostname : List UInt8) (q : Question) : Prop :=
  q.label.map tolower = (cstr hostname).map tolower

def Question.address (q : Question) : Prop := q.qtype = [0, 1] ∧ q.qclass = [0, 1]

instance (q : Question) : Decidable q.address := inferInstanceAs (Decidable (_ ∧ _))

/-- A response with the ID and the question of a query, and one answer if the
question is for an address. -/
structure Answers (q : Question) (r : List UInt8) : Prop where
  shape : ∃ flags back, r = q.id ++ flags ++
    [0, 1, 0, if q.address then 1 else 0, 0, 0, 0, 0] ++ labelBytes q.label ++ q.qtype ++
      q.qclass ++ back ∧ flags.length = 2 ∧ (back = [] ↔ ¬ q.address)

structure Answered (hostname d : List UInt8) (reply : Option (List UInt8)) : Prop where
  sent : reply.isSome = true ↔ ∃ q, parseQuery d = some q ∧ q.For hostname
  same : ∀ r q, reply = some r → parseQuery d = some q → Answers q r

/-- The datagram is taken for a query: the header is accepted, and the host name
in lower case stands in the place of the name, where what the stack had stands
behind a name that is cut short. -/
def Heard (name stack d : List UInt8) : Prop :=
  (readHeader d).1.accepted = true ∧
    ∃ len rest, (readHeader d).2 = len :: rest ∧ len.toNat = name.length ∧
      (memcpy stack 0 (rest.take name.length)).take name.length = name

/-- The datagram is a query of type A and class IN for the host name in lower
case, or neither a query for the host name nor taken for one. -/
def Suited (hostname name stack d : List UInt8) : Prop :=
  (∃ q, parseQuery d = some q ∧ q.label = name ∧ q.address) ∨
    (¬ (∃ q, parseQuery d = some q ∧ q.For hostname) ∧ ¬ Heard name stack d)

/-! ## Reading -/

theorem read16_cons (a b : UInt8) (rest : List UInt8) :
    read16 (a :: b :: rest) = (a.toNat * 256 + b.toNat, rest) := by
  have ha := a.toNat_lt
  have hb := b.toNat_lt
  show (join a.toNat b.toNat, rest) = _
  rw [join, if_neg (by omega)]
  congr 1
  omega

theorem read16_short {d : List UInt8} (h : d.length < 2) : read16 d = (65535, []) := by
  rcases d with _ | ⟨a, _ | ⟨b, rest⟩⟩
  · rfl
  · rfl
  · exact absurd h (by simp)

theorem bad_flags_iff {n : Nat} (h : n < 65536) : n &&& BAD_FLAGS = 0 ↔ n < 1024 := by
  have hlow : (n &&& BAD_FLAGS) % 2 ^ 10 = 0 := by
    rw [Nat.and_mod_two_pow]
    have hmask : BAD_FLAGS % 2 ^ 10 = 0 := rfl
    rw [hmask, Nat.and_zero]
  have hhigh : (n &&& BAD_FLAGS) >>> 10 = (n >>> 10) % 64 := by
    rw [Nat.shiftRight_and_distrib]
    have hmask : BAD_FLAGS >>> 10 = 2 ^ 6 - 1 := rfl
    rw [hmask, Nat.and_two_pow_sub_one_eq_mod]
  rw [Nat.shiftRight_eq_div_pow, Nat.shiftRight_eq_div_pow] at hhigh
  omega

theorem read16_whole {d : List UInt8} (h : (read16 d).2 ≠ [] ∨ (read16 d).1 ≠ 65535) :
    ∃ a b, d = a :: b :: (read16 d).2 ∧ (read16 d).1 = a.toNat * 256 + b.toNat := by
  by_cases hlong : d.length < 2
  · rw [read16_short hlong] at h
    exact h.elim (fun hfalse => absurd rfl hfalse) (fun hfalse => absurd rfl hfalse)
  · rcases d with _ | ⟨a, _ | ⟨b, rest⟩⟩
    · exact absurd (Nat.zero_lt_two) hlong
    · exact absurd (Nat.one_lt_two) hlong
    · exact ⟨a, b, by rw [read16_cons], by rw [read16_cons]⟩

theorem byte_pair_eq {a b : UInt8} {high low : Nat} (hhigh : high < 256) (hlow : low < 256)
    (h : a.toNat * 256 + b.toNat = high * 256 + low) :
    a = ofNat high ∧ b = ofNat low := by
  have ha := a.toNat_lt
  have hb := b.toNat_lt
  rw [← toNat_inj, ← toNat_inj, UInt8.toNat_ofNat', UInt8.toNat_ofNat']
  omega

/-- **An accepted header** is whole. -/
theorem accepted_iff (d : List UInt8) : (readHeader d).1.accepted = true ↔
    ∃ i₁ i₂ f₁ f₂ rest, d = i₁ :: i₂ :: f₁ :: f₂ :: 0 :: 1 :: 0 :: 0 :: 0 :: 0 :: 0 :: 0 :: rest ∧
      f₁ < 4 := by
  have hflag : ∀ f₁ f₂ : UInt8, f₁.toNat * 256 + f₂.toNat &&& BAD_FLAGS = 0 ↔ f₁ < 4 := by
    intro f₁ f₂
    have h₁ := f₁.toNat_lt
    have h₂ := f₂.toNat_lt
    have hfour : (4 : UInt8).toNat = 4 := rfl
    rw [bad_flags_iff (by omega), UInt8.lt_iff_toNat_lt]
    omega
  constructor
  · intro haccepted
    rw [readHeader] at haccepted
    dsimp only at haccepted
    simp only [Header.accepted, Bool.and_eq_true, decide_eq_true_eq] at haccepted
    obtain ⟨⟨⟨⟨hflags, hqd⟩, han⟩, hns⟩, har⟩ := haccepted
    obtain ⟨r₁, r₂, hd₅, hr⟩ := read16_whole (.inr (by rw [har]; decide))
    obtain ⟨n₁, n₂, hd₄, hn⟩ := read16_whole (.inl (by rw [hd₅]; exact cons_ne_nil _ _))
    obtain ⟨a₁, a₂, hd₃, ha⟩ := read16_whole (.inl (by rw [hd₄]; exact cons_ne_nil _ _))
    obtain ⟨q₁, q₂, hd₂, hq⟩ := read16_whole (.inl (by rw [hd₃]; exact cons_ne_nil _ _))
    obtain ⟨f₁, f₂, hd₁, hf⟩ := read16_whole (.inl (by rw [hd₂]; exact cons_ne_nil _ _))
    obtain ⟨i₁, i₂, hd₀, hi⟩ := read16_whole (.inl (by rw [hd₁]; exact cons_ne_nil _ _))
    rw [hr] at har
    rw [hn] at hns
    rw [ha] at han
    rw [hq] at hqd
    rw [hf] at hflags
    obtain ⟨rfl, rfl⟩ := @byte_pair_eq _ _ 0 0 (by decide) (by decide) har
    obtain ⟨rfl, rfl⟩ := @byte_pair_eq _ _ 0 0 (by decide) (by decide) hns
    obtain ⟨rfl, rfl⟩ := @byte_pair_eq _ _ 0 0 (by decide) (by decide) han
    obtain ⟨rfl, rfl⟩ := @byte_pair_eq _ _ 0 1 (by decide) (by decide) hqd
    refine ⟨i₁, i₂, f₁, f₂, (readHeader d).2, hd₀.trans ?_, (hflag f₁ f₂).1 hflags⟩
    rw [hd₁, hd₂, hd₃, hd₄, hd₅]
    rfl
  · rintro ⟨i₁, i₂, f₁, f₂, rest, rfl, hf⟩
    rw [readHeader]
    simp only [read16_cons, Header.accepted, Bool.and_eq_true, decide_eq_true_eq]
    exact ⟨⟨⟨⟨(hflag f₁ f₂).2 hf, rfl⟩, rfl⟩, rfl⟩, rfl⟩

theorem readHeader_cons (i₁ i₂ f₁ f₂ q₁ q₂ a₁ a₂ n₁ n₂ r₁ r₂ : UInt8) (rest : List UInt8) :
    readHeader (i₁ :: i₂ :: f₁ :: f₂ :: q₁ :: q₂ :: a₁ :: a₂ :: n₁ :: n₂ :: r₁ :: r₂ :: rest) =
      (⟨i₁.toNat * 256 + i₂.toNat, f₁.toNat * 256 + f₂.toNat, q₁.toNat * 256 + q₂.toNat,
        a₁.toNat * 256 + a₂.toNat, n₁.toNat * 256 + n₂.toNat, r₁.toNat * 256 + r₂.toNat⟩,
        rest) := by
  rw [readHeader]
  simp only [read16_cons]

/-! ## The name -/

variable {hostname name stack d : List UInt8} {i : Interfaces} {remote : Nat}

theorem begin_name (h : begin_ hostname = some name) :
    name = (cstr hostname).map tolower ∧ name.length ≤ 63 ∧ (0 : UInt8) ∉ name := by
  rw [begin_] at h
  split at h
  · cases h
  · rename_i hlong
    cases h
    refine ⟨rfl, ?_, ?_⟩
    · rw [length_map]
      exact Nat.le_of_not_lt hlong
    · intro hmem
      obtain ⟨b, hb, hzero⟩ := mem_map.1 hmem
      have hnonzero : b ≠ 0 := fun heq => zero_notMem_cstr hostname (heq ▸ hb)
      rw [tolower] at hzero
      split at hzero
      · rename_i hupper
        have hle := hupper.2
        rw [← toNat_inj, UInt8.toNat_add] at hzero
        rw [UInt8.le_iff_toNat_le] at hle
        have hninety : (90 : UInt8).toNat = 90 := rfl
        have hspace : (32 : UInt8).toNat = 32 := rfl
        have hzero' : (0 : UInt8).toNat = 0 := rfl
        omega
      · exact hnonzero hzero

/-- **The comparison**: a host name without NUL against what stands in the
array. -/
theorem strcmp_name {q : List UInt8} (hzero : (0 : UInt8) ∉ name)
    (hroom : name.length < q.length) :
    strcmp name (q.set name.length 0) = 0 ↔ q.take name.length = name := by
  rw [strcmp_eq_zero_iff, cstr_eq_self hzero, set_eq_take_append_cons_drop, if_pos hroom]
  have hlen : (q.take name.length).length = name.length := by grind
  constructor
  · intro heq
    have hnul : (q.take name.length ++ 0 :: q.drop (name.length + 1))[name.length]? = some 0 := by
      rw [getElem?_append_right hlen.le, hlen, Nat.sub_self]
      rfl
    have hcut := cstr_of_terminated hnul
    rw [← heq, take_append_of_le_length hlen.ge, take_of_length_le hlen.le] at hcut
    have hstart := cstr_start (q.take name.length)
    rw [← hcut] at hstart
    exact (hstart.eq_of_length hlen.symm).symm
  · intro heq
    rw [heq, cstr_append hzero, cstr_zero, append_nil]

theorem memcpy_room (hstack : stack.length = 64) (hshort : name.length ≤ 63) (rest : List UInt8) :
    name.length < (memcpy stack 0 (rest.take name.length)).length := by
  have hle : (rest.take name.length).length ≤ name.length := by grind
  rw [memcpy_length (by omega)]
  omega

/-! ## The datagrams that are responded to -/

theorem processPacket_cons {header : Header} {b : UInt8}
    {rest : List UInt8} (hread : readHeader d = (header, b :: rest)) :
    processPacket name stack i remote d =
      if header.accepted = false ∨ b.toNat ≠ name.length then none
      else
        let q := (memcpy stack 0 (rest.take name.length)).set name.length 0
        if strcmp name q ≠ 0 then none
        else
          let (qtype, t) := read16 (read (rest.drop name.length)).2
          let have_rr := qtype = 1 && (read16 t).1 = 1
          some (response header.id (q.take name.length) have_rr (i.address remote)) := by
  have hb : read8 (b :: rest) = (b.toNat, rest) := by
    have hlt := b.toNat_lt
    show ((((b.toNat : Int) % 256).toNat), rest) = _
    congr 1
    omega
  rw [processPacket, hread]
  dsimp only
  by_cases haccepted : header.accepted = false
  · rw [if_pos haccepted, if_pos (.inl haccepted)]
  · rw [if_neg haccepted, hb]
    by_cases hname : b.toNat = name.length
    · rw [if_neg (not_not.2 hname), if_neg (not_or.2 ⟨haccepted, not_not.2 hname⟩), hname]
      rfl
    · rw [if_pos hname, if_pos (.inr hname)]

/-- **The responses**: every datagram that is taken for a query gets one. -/
theorem processPacket_some_iff (hzero : (0 : UInt8) ∉ name) (hlen : name.length ≤ 63)
    (hstack : stack.length = 64) :
    (processPacket name stack i remote d).isSome = true ↔ Heard name stack d := by
  rw [Heard]
  rcases hread : readHeader d with ⟨header, t⟩
  rcases t with _ | ⟨b, rest⟩
  · have hnone : processPacket name stack i remote d = none := by
      rw [processPacket, hread]
      dsimp only
      by_cases haccepted : header.accepted = false
      · rw [if_pos haccepted]
      · rw [if_neg haccepted, if_pos]
        show 255 ≠ name.length
        omega
    rw [hnone]
    exact ⟨fun hfalse => Bool.noConfusion hfalse,
      fun ⟨_, _, _, hfalse, _⟩ => List.noConfusion rfl (heq_of_eq hfalse)⟩
  · rw [processPacket_cons hread]
    have hcompare := strcmp_name hzero (memcpy_room hstack hlen rest)
    constructor
    · intro hsome
      split at hsome
      · cases hsome
      · rename_i hguard
        obtain ⟨haccepted, hname⟩ := not_or.1 hguard
        dsimp only at hsome
        split at hsome
        · cases hsome
        · grind
    · rintro ⟨haccepted, b', rest', heq, hname, hsame⟩
      obtain ⟨rfl, rfl⟩ := cons.inj heq
      rw [if_neg (not_or.2 ⟨by rw [haccepted]; exact Bool.noConfusion, not_not.2 hname⟩)]
      dsimp only
      rw [if_neg (not_not.2 (hcompare.2 hsame))]
      rfl

/-! ## Queries -/

theorem four_bytes {l : List UInt8} (h : 4 ≤ l.length) :
    ∃ a b c e rest, l = a :: b :: c :: e :: rest := by
  rcases l with _ | ⟨a, _ | ⟨b, _ | ⟨c, _ | ⟨e, rest⟩⟩⟩⟩
  · exact absurd h (by decide)
  · exact absurd h (by simp)
  · exact absurd h (by simp)
  · exact absurd h (by simp)
  · exact ⟨a, b, c, e, rest, rfl⟩

/-- **The bytes of a query.** -/
theorem parseQuery_shape {q : Question} (h : parseQuery d = some q) :
    ∃ i₁ i₂ f₁ f₂ t₁ t₂ c₁ c₂ more, f₁ < 4 ∧
      d = i₁ :: i₂ :: f₁ :: f₂ :: 0 :: 1 :: 0 :: 0 :: 0 :: 0 :: 0 :: 0 ::
        ofNat q.label.length :: (q.label ++ 0 :: t₁ :: t₂ :: c₁ :: c₂ :: more) ∧
      q.label ≠ [] ∧ q.label.length ≤ 63 ∧
      q.id = [i₁, i₂] ∧ q.qtype = [t₁, t₂] ∧ q.qclass = [c₁, c₂] := by
  rw [parseQuery.eq_def] at h
  split at h
  · rename_i i₁ i₂ f₁ f₂ q₁ q₂ a₁ a₂ n₁ n₂ r₁ r₂ len rest
    split at h
    · rename_i hcond
      obtain ⟨hflags, hqd, hcounts, hpos, hle, hroot, hroom⟩ := hcond
      obtain ⟨front, hfront⟩ : ∃ front, rest.take len.toNat = front := ⟨_, rfl⟩
      have hlen : front.length = len.toNat := by grind
      obtain ⟨back, hback⟩ : ∃ back, rest.drop (len.toNat + 1) = back := ⟨_, rfl⟩
      have hrest : rest = front ++ 0 :: back := by
        have hdrop : rest.drop len.toNat = 0 :: back := by
          rw [← hback]
          exact drop_eq_getElem?_toList_append.trans (by rw [hroot]; rfl)
        rw [← hfront, ← hdrop, take_append_drop]
      have hfour : 4 ≤ back.length := by grind
      obtain ⟨t₁, t₂, c₁, c₂, more, rfl⟩ := four_bytes hfour
      have htail : rest.drop (len.toNat + 3) = c₁ :: c₂ :: more := by
        show rest.drop (len.toNat + 1 + 2) = _
        rw [← drop_drop, hback]
        rfl
      rw [hfront, hback, htail] at h
      cases h
      simp only [cons.injEq, and_true] at hqd hcounts
      obtain ⟨rfl, rfl⟩ := hqd
      obtain ⟨rfl, rfl, rfl, rfl, rfl, rfl⟩ := hcounts
      rw [UInt8.lt_iff_toNat_lt] at hpos
      rw [UInt8.le_iff_toNat_le] at hle
      refine ⟨i₁, i₂, f₁, f₂, t₁, t₂, c₁, c₂, more, hflags, ?_, ?_, ?_, rfl, rfl, rfl⟩
      · rw [hrest, hlen, UInt8.ofNat_toNat]
      · exact ne_nil_of_length_pos (hlen ▸ hpos)
      · rw [hlen]
        exact hle
    · cases h
  · cases h

/-- **A query is taken for one** where its label is the host name as it is. -/
theorem heard_query (hlen : name.length ≤ 63) (hstack : stack.length = 64) {q : Question}
    (h : parseQuery d = some q) : Heard name stack d ↔ q.label = name := by
  obtain ⟨i₁, i₂, f₁, f₂, t₁, t₂, c₁, c₂, more, hflags, hd, -, hshort, -⟩ := parseQuery_shape h
  have haccepted : (readHeader d).1.accepted = true :=
    (accepted_iff d).2 ⟨i₁, i₂, f₁, f₂, _, hd, hflags⟩
  have hrest : (readHeader d).2 = ofNat q.label.length ::
      (q.label ++ 0 :: t₁ :: t₂ :: c₁ :: c₂ :: more) := by
    rw [hd, readHeader_cons]
  have hbyte : (ofNat q.label.length).toNat = q.label.length :=
    UInt8.toNat_ofNat_of_lt' (Nat.lt_of_le_of_lt hshort (by decide))
  constructor
  · rintro ⟨-, len, rest, hread, hname, hsame⟩
    rw [hrest] at hread
    obtain ⟨rfl, rfl⟩ := cons.inj hread
    rw [hbyte] at hname
    rw [← hname, take_left, memcpy_zero_take (by omega)] at hsame
    exact hsame
  · rintro rfl
    refine ⟨haccepted, _, _, hrest, hbyte, ?_⟩
    rw [take_left]
    exact memcpy_zero_take (by omega)

theorem join_pair_eq_one (a b : UInt8) : a.toNat * 256 + b.toNat = 1 ↔ [a, b] = [0, 1] := by
  constructor
  · intro h
    obtain ⟨rfl, rfl⟩ := @byte_pair_eq a b 0 1 (by decide) (by decide) h
    rfl
  · intro h
    cases h
    rfl

/-- **The response to a query** with the host name as it is. -/
theorem processPacket_query (hzero : (0 : UInt8) ∉ name) (hlen : name.length ≤ 63)
    (hstack : stack.length = 64) {q : Question} (h : parseQuery d = some q)
    (hname : q.label = name) :
    processPacket name stack i remote d = some (q.id ++ [0x80, 0] ++
      [0, 1, 0, if q.address then 1 else 0, 0, 0, 0, 0] ++ labelBytes q.label ++ [0, 1] ++ [0, 1] ++
        if q.address then answerBytes q.label (i.address remote) else []) := by
  obtain ⟨i₁, i₂, f₁, f₂, t₁, t₂, c₁, c₂, more, hflags, hd, -, hshort, hid, htype, hclass⟩ :=
    parseQuery_shape h
  have haccepted : (readHeader d).1.accepted = true :=
    (accepted_iff d).2 ⟨i₁, i₂, f₁, f₂, _, hd, hflags⟩
  rw [hd, readHeader_cons] at haccepted
  have hbyte : (ofNat q.label.length).toNat = q.label.length :=
    UInt8.toNat_ofNat_of_lt' (Nat.lt_of_le_of_lt hshort (by decide))
  have hread := readHeader_cons i₁ i₂ f₁ f₂ 0 1 0 0 0 0 0 0
    (ofNat q.label.length :: (q.label ++ 0 :: t₁ :: t₂ :: c₁ :: c₂ :: more))
  rw [← hd] at hread
  subst hname
  have hmem : (memcpy stack 0 q.label).take q.label.length = q.label := memcpy_zero_take (by omega)
  have hroom := @memcpy_room q.label stack hstack hlen q.label
  rw [take_length] at hroom
  rw [processPacket_cons hread, if_neg (by rw [haccepted, hbyte]; simp), take_left,
    drop_left]
  dsimp only
  rw [if_neg (not_not.2 ((strcmp_name hzero hroom).2 hmem)), take_set_of_le le_rfl, hmem]
  have haddress : (decide (t₁.toNat * 256 + t₂.toNat = 1) &&
      decide (c₁.toNat * 256 + c₂.toNat = 1)) = decide q.address := by
    rw [← Bool.decide_and]
    refine decide_eq_decide.2 ?_
    show _ ↔ q.qtype = [0, 1] ∧ q.qclass = [0, 1]
    rw [htype, hclass, join_pair_eq_one, join_pair_eq_one]
  have hidbytes : Dns.shortBytes (i₁.toNat * 256 + i₂.toNat) = q.id := by
    rw [hid]
    exact (Dns.shortBytes_of_short (by omega)).symm
  show some (response _ _ (decide ((read16 (t₁ :: t₂ :: c₁ :: c₂ :: more)).1 = 1) &&
    decide ((read16 (read16 (t₁ :: t₂ :: c₁ :: c₂ :: more)).2).1 = 1)) _) = _
  rw [read16_cons, read16_cons, haddress, response, hidbytes]
  simp

theorem answers_iff {q : Question} (htype : q.qtype.length = 2)
    (hclass : q.qclass.length = 2) (ip : Nat) :
    Answers q (q.id ++ [0x80, 0] ++ [0, 1, 0, if q.address then 1 else 0, 0, 0, 0, 0] ++
      labelBytes q.label ++ [0, 1] ++ [0, 1] ++ if q.address then answerBytes q.label ip else []) ↔
      q.address := by
  constructor
  · rintro ⟨flags, back, heq, hflags, -⟩
    simp only [append_assoc] at heq
    have hbehind := (append_inj (append_cancel_left heq) hflags.symm).2
    have hquestion := append_cancel_left (append_cancel_left hbehind)
    obtain ⟨ht, hbehind⟩ := append_inj hquestion htype.symm
    exact ⟨ht.symm, (append_inj hbehind hclass.symm).1.symm⟩
  · intro haddress
    obtain ⟨ht, hc⟩ := haddress
    refine ⟨[0x80, 0], answerBytes q.label ip, ?_, rfl, ?_⟩
    · rw [ht, hc, if_pos ⟨ht, hc⟩, if_pos ⟨ht, hc⟩]
    · exact ⟨fun hnil => List.noConfusion rfl (heq_of_eq hnil), fun hnot => absurd ⟨ht, hc⟩ hnot⟩

theorem tolower_tolower (b : UInt8) : tolower (tolower b) = tolower b := by
  unfold tolower
  grind

/-- **The datagrams that are answered as they are meant.** -/
theorem answered_iff (hbegin : begin_ hostname = some name) (hstack : stack.length = 64) :
    Answered hostname d (processPacket name stack i remote d) ↔ Suited hostname name stack d := by
  obtain ⟨hlower, hlen, hzero⟩ := begin_name hbegin
  have hfor : ∀ q : Question, q.label = name → q.For hostname := by
    intro q hq
    rw [Question.For, hq, hlower, List.map_map]
    exact List.map_congr_left fun b _ => tolower_tolower b
  have hreply : ∀ q, parseQuery d = some q → q.label = name → ∀ r,
      processPacket name stack i remote d = some r → (Answers q r ↔ q.address) := by
    intro q hq hlabel r hr
    obtain ⟨_, _, _, _, _, _, _, _, _, -, -, -, -, -, htype, hclass⟩ := parseQuery_shape hq
    rw [processPacket_query hzero hlen hstack hq hlabel] at hr
    cases hr
    exact answers_iff (by rw [htype]; rfl) (by rw [hclass]; rfl) _
  constructor
  · rintro ⟨hsent, hsame⟩
    rw [processPacket_some_iff hzero hlen hstack] at hsent
    by_cases hheard : Heard name stack d
    · obtain ⟨q, hq, -⟩ := hsent.1 hheard
      have hlabel := (heard_query hlen hstack hq).1 hheard
      have hr := @processPacket_query _ _ _ i remote hzero hlen hstack _ hq hlabel
      exact .inl ⟨q, hq, hlabel, (hreply q hq hlabel _ hr).1 (hsame _ q hr hq)⟩
    · exact .inr ⟨fun hquery => hheard (hsent.2 hquery), hheard⟩
  · rintro (⟨q, hq, hlabel, haddress⟩ | ⟨hquery, hheard⟩)
    · refine ⟨?_, ?_⟩
      · rw [processPacket_some_iff hzero hlen hstack]
        exact ⟨fun _ => ⟨q, hq, hfor q hlabel⟩, fun _ => (heard_query hlen hstack hq).2 hlabel⟩
      · intro r q' hr hq'
        obtain rfl := Option.some.inj (hq.symm.trans hq')
        exact (hreply q hq hlabel r hr).2 haddress
    · have hnone : processPacket name stack i remote d = none := by
        rw [← @processPacket_some_iff _ _ _ i remote hzero hlen hstack] at hheard
        exact Option.not_isSome_iff_eq_none.1 hheard
      rw [hnone]
      exact ⟨⟨fun hfalse => Bool.noConfusion hfalse, fun hfalse => absurd hfalse hquery⟩,
        fun r q hfalse => Option.noConfusion rfl (heq_of_eq hfalse)⟩

def query (label : List UInt8) : List UInt8 :=
  [1, 2, 0, 0, 0, 1, 0, 0, 0, 0, 0, 0] ++ labelBytes label ++ [0, 1, 0, 1]

theorem answered_ab : Answered [65, 98] (query [97, 98])
    (processPacket [97, 98] (List.replicate 64 0) ⟨none, 0⟩ 0 (query [97, 98])) :=
  (answered_iff rfl rfl).2
    (.inl ⟨⟨[1, 2], [97, 98], [0, 1], [0, 1]⟩, by decide, rfl, rfl, rfl⟩)

/-- A query in capital letters is not answered. -/
theorem not_answered : ¬ ∀ hostname name stack d : List UInt8, ∀ (i : Interfaces) (remote : Nat),
    begin_ hostname = some name → stack.length = 64 →
      Answered hostname d (processPacket name stack i remote d) := by
  intro hall
  have hanswered :=
    hall [97, 98] [97, 98] (List.replicate 64 0) (query [65, 66]) ⟨none, 0⟩ 0 rfl rfl
  have hsome := hanswered.sent.2 ⟨⟨[1, 2], [65, 66], [0, 1], [0, 1]⟩, by decide, rfl⟩
  exact absurd hsome (by decide)

end Llmnr
