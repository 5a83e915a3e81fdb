import RalioFirmware.Net.AddressText
import RalioFirmware.Basis.Store

/-!
# NetBIOS names

A name goes over the wire with two letters for each of its bytes.  `_getnbname`
puts the letters together again until a NUL or the length that the packet gives,
into an array for sixteen characters; `begin` takes host names one byte longer
than its array has room for, and the answer to a node status query has room for
fifteen.

* `getnbname_eq`: what is decoded, and when it stays inside;
* `getnbname_makenbname`: the round trip of a name;
* `kept_iff`: exactly when the handling of a packet stays inside the arrays. -/

namespace NetBios

open CString Bytes List

/-! ## The names -/

/-- The loop of `_getnbname`, with the bytes that may be read from `nbname` on;
nothing comes of a read behind them. -/
def getnbnameLoop (maxlen : UInt8) : List UInt8 → List UInt8 → Nat → UInt8 → Option (List UInt8)
  | [], _, _, _ => none
  | x :: nbname, name, n, c =>
    if x ≠ 0 ∧ c < maxlen then
      let b := (x - 65) <<< 4
      match nbname with
      | [] => none
      | y :: rest =>
        if y ≠ 0 then
          (store name n (b ||| (y - 65))).bind fun name =>
            getnbnameLoop maxlen rest name (n + 1) (c + 1 + 1)
        else
          (store name n b).bind fun name => getnbnameLoop maxlen (y :: rest) name (n + 1) (c + 1)
    else store name n 0

def getnbname (nbname name : List UInt8) (maxlen : UInt8) : Option (List UInt8) :=
  getnbnameLoop maxlen nbname name 0 0

/-- The loop of `_makenbname`: what is written for the characters of a name, and
blanks behind its end. -/
def makenbnameLoop : Nat → List UInt8 → List UInt8
  | 0, _ => []
  | n + 1, name =>
    let (b, name) := if name.headD 0 ≠ 0 then (name.headD 0, name.tail) else (32, name)
    (b >>> 4 + 65) :: ((b &&& 15) + 65) :: makenbnameLoop n name

/-- `_makenbname`: `c` goes up to `outlen - 2` in steps of two. -/
def makenbname (name : List UInt8) (outlen : Nat) : List UInt8 :=
  makenbnameLoop ((outlen - 1) / 2) name ++ [65, 65, 0]

/-! ## The responder -/

def NBNS_MAX_HOSTNAME_LEN : Nat := 16

/-- `ESP8266NetBIOS`: whether there is a socket, and the array of the name. -/
structure Responder where
  pcb : Bool
  name : List UInt8
  size : name.length = NBNS_MAX_HOSTNAME_LEN + 1

/-- The copy of a host name in capital letters, with its NUL. -/
def copyUpper : List UInt8 → Nat → List UInt8 → Option (List UInt8)
  | [], i, name => store name i 0
  | ch :: rest, i, name => (store name i (toupper ch)).bind (copyUpper rest (i + 1))

theorem copyUpper_length {hostname name name' : List UInt8} {i : Nat}
    (h : copyUpper hostname i name = some name') : name'.length = name.length := by
  induction hostname generalizing i name with
  | nil => exact store_length h
  | cons ch rest ih =>
    obtain ⟨next, hstore, hrest⟩ := Option.bind_eq_some_iff.1 h
    rw [ih hrest, store_length hstore]

/-- `begin`, with the result of `udp_bind`; `sizeof(_name)` is 17. -/
def begin_ (bound : Bool) (hostname : List UInt8) (r : Responder) : Option (Bool × Responder) :=
  if strlen hostname > NBNS_MAX_HOSTNAME_LEN + 1 then some (false, r)
  else
    match h : copyUpper (cstr hostname) 0 r.name with
    | none => none
    | some name =>
      some (r.pcb || bound, ⟨r.pcb || bound, name, (copyUpper_length h).trans r.size⟩)

def nameAnswer (ip : Nat) (r : Responder) (data : List UInt8) : List UInt8 :=
  data.take 2 ++ [0x85, 0, 0, 0, 0, 1, 0, 0, 0, 0, 32] ++ makenbname r.name 32 ++
    [0, 0x20, 0, 1, 0x00, 0x04, 0x93, 0xE0, 0, 6, 0, 0] ++ Word.le32 ip

/-- `memcpy` to the front of an array; nothing comes of a copy that is longer. -/
def copyInto (array src : List UInt8) : Option (List UInt8) :=
  if src.length ≤ array.length then some (memcpy array 0 src) else none

def statusAnswer (r : Responder) (data : List UInt8) : Option (List UInt8) :=
  (copyInto (List.replicate 15 0x20) (cstr r.name)).map fun nname =>
    data.take 2 ++ [0x84, 0, 0, 0, 0, 1, 0, 0, 0, 0] ++ (data.drop 12).take 34 ++
      [0, 0x21, 0, 1, 0, 0, 0, 0, 0, 19, 1] ++ nname ++ [0, 0x04, 0x00]

/-- A `pbuf` that is received, and whether there is memory for an answer to it. -/
structure Pbuf where
  payload : List UInt8
  alloc : Bool

/-- `sizeof(struct NBNSQUESTION)` bytes, without the response bit. -/
def isQuestion (data : List UInt8) : Bool := 50 ≤ data.length && data.getD 2 0 &&& 0x80 = 0

def cutBlank (name : List UInt8) : List UInt8 :=
  match strchr 32 name with
  | some str => name.set str 0
  | none => name

/-- The body of the loop of `_recv`, with what the stack has where `name` comes
to stand: the answer that is sent.  Nothing comes of a read or a write outside. -/
def recvOne (ip : Nat) (stack : List UInt8) (r : Responder) (pb : Pbuf) :
    Option (Option (List UInt8)) :=
  if isQuestion pb.payload = false then some none
  else
    (getnbname (pb.payload.drop 13) stack (pb.payload.getD 12 0)).bind fun name =>
      let name := cutBlank name
      if strcmp name r.name = 0 then
        some (if pb.alloc then some (nameAnswer ip r pb.payload) else none)
      else if strcmp name [42] = 0 then
        (statusAnswer r pb.payload).map fun answer => if pb.alloc then some answer else none
      else some none

def recv (ip : Nat) (stack : List UInt8) (r : Responder) :
    List Pbuf → Option (List (Option (List UInt8)))
  | [] => some []
  | pb :: rest => (recvOne ip stack r pb).bind fun answer => (recv ip stack r rest).map
      (answer :: ·)

/-! ## What a packet asks for -/

/-- Two letters for each byte; the low half of the last one may be missing. -/
def letters : List UInt8 → List UInt8
  | [] => []
  | [x] => [(x - 65) <<< 4]
  | x :: y :: rest => ((x - 65) <<< 4 ||| (y - 65)) :: letters rest

/-- The letters that are decoded: as many as the length says, rounded up to an
even number, and none behind a NUL. -/
def taken (maxlen : UInt8) (field : List UInt8) : List UInt8 :=
  (cstr field).take (2 * ((maxlen.toNat + 1) / 2))

/-- The name that a packet asks for, up to a NUL or a blank. -/
def asked (data : List UInt8) : List UInt8 :=
  (letters (taken (data.getD 12 0) (data.drop 13))).takeWhile fun b => b ≠ 0 ∧ b ≠ 32

/-- The encoded name ends within the 33 bytes that are for it. -/
def Ends (data : List UInt8) : Prop := data.getD 12 0 ≤ 32 ∨ 0 ∈ (data.drop 13).take 33

def OwnQuery (r : Responder) (data : List UInt8) : Prop :=
  isQuestion data = true ∧ data.getD 12 0 = 32 ∧ (data.drop 13).take 33 = makenbname r.name 32

/-- A host name is taken and a packet is handled as it is meant. -/
structure Kept (bound : Bool) (ip : Nat) (stack hostname : List UInt8) (r : Responder)
    (packet : List Pbuf) : Prop where
  begin_inside : (begin_ bound hostname r).isSome = true
  recv_inside : ∀ ok r', begin_ bound hostname r = some (ok, r') →
    (recv ip stack r' packet).isSome = true
  round_trip : ∀ name : List UInt8, name.length ≤ 15 → (0 : UInt8) ∉ name → (32 : UInt8) ∉ name →
    ∃ array, getnbname (makenbname name 32) stack 32 = some array ∧
      cstr array = name ++ List.replicate (15 - name.length) 32
  own_query : ∀ ok r', begin_ bound hostname r = some (ok, r') → strlen hostname ≤ 15 →
    (32 : UInt8) ∉ cstr hostname → ∀ pb ∈ packet, OwnQuery r' pb.payload →
      recvOne ip stack r' pb =
        some (if pb.alloc then some (nameAnswer ip r' pb.payload) else none)

/-- The host name leaves room for its NUL, and every question in the packet ends
within its field and, for a longer host name than fifteen characters, does not
ask for `*`. -/
structure Suited (hostname : List UInt8) (packet : List Pbuf) : Prop where
  room : strlen hostname ≤ 16
  ends : ∀ pb ∈ packet, isQuestion pb.payload = true → Ends pb.payload
  status : ∀ pb ∈ packet, isQuestion pb.payload = true → strlen hostname ≤ 15 ∨
    asked pb.payload ≠ [42]

/-! ## Copying and decoding -/

/-- **The copy of a host name** stays inside if there is room for its NUL. -/
theorem copyUpper_eq (hostname : List UInt8) (i : Nat) (name : List UInt8) :
    copyUpper hostname i name =
      if i + hostname.length < name.length then
        some (memcpy name i (hostname.map toupper ++ [0]))
      else none := by
  induction hostname generalizing i name with
  | nil => exact store_eq name i 0
  | cons ch rest ih =>
    rw [copyUpper, store_bind, length_cons]
    split
    · rename_i hroom
      rw [ih, length_set, memcpy_set hroom, Nat.add_right_comm, Nat.add_assoc]
      rfl
    · rw [if_neg (by omega)]

theorem getnbnameLoop_pair {maxlen x y c : UInt8} {rest name : List UInt8} {n : Nat}
    (hguard : x ≠ 0 ∧ c < maxlen) (hy : y ≠ 0) :
    getnbnameLoop maxlen (x :: y :: rest) name n c =
      (store name n ((x - 65) <<< 4 ||| (y - 65))).bind fun name =>
        getnbnameLoop maxlen rest name (n + 1) (c + 1 + 1) := by
  rw [getnbnameLoop.eq_def]
  dsimp only
  rw [if_pos hguard, if_pos hy]

theorem getnbnameLoop_last {maxlen x c : UInt8} {rest name : List UInt8} {n : Nat}
    (hguard : x ≠ 0 ∧ c < maxlen) :
    getnbnameLoop maxlen (x :: 0 :: rest) name n c =
      (store name n ((x - 65) <<< 4)).bind fun name => store name (n + 1) 0 := by
  rw [getnbnameLoop.eq_def]
  dsimp only
  rw [if_pos hguard, if_neg (by decide)]
  refine congrArg _ (funext fun name => ?_)
  rw [getnbnameLoop.eq_def]
  dsimp only
  rw [if_neg (fun hfalse => hfalse.1 rfl)]

/-- **What is decoded**: the letters up to a NUL or the length, if there is room
for the characters and a NUL. -/
theorem getnbnameLoop_eq (maxlen : UInt8) (nbname name : List UInt8) (n : Nat) (c : UInt8)
    (hname : name.length = 17) (hn : n ≤ 17) (hc : c.toNat = 2 * n)
    (hroom : 33 ≤ nbname.length + 2 * n) :
    getnbnameLoop maxlen nbname name n c =
      let t := (cstr nbname).take (2 * ((maxlen.toNat + 1) / 2) - 2 * n)
      if n + (t.length + 1) / 2 ≤ 16 then some (memcpy name n (letters t ++ [0])) else none := by
  induction nbname, name, n, c using getnbnameLoop.induct maxlen with
  | case1 name n c =>
    dsimp only
    rw [if_neg (by rw [length_nil] at hroom; omega)]
    rfl
  | case2 x name n c hguard =>
    obtain ⟨hx, hlt⟩ := hguard
    rw [UInt8.lt_iff_toNat_lt] at hlt
    rw [length_singleton] at hroom
    dsimp only
    have hone : ((cstr [x]).take (2 * ((maxlen.toNat + 1) / 2) - 2 * n)).length = 1 := by
      rw [cstr_cons hx, cstr_nil, length_take, length_singleton]
      omega
    rw [hone, if_neg (by omega), getnbnameLoop.eq_def]
    dsimp only
    rw [if_pos ⟨hx, UInt8.lt_iff_toNat_lt.2 hlt⟩]
  | case3 x name n c hguard y rest hy ih =>
    have ⟨hx, hlt⟩ := hguard
    rw [UInt8.lt_iff_toNat_lt] at hlt
    have hcc : (c + 1 + 1).toNat = 2 * (n + 1) := by
      have hone : (1 : UInt8).toNat = 1 := rfl
      rw [UInt8.toNat_add, UInt8.toNat_add, hc, hone]
      omega
    obtain ⟨m, hm⟩ : ∃ m, 2 * ((maxlen.toNat + 1) / 2) - 2 * n = m + 1 + 1 :=
      ⟨2 * ((maxlen.toNat + 1) / 2) - 2 * (n + 1), by omega⟩
    have hm' : 2 * ((maxlen.toNat + 1) / 2) - 2 * (n + 1) = m := by omega
    rw [length_cons, length_cons] at hroom
    rw [getnbnameLoop_pair hguard hy, store_bind, hname, hm, cstr_cons hx, cstr_cons hy]
    dsimp only [take_succ_cons, letters, length_cons]
    split
    · rename_i hfit
      rw [ih _ (by rw [length_set, hname]) (by omega) hcc (by omega), hm']
      dsimp only
      rw [memcpy_set (by omega), cons_append]
      refine if_congr ?_ rfl rfl
      omega
    · rw [if_neg (by omega)]
  | case4 x name n c hguard y rest hy ih =>
    have ⟨hx, hlt⟩ := hguard
    obtain rfl : y = 0 := not_not.1 hy
    rw [UInt8.lt_iff_toNat_lt] at hlt
    obtain ⟨m, hm⟩ : ∃ m, 2 * ((maxlen.toNat + 1) / 2) - 2 * n = m + 1 :=
      ⟨2 * ((maxlen.toNat + 1) / 2) - 2 * n - 1, by omega⟩
    rw [getnbnameLoop_last hguard, store_bind, hname, hm, cstr_cons hx, cstr_zero,
      take_succ_cons, take_nil]
    dsimp only [letters, length_cons, length_nil]
    split
    · rename_i hfit
      rw [store_eq, length_set, hname, memcpy_set (by omega)]
      refine if_congr ?_ rfl rfl
      omega
    · rw [if_neg (by omega)]
  | case5 x nbname name n c hguard =>
    have hnil : (cstr (x :: nbname)).take (2 * ((maxlen.toNat + 1) / 2) - 2 * n) = [] := by
      by_cases hx : x = 0
      · rw [hx, cstr_zero, take_nil]
      · have hle := not_and.1 hguard hx
        rw [UInt8.lt_iff_toNat_lt] at hle
        rw [show 2 * ((maxlen.toNat + 1) / 2) - 2 * n = 0 by omega, take_zero]
    rw [getnbnameLoop.eq_def]
    dsimp only
    rw [if_neg hguard, hnil, store_eq, hname]
    refine if_congr ?_ rfl rfl
    rw [length_nil]
    omega

/-- **What is decoded** in an array for sixteen characters. -/
theorem getnbname_eq {nbname name : List UInt8} (maxlen : UInt8) (hname : name.length = 17)
    (hroom : 33 ≤ nbname.length) :
    getnbname nbname name maxlen =
      if (taken maxlen nbname).length ≤ 32 then
        some (memcpy name 0 (letters (taken maxlen nbname) ++ [0]))
      else none := by
  rw [getnbname, getnbnameLoop_eq maxlen nbname name 0 0 hname (by omega) rfl (by omega)]
  dsimp only
  rw [Nat.mul_zero, Nat.sub_zero, ← taken]
  refine if_congr ?_ rfl rfl
  omega

/-! ## Staying inside -/

theorem cstr_length_le_iff {field : List UInt8} (h : 33 ≤ field.length) :
    (cstr field).length ≤ 32 ↔ (0 : UInt8) ∈ field.take 33 := by
  constructor
  · intro hle
    by_contra hmem
    have hlong : field = field.take 33 ++ field.drop 33 := (take_append_drop 33 field).symm
    rw [hlong, cstr_append hmem, length_append, length_take] at hle
    omega
  · intro hmem
    obtain ⟨i, hi⟩ := mem_iff_getElem?.1 hmem
    rw [getElem?_take] at hi
    split at hi
    · exact Nat.le_trans (cstr_length_le hi) (by omega)
    · cases hi

/-- **The decoding stays inside** where the encoded name ends within its field. -/
theorem ends_iff {data : List UInt8} (h : isQuestion data = true) :
    Ends data ↔ (taken (data.getD 12 0) (data.drop 13)).length ≤ 32 := by
  rw [isQuestion, Bool.and_eq_true, decide_eq_true_eq] at h
  have hroom : 33 ≤ (data.drop 13).length := by
    rw [length_drop]
    omega
  have hsize : (32 : UInt8).toNat = 32 := rfl
  rw [Ends, ← cstr_length_le_iff hroom, taken, length_take, UInt8.le_iff_toNat_le]
  omega

theorem cstr_cutBlank (name : List UInt8) :
    cstr (cutBlank name) = (cstr name).takeWhile fun b => b ≠ 32 := by
  induction name with
  | nil => rfl
  | cons b rest ih =>
    rw [cutBlank] at ih ⊢
    rw [strchr]
    by_cases hblank : b = 32
    · rw [if_pos hblank, hblank, cstr_cons (by decide)]
      rfl
    · rw [if_neg hblank]
      by_cases hnul : b = 0
      · rw [if_pos hnul, hnul, cstr_zero]
        rfl
      · rw [if_neg hnul, cstr_cons hnul, takeWhile_cons_of_pos (by simpa using hblank), ← ih]
        rcases strchr 32 rest with _ | i
        · exact cstr_cons hnul rest
        · exact cstr_cons hnul (rest.set i 0)

theorem cstr_name (data stack : List UInt8) :
    cstr (cutBlank (memcpy stack 0 (letters (taken (data.getD 12 0) (data.drop 13)) ++ [0]))) =
      asked data := by
  have hcstr : ∀ l back : List UInt8, cstr (l ++ 0 :: back) = cstr l := by
    intro l back
    rw [cstr_of_terminated (n := l.length), take_left]
    rw [getElem?_append_right (Nat.le_refl _), Nat.sub_self]
    rfl
  rw [cstr_cutBlank, memcpy, take_zero, nil_append, append_assoc,
    singleton_append, hcstr, cstr, takeWhile_takeWhile, asked]
  congr 1
  funext b
  simp [and_comm]

variable {stack hostname : List UInt8} {r : Responder} {pb : Pbuf} {ip : Nat}

/-- **A question** that is received. -/
theorem recvOne_question (hstack : stack.length = 17) (h : isQuestion pb.payload = true) :
    recvOne ip stack r pb =
      if (taken (pb.payload.getD 12 0) (pb.payload.drop 13)).length ≤ 32 then
        if asked pb.payload = cstr r.name then
          some (if pb.alloc then some (nameAnswer ip r pb.payload) else none)
        else if asked pb.payload = [42] then
          (statusAnswer r pb.payload).map fun answer => if pb.alloc then some answer else none
        else some none
      else none := by
  have hroom : 33 ≤ (pb.payload.drop 13).length := by
    rw [isQuestion, Bool.and_eq_true, decide_eq_true_eq] at h
    rw [length_drop]
    omega
  rw [recvOne, if_neg (by rw [h]; exact Bool.noConfusion), getnbname_eq _ hstack hroom]
  split
  · dsimp only [Option.bind_some]
    refine if_congr ?_ rfl (if_congr ?_ rfl rfl)
    · rw [strcmp_eq_zero_iff, cstr_name]
    · rw [strcmp_eq_zero_iff, cstr_name]
      rfl
  · rfl

theorem statusAnswer_isSome (data : List UInt8) :
    (statusAnswer r data).isSome = true ↔ (cstr r.name).length ≤ 15 := by
  rw [statusAnswer, copyInto, Option.isSome_map, length_replicate]
  split
  · exact iff_of_true rfl ‹_›
  · exact iff_of_false Bool.noConfusion ‹_›

/-- **One pbuf** is handled inside the arrays. -/
theorem recvOne_isSome (hstack : stack.length = 17) :
    (recvOne ip stack r pb).isSome = true ↔ (isQuestion pb.payload = true →
      Ends pb.payload ∧ ((cstr r.name).length ≤ 15 ∨ asked pb.payload ≠ [42])) := by
  by_cases hquestion : isQuestion pb.payload = true
  · rw [recvOne_question hstack hquestion, ends_iff hquestion]
    split
    · rename_i hends
      split
      · rename_i hown
        refine iff_of_true rfl fun _ => ⟨hends, ?_⟩
        rw [← hown]
        by_cases hstar : asked pb.payload = [42]
        · exact .inl (by rw [hstar]; decide)
        · exact .inr hstar
      · split
        · rename_i hstar
          rw [Option.isSome_map, statusAnswer_isSome]
          exact ⟨fun hshort _ => ⟨hends, .inl hshort⟩,
            fun h => (h hquestion).2.resolve_right (not_not.2 hstar)⟩
        · rename_i hstar
          exact iff_of_true rfl fun _ => ⟨hends, .inr hstar⟩
    · grind
  · rw [recvOne, if_pos (by simpa using hquestion)]
    exact iff_of_true rfl fun h => absurd h hquestion

/-- **The chain of a packet.** -/
theorem recv_isSome (packet : List Pbuf) :
    (recv ip stack r packet).isSome = true ↔
      ∀ pb ∈ packet, (recvOne ip stack r pb).isSome = true := by
  induction packet with
  | nil => exact iff_of_true rfl fun pb hfalse => absurd hfalse not_mem_nil
  | cons pb rest ih =>
    rw [forall_mem_cons, ← ih, recv]
    rcases recvOne ip stack r pb with _ | answer
    · exact iff_of_false Bool.noConfusion fun h => Bool.noConfusion h.1
    · grind

/-! ## The host name -/

theorem begin_eq {bound : Bool} (h : strlen hostname ≤ 17) :
    begin_ bound hostname r =
      (copyUpper (cstr hostname) 0 r.name).pmap (fun name hname =>
        (r.pcb || bound, ⟨r.pcb || bound, name, hname.trans r.size⟩))
        fun _ heq => copyUpper_length heq := by
  have hle : ¬ strlen hostname > NBNS_MAX_HOSTNAME_LEN + 1 := Nat.not_lt.2 h
  rw [begin_, if_neg hle]
  split
  · rename_i heq
    simp [heq]
  · rename_i name heq
    simp [heq]

/-- **A host name** stays inside its array if there is room for the NUL. -/
theorem begin_isSome {bound : Bool} (h : strlen hostname ≤ 17) :
    (begin_ bound hostname r).isSome = true ↔ strlen hostname ≤ 16 := by
  rw [begin_eq h, Option.isSome_pmap, copyUpper_eq, r.size, Nat.zero_add]
  show _ ↔ (cstr hostname).length ≤ 16
  split
  · rename_i hroom
    exact iff_of_true rfl (Nat.le_of_lt_succ hroom)
  · rename_i hroom
    exact iff_of_false Bool.noConfusion fun hle => hroom (Nat.lt_succ_of_le hle)

theorem toupper_spec (b : UInt8) :
    (toupper b = 0 → b = 0) ∧ (toupper b = 32 → b = 32) := by
  unfold toupper
  grind

theorem begin_name {bound ok : Bool} {r' : Responder} (h : strlen hostname ≤ 17)
    (hbegin : begin_ bound hostname r = some (ok, r')) :
    cstr r'.name = (cstr hostname).map toupper := by
  rw [begin_eq h, Option.pmap_eq_some_iff] at hbegin
  obtain ⟨name, hname, hcopy, heq⟩ := hbegin
  cases heq
  show cstr name = _
  rw [copyUpper_eq] at hcopy
  split at hcopy
  · cases hcopy
    have hzero : (0 : UInt8) ∉ (cstr hostname).map toupper := by
      intro hmem
      obtain ⟨b, hb, hnul⟩ := mem_map.1 hmem
      exact zero_notMem_cstr hostname ((toupper_spec b).1 hnul ▸ hb)
    rw [memcpy, take_zero, nil_append, append_assoc, singleton_append,
      cstr_append hzero, cstr_zero, append_nil]
  · cases hcopy

/-! ## The round trip -/

def pair (b : UInt8) : List UInt8 := [b >>> 4 + 65, (b &&& 15) + 65]

theorem pair_spec (b : UInt8) : ∃ x y, pair b = [x, y] ∧ x ≠ 0 ∧ y ≠ 0 ∧
    (x - 65) <<< 4 ||| (y - 65) = b := by
  refine ⟨_, _, rfl, ?_⟩
  revert b
  exact Net.IPAddress.of_bytes (by decide +kernel)

/-- **What is encoded**: the name with blanks behind it. -/
theorem makenbnameLoop_eq (n : Nat) (mem : List UInt8) :
    makenbnameLoop n mem =
      ((cstr mem).take n ++ List.replicate (n - (cstr mem).length) 32).flatMap pair := by
  induction n generalizing mem with
  | zero => rw [Nat.zero_sub, take_zero]; rfl
  | succ n ih =>
    rw [makenbnameLoop]
    rcases mem with _ | ⟨b, rest⟩
    · rw [if_neg (by decide)]
      dsimp only
      rw [ih, cstr_nil, take_nil, take_nil, length_nil, Nat.sub_zero, Nat.sub_zero,
        replicate_succ]
      rfl
    · by_cases hb : b = 0
      · rw [hb, headD_cons, if_neg (not_not.2 rfl)]
        dsimp only
        rw [ih, cstr_zero, take_nil, take_nil, length_nil, Nat.sub_zero,
          Nat.sub_zero, replicate_succ]
        rfl
      · rw [headD_cons, tail_cons, if_pos hb]
        dsimp only
        rw [ih, cstr_cons hb, take_succ_cons, length_cons, Nat.add_sub_add_right]
        rfl

theorem letters_flatMap (chars back : List UInt8) :
    letters (chars.flatMap pair ++ back) = chars ++ letters back := by
  induction chars with
  | nil => rfl
  | cons b rest ih =>
    obtain ⟨x, y, hpair, -, -, hb⟩ := pair_spec b
    rw [flatMap_cons, hpair, append_assoc]
    show _ :: letters (rest.flatMap pair ++ back) = _
    rw [ih, hb]
    rfl

theorem zero_notMem_flatMap (chars : List UInt8) : (0 : UInt8) ∉ chars.flatMap pair := by
  intro hmem
  obtain ⟨b, -, hb⟩ := mem_flatMap.1 hmem
  obtain ⟨x, y, hpair, hx, hy, -⟩ := pair_spec b
  rw [hpair] at hb
  simp [hx.symm, hy.symm] at hb

theorem flatMap_pair_length (chars : List UInt8) :
    (chars.flatMap pair).length = 2 * chars.length := by
  induction chars with
  | nil => rfl
  | cons b rest ih =>
    rw [flatMap_cons, length_append, ih, length_cons]
    show 2 + _ = _
    omega

def padded (name : List UInt8) : List UInt8 :=
  (cstr name).take 15 ++ List.replicate (15 - (cstr name).length) 32

theorem padded_length (name : List UInt8) : (padded name).length = 15 := by
  rw [padded, length_append, length_take, length_replicate]
  omega

theorem makenbname_eq (name : List UInt8) :
    makenbname name 32 = (padded name).flatMap pair ++ [65, 65, 0] := by
  rw [makenbname, makenbnameLoop_eq]
  rfl

theorem makenbname_length (name : List UInt8) : (makenbname name 32).length = 33 := by
  rw [makenbname_eq, length_append, flatMap_pair_length, padded_length]
  rfl

/-- **What a name is decoded to** that is encoded. -/
theorem letters_makenbname (name back : List UInt8) :
    letters (taken 32 (makenbname name 32 ++ back)) = padded name ++ [0] := by
  have hcstr : cstr (makenbname name 32 ++ back) = (padded name).flatMap pair ++ [65, 65] := by
    rw [makenbname_eq, append_assoc, cstr_append (zero_notMem_flatMap _)]
    rfl
  have hlen : ((padded name).flatMap pair ++ [65, 65]).length = 32 := by
    rw [length_append, flatMap_pair_length, padded_length]
    rfl
  rw [taken, hcstr, take_of_length_le (by rw [hlen]; decide), letters_flatMap]
  rfl

/-- **The round trip**: a name of at most fifteen characters comes back with blanks
behind it. -/
theorem getnbname_makenbname (hstack : stack.length = 17) {name : List UInt8}
    (hlen : name.length ≤ 15) (hzero : (0 : UInt8) ∉ name) :
    ∃ array, getnbname (makenbname name 32) stack 32 = some array ∧
      cstr array = name ++ List.replicate (15 - name.length) 32 := by
  have htaken := letters_makenbname name []
  rw [append_nil] at htaken
  have hpadded : padded name = name ++ replicate (15 - name.length) 32 := by
    rw [padded, cstr_eq_self hzero, take_of_length_le hlen]
  have hfit : (taken 32 (makenbname name 32)).length ≤ 32 := by
    rw [taken, length_take]
    exact Nat.min_le_left _ _
  have hblank : (0 : UInt8) ∉ name ++ replicate (15 - name.length) 32 := by
    intro hmem
    rcases mem_append.1 hmem with hname | hblank
    · exact hzero hname
    · exact absurd (eq_of_mem_replicate hblank) (by decide)
  refine ⟨_, (getnbname_eq 32 hstack (makenbname_length name).ge).trans (if_pos hfit), ?_⟩
  rw [htaken, memcpy, take_zero, nil_append, hpadded, append_assoc,
    append_assoc, cstr_append hblank]
  simp

theorem asked_own {data : List UInt8} (h : OwnQuery r data) :
    asked data = (padded r.name).takeWhile fun b => b ≠ 0 ∧ b ≠ 32 := by
  obtain ⟨-, hsize, hfield⟩ := h
  have hdrop : data.drop 13 = makenbname r.name 32 ++ (data.drop 13).drop 33 := by
    rw [← hfield, take_append_drop]
  rw [asked, hsize, hdrop, letters_makenbname, takeWhile_append]
  split
  · rename_i hlen
    rw [(List.takeWhile_prefix _).eq_of_length hlen]
    exact append_nil _
  · rfl

/-- **A query for the device's own name** gives the name where it is short and
has no blank. -/
theorem asked_own_iff {data : List UInt8} (h : OwnQuery r data) :
    asked data = cstr r.name ↔ (cstr r.name).length ≤ 15 ∧ (32 : UInt8) ∉ cstr r.name := by
  rw [asked_own h]
  constructor
  · intro heq
    refine ⟨?_, ?_⟩
    · rw [← heq, ← padded_length r.name]
      exact (List.takeWhile_prefix _).length_le
    · intro hmem
      rw [← heq] at hmem
      simpa using mem_takeWhile_imp hmem
  · rintro ⟨hlen, hblank⟩
    have hall : ∀ b ∈ cstr r.name, decide (b ≠ 0 ∧ b ≠ 32) = true := fun b hb =>
      decide_eq_true ⟨fun hnul => zero_notMem_cstr _ (hnul ▸ hb), fun heq => hblank (heq ▸ hb)⟩
    rw [padded, take_of_length_le hlen, takeWhile_append_of_pos hall]
    rcases 15 - (cstr r.name).length with _ | n
    · exact append_nil _
    · rw [replicate_succ, takeWhile_cons_of_neg (by simp), append_nil]

theorem ends_own {data : List UInt8} (h : OwnQuery r data) : Ends data :=
  .inl (by rw [h.2.1]; decide)

/-- **What is answered to a query for the device's own name.** -/
theorem recvOne_own (hstack : stack.length = 17) (h : OwnQuery r pb.payload)
    (hlen : (cstr r.name).length ≤ 15) (hblank : (32 : UInt8) ∉ cstr r.name) :
    recvOne ip stack r pb = some
        (if pb.alloc then some (nameAnswer ip r pb.payload) else none) := by
  rw [recvOne_question hstack h.1, if_pos ((ends_iff h.1).1 (ends_own h)),
    if_pos ((asked_own_iff h).2 ⟨hlen, hblank⟩)]

/-- **The handling is kept** exactly for these host names and packets. -/
theorem kept_iff {bound : Bool} {packet : List Pbuf} (hstack : stack.length = 17)
    (haccept : strlen hostname ≤ 17) :
    Kept bound ip stack hostname r packet ↔ Suited hostname packet := by
  have hname : ∀ ok r', begin_ bound hostname r = some (ok, r') →
      (cstr r'.name).length = strlen hostname ∧
        ((32 : UInt8) ∉ cstr hostname → (32 : UInt8) ∉ cstr r'.name) := by
    intro ok r' hbegin
    rw [begin_name haccept hbegin]
    refine ⟨length_map _, fun hblank hmem => ?_⟩
    obtain ⟨b, hb, heq⟩ := mem_map.1 hmem
    exact hblank ((toupper_spec b).2 heq ▸ hb)
  have hrecv : ∀ ok r', begin_ bound hostname r = some (ok, r') →
      ((recv ip stack r' packet).isSome = true ↔ ∀ pb ∈ packet, isQuestion pb.payload = true →
        Ends pb.payload ∧ (strlen hostname ≤ 15 ∨ asked pb.payload ≠ [42])) := by
    intro ok r' hbegin
    rw [recv_isSome]
    refine forall₂_congr fun pb _ => ?_
    rw [recvOne_isSome hstack, (hname ok r' hbegin).1]
  constructor
  · intro hkept
    obtain ⟨⟨ok, r'⟩, hbegin⟩ := Option.isSome_iff_exists.1 hkept.begin_inside
    have hinside := (hrecv ok r' hbegin).1 (hkept.recv_inside ok r' hbegin)
    exact ⟨(begin_isSome haccept).1 hkept.begin_inside,
      fun pb hpb hquestion => (hinside pb hpb hquestion).1,
      fun pb hpb hquestion => (hinside pb hpb hquestion).2⟩
  · rintro ⟨hroom, hends, hstatus⟩
    refine ⟨(begin_isSome haccept).2 hroom, ?_, ?_, ?_⟩
    · grind
    · intro name hlen hzero _
      exact getnbname_makenbname hstack hlen hzero
    · intro ok r' hbegin hlen hblank pb _ hown
      obtain ⟨hsame, hnone⟩ := hname ok r' hbegin
      exact recvOne_own hstack hown (hsame ▸ hlen) (hnone hblank)

def queryA : List UInt8 := List.replicate 12 0 ++ 32 :: makenbname [65] 32 ++ [0, 0x20, 0, 1]

theorem kept_short : Kept true 0 (List.replicate 17 0) [65] ⟨false, List.replicate 17 0, rfl⟩
    [⟨queryA, true⟩] :=
  (kept_iff (by decide) (by decide)).2
    ⟨by decide, fun pb hpb _ => .inl (by obtain rfl := mem_singleton.1 hpb; decide),
      fun _ _ _ => .inl (by decide)⟩

def longQuestion : List UInt8 := List.replicate 12 0 ++ 40 :: List.replicate 40 65

theorem not_kept : ¬ ∀ (bound : Bool) (ip : Nat) (stack hostname : List UInt8) (r : Responder)
    (packet : List Pbuf), stack.length = 17 → strlen hostname ≤ 17 →
      Kept bound ip stack hostname r packet := by
  intro hall
  have hkept := hall true 0 (replicate 17 0) [65] ⟨false, replicate 17 0, rfl⟩
    [⟨longQuestion, true⟩] (by decide) (by decide)
  obtain ⟨⟨ok, r'⟩, hbegin⟩ := Option.isSome_iff_exists.1 hkept.begin_inside
  have hinside := (recv_isSome _).1 (hkept.recv_inside ok r' hbegin) _ mem_cons_self
  have hends := (ends_iff (by decide)).1 (((recvOne_isSome (by decide)).1 hinside) (by decide)).1
  exact absurd hends (by decide)

end NetBios
