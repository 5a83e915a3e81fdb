import RalioFirmware.Basis.Word
import RalioFirmware.Wifi.Pbuf

/-!
# The sending side of `UdpContext`

What a sketch appends is kept in a chain of `pbuf`s, with a pointer to the one
that is being filled and the number of bytes in all.  `send` copies them into
one buffer, which is what lwIP gets.

The lengths that lwIP keeps are of 16 bits, those of the context of 32.
-/

namespace Udp

open Pbuf Word List

abbrev TxHeap := Heap Unit

/-- `pbuf_alloc(PBUF_TRANSPORT, length, PBUF_RAM)`: where it finds room, if it
does, and what lies there. -/
abbrev Allocator := Nat → TxHeap → Option (Ptr × List UInt8)

/-- What lwIP's documentation says of an allocation: the buffer is new, and its
payload is one piece of the length. -/
def Allocates (alloc : Allocator) : Prop :=
  ∀ len h a room, alloc len h = some (a, room) → h.Free a ∧ room.length = len

def content (payload : List UInt8) : Content Unit := ⟨payload, 0, none⟩

structure TxContext where
  tx_buf_head : Option Ptr
  tx_buf_cur : Option Ptr
  tx_buf_offset : Nat

def pbufUnitSize : Nat := 128

namespace TxContext

def init : TxContext := ⟨none, none, 0⟩

/-- The loop of `_reserve`: whether every allocation succeeds. -/
def growLoop (L : Api Unit) (alloc : Allocator) (head : Ptr) :
    Nat → Nat → TxHeap → Except Halt (Bool × TxHeap)
  | 0, _, h => .ok (true, h)
  | fuel + 1, grow_size, h =>
    if grow_size = 0 then .ok (true, h)
    else match alloc pbufUnitSize h with
      | none => .ok (false, h)
      | some (pb, room) =>
        match L.cat head pb (store h [(pb, content room)]) with
        | .error e => .error e
        | .ok h =>
          if grow_size < pbufUnitSize then .ok (true, h)
          else growLoop L alloc head fuel (grow_size - pbufUnitSize) h

/-- The part of `_reserve` that lets the chain grow. -/
def grow (L : Api Unit) (alloc : Allocator) (size : Nat) (head : Ptr) (h : TxHeap) :
    Except Halt (Bool × TxHeap) :=
  match h.deref head with
  | none => .error .access
  | some b =>
    if size < b.tot_len then .ok (true, h)
    else growLoop L alloc head (size + 1) (size - b.tot_len) h

/-- `_reserve`: whether every allocation succeeds, and what it leaves. -/
def reserve (L : Api Unit) (alloc : Allocator) (size : Nat) (u : TxContext) (h : TxHeap) :
    Except Halt (Bool × TxContext × TxHeap) :=
  match u.tx_buf_head with
  | some head => do
    let (whole, h) ← grow L alloc size head h
    return (whole, u, h)
  | none =>
    match alloc pbufUnitSize h with
    | none => .ok (false, u, h)
    | some (pb, room) => do
      let (whole, h) ← grow L alloc size pb (store h [(pb, content room)])
      return (whole, ⟨some pb, some pb, 0⟩, h)

/-- Whether the chain lacks room for `size` bytes in all. -/
def lacks (size : Nat) (u : TxContext) (h : TxHeap) : Except Halt Bool :=
  match u.tx_buf_head with
  | none => .ok true
  | some head =>
    match h.deref head with
    | none => .error .access
    | some b => .ok (decide (b.tot_len < size))

/-- `memcpy` into a payload, from `used` on. -/
def overwrite (b : Buf Unit) (used : Nat) (data : List UInt8) : Buf Unit :=
  { b with content := { b.content with
      payload := b.payload.take used ++ data ++ b.payload.drop (used + data.length) } }

/-- The loop of `append`. -/
def copyLoop : Nat → List UInt8 → TxContext → TxHeap → Except Halt (TxContext × TxHeap)
  | _, [], u, h => .ok (u, h)
  | 0, _ :: _, _, _ => .error .access
  | fuel + 1, data, u, h =>
    match u.tx_buf_head.bind h.deref, u.tx_buf_cur with
    | some head, some cur =>
      match h.deref cur with
      | none => .error .access
      | some b =>
        let used_cur := sub32 u.tx_buf_offset (sub32 head.tot_len b.tot_len)
        let free_cur := sub32 b.len used_cur
        if free_cur = 0 then copyLoop fuel data { u with tx_buf_cur := b.next } h
        else
          let will_copy := if data.length < free_cur then data.length else free_cur
          if used_cur + will_copy ≤ b.len then
            copyLoop fuel (data.drop will_copy)
              { u with tx_buf_offset := u32 (u.tx_buf_offset + will_copy) }
              (h.set cur (some (overwrite b used_cur (data.take will_copy))))
          else .error .access
    | _, _ => .error .access

/-- `_reserve`, if there is need for it. -/
def ensure (L : Api Unit) (alloc : Allocator) (size : Nat) (u : TxContext) (h : TxHeap) :
    Except Halt (Bool × TxContext × TxHeap) :=
  match lacks size u h with
  | .error e => .error e
  | .ok false => .ok (true, u, h)
  | .ok true => reserve L alloc size u h

/-- What `append` does with the chain that there is: what it reports. -/
def fillIn (data : List UInt8) (u : TxContext) (h : TxHeap) :
    Except Halt (Nat × TxContext × TxHeap) :=
  match lacks (u32 (u.tx_buf_offset + data.length)) u h with
  | .error e => .error e
  | .ok true => .ok (0, u, h)
  | .ok false =>
    match copyLoop (data.length + h.length) data u h with
    | .error e => .error e
    | .ok (u, h) => .ok (data.length, u, h)

/-- `append`: what it reports, and whether every allocation succeeds. -/
def append (L : Api Unit) (alloc : Allocator) (data : List UInt8) (u : TxContext) (h : TxHeap) :
    Except Halt ((Nat × Bool) × TxContext × TxHeap) :=
  match ensure L alloc (u32 (u.tx_buf_offset + data.length)) u h with
  | .error e => .error e
  | .ok (whole, u, h) =>
    match fillIn data u h with
    | .error e => .error e
    | .ok (n, u, h) => .ok ((n, whole), u, h)

/-- One call of `append` after the other, each with the allocations it meets. -/
def appendAll (L : Api Unit) : List (Allocator × List UInt8) → TxContext → TxHeap →
    Except Halt (List (Nat × Bool) × TxContext × TxHeap)
  | [], u, h => .ok ([], u, h)
  | (alloc, data) :: calls, u, h =>
    match append L alloc data u h with
    | .error e => .error e
    | .ok (report, u, h) =>
      match appendAll L calls u h with
      | .error e => .error e
      | .ok (reports, u, h) => .ok (report :: reports, u, h)

def cancelBuffer (L : Api Unit) (u : TxContext) (h : TxHeap) : Except Halt (TxContext × TxHeap) :=
  match u.tx_buf_head with
  | none => .ok (init, h)
  | some head => do
    let h ← L.free head h
    return (init, h)

/-- The loop of `trySend`: the bytes it copies, at most `data_size`. -/
def gather (h : TxHeap) : Nat → Option Ptr → Nat → Except Halt (List UInt8)
  | _, none, _ => .ok []
  | 0, some _, _ => .error .access
  | fuel + 1, some p, data_size =>
    match h.deref p with
    | none => .error .access
    | some b => do
      let will_copy := if data_size < b.len then data_size else b.len
      let rest ← gather h fuel b.next (data_size - will_copy)
      return b.payload.take will_copy ++ rest

/-- `cancelBuffer`, on a condition. -/
def cancelIf (L : Api Unit) (cancel : Bool) (u : TxContext) (h : TxHeap) :
    Except Halt (TxContext × TxHeap) :=
  if cancel then u.cancelBuffer L h else .ok (u, h)

/-- `trySend`: the datagram that `udp_sendto` gets, if any, and whether it is
sent.  `accepted` is whether `udp_sendto` takes it. -/
def trySend (L : Api Unit) (alloc : Allocator) (accepted keepBufferOnError : Bool)
    (u : TxContext) (h : TxHeap) : Except Halt (Option (List UInt8) × Bool × TxContext × TxHeap) :=
  match alloc (u.tx_buf_offset % 65536) h with
  | none => do
    let (u, h) ← u.cancelIf L (!keepBufferOnError) h
    return (none, false, u, h)
  | some (tx_copy, room) => do
    let copied ← gather h h.length u.tx_buf_head u.tx_buf_offset
    let datagram := copied ++ room.drop copied.length
    let h ← if copied.length ≤ room.length then .ok (store h [(tx_copy, content datagram)])
      else .error .access
    let (u, h) ← u.cancelIf L (!keepBufferOnError) h
    let h ← L.free tx_copy h
    let (u, h) ← u.cancelIf L accepted h
    return (some datagram, accepted, u, h)

def send (L : Api Unit) (alloc : Allocator) (accepted : Bool) (u : TxContext) (h : TxHeap) :
    Except Halt (Option (List UInt8) × Bool × TxContext × TxHeap) :=
  trySend L alloc accepted false u h

/-! ## The chain and what has been appended -/

def Units (cs : List (Content Unit)) : Prop := ∀ d ∈ cs, d.payload.length = pbufUnitSize

/-- The chain holds `bs` at its front; the buffers `ns` are full, and `cur` is
the one that is being filled. -/
structure Filled (bs : List UInt8) (h : TxHeap) (head cur : Ptr) (ns ms : List Ptr)
    (cs : List (Content Unit)) (c : Content Unit) (ds : List (Content Unit)) : Prop where
  holds : Holds h (some head) (ns ++ cur :: ms) (cs ++ c :: ds)
  same : ns.length = cs.length
  begun : (bytes cs).length ≤ bs.length
  within : bs.length ≤ (bytes cs).length + c.payload.length
  front : (bytes (cs ++ c :: ds)).take bs.length = bs
  short : bs.length < 65536
  units : Units (cs ++ c :: ds)

/-- The bytes `bs` have been appended since the last datagram. -/
inductive Sending : List UInt8 → TxContext → TxHeap → Prop
  | empty (h : TxHeap) : Sending [] init h
  | chain {bs : List UInt8} {h : TxHeap} {head cur : Ptr} {ns ms : List Ptr}
      {cs : List (Content Unit)} {c : Content Unit} {ds : List (Content Unit)} :
      Filled bs h head cur ns ms cs c ds → Sending bs ⟨some head, some cur, bs.length⟩ h

variable {L : Api Unit} {alloc : Allocator} {h : TxHeap} {head cur : Ptr} {ns ms : List Ptr}
  {cs ds : List (Content Unit)} {c : Content Unit} {bs data : List UInt8} {u : TxContext}

theorem deref_head (hh : Holds h (some head) ns cs) :
    ∃ b, h.deref head = some b ∧ b.tot_len = (bytes cs).length % 65536 := by
  cases hh with
  | cons hderef _ _ => exact ⟨_, hderef, rfl⟩

theorem cat_new (hL : Documented L) (halloc : Allocates alloc) (hh : Holds h (some head) ns cs)
    {len : Nat} {a : Ptr} {room : List UInt8} (hroom : alloc len h = some (a, room)) :
    ∃ h₁, L.cat head a (store h [(a, content room)]) = .ok h₁ ∧
      Holds h₁ (some head) (ns ++ [a]) (cs ++ [content room]) := by
  obtain ⟨hfree, -⟩ := halloc len h a room hroom
  have hnot := hh.not_mem_of_free hfree
  obtain ⟨h₁, hcat, hholds, -⟩ := (hh.store_one hnot).cat hL (holds_one hfree (content room))
    fun b hb hba => hnot (mem_singleton.mp hba ▸ hb)
  exact ⟨h₁, hcat, hholds⟩

/-- The most that can be appended: the next unit would make the 16-bit length
of the chain wrap. -/
def mostBytes : Nat := 65408

/-- What a growth to `size` leaves: it reports a failed allocation, and then
the chain is too short, or the chain is long enough. -/
structure Grown (size : Nat) (whole : Bool) (cs : List (Content Unit)) : Prop where
  failed : whole = false → (bytes cs).length % 65536 < size
  fits : whole = true → size ≤ mostBytes → size ≤ (bytes cs).length % 65536

theorem Units.bytes (hcs : Units cs) : (bytes cs).length = pbufUnitSize * cs.length := by
  induction cs with
  | nil => rfl
  | cons c cs ih =>
    obtain ⟨hc, hcs⟩ := forall_mem_cons.mp hcs
    rw [bytes_cons, length_append, hc, ih hcs, length_cons, Nat.mul_succ,
      Nat.add_comm]

theorem Units.append (hcs : Units cs) (hds : Units ds) : Units (cs ++ ds) :=
  fun d hd => (mem_append.mp hd).elim (hcs d) (hds d)

/-- **The chain grows** behind what it holds; where an allocation fails it
stays too short. -/
theorem growLoop_spec (hL : Documented L) (halloc : Allocates alloc) {size fuel grow_size : Nat}
    (hh : Holds h (some head) ns cs) (hcs : Units cs) (hfuel : grow_size < fuel)
    (hsize : (bytes cs).length % 65536 + grow_size = size ∨ 65536 ≤ size) :
    ∃ whole h₁ ms ds, growLoop L alloc head fuel grow_size h = .ok (whole, h₁) ∧
      Holds h₁ (some head) (ns ++ ms) (cs ++ ds) ∧ Units ds ∧ Grown size whole (cs ++ ds) := by
  induction fuel generalizing grow_size h ns cs with
  | zero => exact absurd hfuel (Nat.not_lt_zero _)
  | succ fuel ih =>
    rw [growLoop]
    by_cases hzero : grow_size = 0
    · rw [if_pos hzero]
      refine ⟨true, h, [], [], rfl, by simpa using hh, by simp [Units], by simp, ?_⟩
      intro _ hmost
      unfold mostBytes at hmost
      rw [append_nil]
      omega
    rw [if_neg hzero]
    cases hroom : alloc pbufUnitSize h with
    | none =>
      refine ⟨false, h, [], [], rfl, by simpa using hh, by simp [Units], ?_, by simp⟩
      intro _
      rw [append_nil]
      omega
    | some r =>
      obtain ⟨a, room⟩ := r
      obtain ⟨h₁, hcat, hh₁⟩ := cat_new hL halloc hh hroom
      have hlen : room.length = pbufUnitSize := (halloc _ _ _ _ hroom).2
      have hnew : Units [content room] := fun d hd => by
        obtain rfl := mem_singleton.mp hd
        exact hlen
      have hunits := hcs.append hnew
      have hbytes := hcs.bytes
      have hbytes₁ := hunits.bytes
      rw [length_append, length_singleton] at hbytes₁
      simp only [hcat]
      by_cases hlast : grow_size < pbufUnitSize
      · rw [if_pos hlast]
        refine ⟨true, h₁, [a], [content room], rfl, hh₁, hnew, by simp, fun _ hmost => ?_⟩
        unfold mostBytes at hmost
        unfold pbufUnitSize at hlast hbytes hbytes₁
        omega
      · rw [if_neg hlast]
        have hnext : (bytes (cs ++ [content room])).length % 65536 +
            (grow_size - pbufUnitSize) = size ∨ 65536 ≤ size := by grind
        obtain ⟨whole, h₂, ms, ds, hrun, hh₂, hds, hgrown⟩ :=
          ih hh₁ hunits (by unfold pbufUnitSize at hlast ⊢; omega) hnext
        refine ⟨whole, h₂, a :: ms, content room :: ds, hrun, ?_, ?_, ?_⟩
        · simpa [append_assoc] using hh₂
        · exact forall_mem_cons.mpr ⟨hlen, hds⟩
        · simpa [append_assoc] using hgrown

theorem grow_spec (hL : Documented L) (halloc : Allocates alloc) (size : Nat)
    (hh : Holds h (some head) ns cs) (hcs : Units cs) :
    ∃ whole h₁ ms ds, grow L alloc size head h = .ok (whole, h₁) ∧
      Holds h₁ (some head) (ns ++ ms) (cs ++ ds) ∧ Units ds ∧ Grown size whole (cs ++ ds) := by
  obtain ⟨b, hb, htot⟩ := deref_head hh
  rw [grow, hb]
  dsimp only
  by_cases hlt : size < b.tot_len
  · rw [if_pos hlt]
    refine ⟨true, h, [], [], rfl, by simpa using hh, by simp [Units], by simp, ?_⟩
    intro _ _
    rw [append_nil, ← htot]
    exact Nat.le_of_lt hlt
  · rw [if_neg hlt]
    exact growLoop_spec hL halloc hh hcs (by omega) (by omega)

theorem lacks_chain (hh : Holds h (some head) ns cs) (size : Nat) (cur : Option Ptr)
    (offset : Nat) :
    lacks size ⟨some head, cur, offset⟩ h =
      .ok (decide ((bytes cs).length % 65536 < size)) := by
  obtain ⟨b, hb, htot⟩ := deref_head hh
  simp only [lacks, hb, htot]

theorem Filled.grown (hf : Filled bs h head cur ns ms cs c ds) {h₁ : TxHeap} {xs : List Ptr}
    {es : List (Content Unit)}
    (hh : Holds h₁ (some head) (ns ++ cur :: ms ++ xs) (cs ++ c :: ds ++ es)) (hes : Units es) :
    Filled bs h₁ head cur ns (ms ++ xs) cs c (ds ++ es) := by
  have hcons : cs ++ c :: (ds ++ es) = (cs ++ c :: ds) ++ es := by simp
  refine ⟨by simpa using hh, hf.same, hf.begun, hf.within, ?_, hf.short, ?_⟩
  swap
  · rw [hcons]
    exact hf.units.append hes
  have hle : bs.length ≤ (bytes (cs ++ c :: ds)).length := by
    rw [← hf.front, length_take]
    exact Nat.min_le_right _ _
  rw [hcons, bytes_append, take_append_of_le_length hle, hf.front]

/-- **Room is made** without touching what has been appended. -/
theorem Sending.ensure (hL : Documented L) (halloc : Allocates alloc) (hu : Sending bs u h)
    (size : Nat) :
    ∃ whole u₁ h₁, ensure L alloc size u h = .ok (whole, u₁, h₁) ∧ Sending bs u₁ h₁ ∧
      u₁.tx_buf_offset = u.tx_buf_offset ∧ (whole = false → lacks size u₁ h₁ = .ok true) ∧
      (whole = true → size ≤ mostBytes → lacks size u₁ h₁ = .ok false) := by
  cases hu with
  | empty =>
    show ∃ whole u₁ h₁, reserve L alloc size init h = _ ∧ _
    rw [reserve]
    dsimp only [init]
    cases hroom : alloc pbufUnitSize h with
    | none => exact ⟨false, init, h, rfl, .empty h, rfl, fun _ => rfl, by simp⟩
    | some r =>
      obtain ⟨a, room⟩ := r
      obtain ⟨hfree, hlen⟩ := halloc _ _ _ _ hroom
      have hnew : Units [content room] := fun d hd => by
        obtain rfl := mem_singleton.mp hd
        exact hlen
      obtain ⟨whole, h₁, ms, ds, hrun, hh₁, hds, hgrown⟩ :=
        grow_spec hL halloc size (holds_one hfree (content room)) hnew
      have hf : Filled [] h₁ a a [] ms [] (content room) ds :=
        ⟨hh₁, rfl, Nat.le_refl _, Nat.zero_le _, rfl, by decide, hnew.append hds⟩
      refine ⟨whole, ⟨some a, some a, 0⟩, h₁, ?_, .chain hf, rfl, fun hw => ?_,
        fun hw hmost => ?_⟩
      · simp only [hrun]
        rfl
      · rw [lacks_chain hf.holds, decide_eq_true]
        exact hgrown.failed hw
      · rw [lacks_chain hf.holds, decide_eq_false]
        exact Nat.not_lt.mpr (hgrown.fits hw hmost)
  | @chain _ _ head cur ns ms cs c ds hf =>
    rw [TxContext.ensure, lacks_chain hf.holds]
    by_cases hlack : (bytes (cs ++ c :: ds)).length % 65536 < size
    · rw [decide_eq_true hlack]
      obtain ⟨whole, h₁, xs, es, hrun, hh₁, hes, hgrown⟩ :=
        grow_spec hL halloc size hf.holds hf.units
      have hf₁ := hf.grown hh₁ hes
      have hassoc : cs ++ c :: (ds ++ es) = cs ++ c :: ds ++ es := by simp
      refine ⟨whole, _, h₁, ?_, .chain hf₁, rfl, fun hw => ?_, fun hw hmost => ?_⟩
      · simp only [reserve, hrun]
        rfl
      · rw [lacks_chain hf₁.holds, hassoc, decide_eq_true]
        exact hgrown.failed hw
      · rw [lacks_chain hf₁.holds, hassoc, decide_eq_false]
        exact Nat.not_lt.mpr (hgrown.fits hw hmost)
    · rw [decide_eq_false hlack]
      refine ⟨true, _, h, rfl, .chain hf, rfl, by simp, fun _ _ => ?_⟩
      rw [lacks_chain hf.holds, decide_eq_false hlack]

theorem Sending.offset_eq (hu : Sending bs u h) : u.tx_buf_offset = bs.length := by
  cases hu with
  | empty => rfl
  | chain hf => rfl

theorem Sending.short (hu : Sending bs u h) : bs.length < 65536 := by
  cases hu with
  | empty => decide
  | chain hf => exact hf.short

/-! ## Copying -/

theorem Filled.used (hf : Filled bs h head cur ns ms cs c ds)
    (hroom : bs.length ≤ (bytes (cs ++ c :: ds)).length % 65536) :
    ∃ hb b, h.deref head = some hb ∧ h.deref cur = some b ∧ b.content = c ∧ b.next = ms.head? ∧
      sub32 bs.length (sub32 hb.tot_len b.tot_len) = bs.length - (bytes cs).length := by
  obtain ⟨hb, hhead, htot⟩ := deref_head hf.holds
  obtain ⟨q, -, hsuffix⟩ := hf.holds.suffix hf.same
  cases hsuffix with
  | @cons _ _ _ _ next hderef _ hrest =>
    refine ⟨hb, _, hhead, hderef, rfl, hrest.head_eq, ?_⟩
    have hbegun := hf.begun
    rw [htot]
    rw [bytes_append, length_append] at hroom ⊢
    dsimp only
    unfold sub32
    omega

theorem overwrite_length (b : Buf Unit) {used : Nat} {new : List UInt8}
    (hfits : used + new.length ≤ b.len) :
    (overwrite b used new).content.payload.length = b.content.payload.length := by
  have hlen : b.payload.length = b.len := rfl
  show (b.payload.take used ++ new ++ b.payload.drop (used + new.length)).length = b.len
  rw [length_append, length_append, length_take, length_drop]
  omega

theorem Filled.write {b : Buf Unit} (hf : Filled bs h head cur ns ms cs b.content ds)
    (hcur : h.deref cur = some b) {new : List UInt8}
    (hfits : bs.length + new.length ≤ (bytes cs).length + b.len)
    (hshort : bs.length + new.length < 65536) :
    Filled (bs ++ new) (h.set cur (some (overwrite b (bs.length - (bytes cs).length) new)))
      head cur ns ms cs (overwrite b (bs.length - (bytes cs).length) new).content ds := by
  obtain ⟨used, hused⟩ : ∃ used, bs.length = (bytes cs).length + used :=
    ⟨bs.length - (bytes cs).length, by have := hf.begun; omega⟩
  rw [hused, Nat.add_sub_cancel_left]
  have hlen : b.len = b.payload.length := rfl
  have hlenTake : (b.payload.take used).length = used := by
    rw [length_take]
    omega
  have hpayload := overwrite_length b (show used + new.length ≤ b.len by omega)
  have hbs : bs = bytes cs ++ b.payload.take used := by
    have hfront := hf.front
    rw [hused, bytes_append, take_length_add_append, bytes_cons] at hfront
    rw [← hfront]
    exact congrArg _ (take_append_of_le_length (show used ≤ b.payload.length by omega))
  refine ⟨hf.holds.write _ hf.same hcur hpayload, hf.same, ?_, ?_, ?_, ?_, fun d hd => ?_⟩
  · rw [length_append]
    omega
  · rw [length_append, hpayload]
    exact hfits
  · have hlength : (bs ++ new).length = (bytes cs).length + (used + new.length) := by
      rw [length_append]
      omega
    rw [hlength, bytes_append, take_length_add_append, bytes_cons, hbs]
    show bytes cs ++ ((b.payload.take used ++ new ++ _) ++ bytes ds).take _ = _
    rw [append_assoc, take_append_of_le_length, take_of_length_le,
      append_assoc]
    all_goals exact Nat.le_of_eq (by rw [length_append, hlenTake])
  · grind
  · have hunits := hf.units
    rcases mem_append.mp hd with hd | hd
    · exact hunits d (mem_append_left _ hd)
    · rcases mem_cons.mp hd with rfl | hd
      · rw [hpayload]
        exact hunits _ (by simp)
      · exact hunits d (by simp [hd])

theorem Filled.next {b : Buf Unit} {d : Content Unit}
    (hf : Filled bs h head cur ns ms cs b.content (d :: ds))
    (hfull : (bytes cs).length + b.len ≤ bs.length) :
    ∃ y ms', ms = y :: ms' ∧
      Filled bs h head y (ns ++ [cur]) ms' (cs ++ [b.content]) d ds := by
  have hlen : (bytes (cs ++ [b.content])).length = (bytes cs).length + b.len := by
    rw [bytes_append, bytes_cons, bytes_nil, append_nil, length_append]
    rfl
  have hsame := hf.holds.length_eq
  rw [length_append, length_append, hf.same] at hsame
  cases ms with
  | nil => simp at hsame
  | cons y ms =>
    refine ⟨y, ms, rfl, by simpa using hf.holds, by simp [hf.same], ?_, ?_, ?_, hf.short, ?_⟩
    · rw [hlen]
      exact hfull
    · rw [hlen]
      exact Nat.le_add_right_of_le hf.within
    · simpa using hf.front
    · simpa using hf.units

/-- **The copy loop** puts the bytes behind those that are there. -/
theorem copyLoop_spec {fuel : Nat} (hf : Filled bs h head cur ns ms cs c ds)
    (hroom : bs.length + data.length ≤ (bytes (cs ++ c :: ds)).length % 65536)
    (hfuel : data.length + ms.length ≤ fuel) :
    ∃ u₁ h₁, copyLoop fuel data ⟨some head, some cur, bs.length⟩ h = .ok (u₁, h₁) ∧
      Sending (bs ++ data) u₁ h₁ := by
  induction fuel generalizing bs data h cur ns ms cs c ds with
  | zero =>
    obtain rfl : data = [] := eq_nil_of_length_eq_zero (by omega)
    exact ⟨_, h, rfl, by simpa using Sending.chain hf⟩
  | succ fuel ih =>
    cases hdata : data with
    | nil => exact ⟨_, h, rfl, by simpa using Sending.chain hf⟩
    | cons x rest =>
      rw [← hdata]
      have hpos : 0 < data.length := by rw [hdata]; exact Nat.succ_pos _
      obtain ⟨hb, b, hhead, hcur, rfl, hnext, hused⟩ := hf.used (by omega)
      have hbegun := hf.begun
      have hshort := hf.short
      have hlen : b.len = 128 := hf.units _ (by simp)
      have hwithin : bs.length ≤ (bytes cs).length + b.len := hf.within
      have hfree : sub32 b.len (bs.length - (bytes cs).length) =
          (bytes cs).length + b.len - bs.length := by
        unfold sub32
        omega
      have htotal : (bytes (cs ++ b.content :: ds)).length =
          (bytes cs).length + (b.len + (bytes ds).length) := by
        rw [bytes_append, bytes_cons, length_append, length_append]
        rfl
      rw [hdata, copyLoop, ← hdata]
      swap
      · exact cons_ne_nil x rest
      simp only [Option.bind_some, hhead, hcur, hused, hfree, hnext]
      by_cases hfull : (bytes cs).length + b.len - bs.length = 0
      · -- The buffer is full, and there is another one behind it.
        rw [if_pos hfull]
        cases ds with
        | nil =>
          rw [htotal, bytes_nil, length_nil] at hroom
          omega
        | cons d ds =>
          obtain ⟨y, ms, rfl, hf'⟩ := hf.next (by omega)
          exact ih hf' (by simpa using hroom) (by rw [length_cons] at hfuel; omega)
      · rw [if_neg hfull]
        obtain ⟨will, hwill, hdataLe, hfreeLe, hwillPos⟩ : ∃ will,
            (if data.length < (bytes cs).length + b.len - bs.length then data.length
              else (bytes cs).length + b.len - bs.length) = will ∧ will ≤ data.length ∧
            will ≤ (bytes cs).length + b.len - bs.length ∧ 0 < will := by
          refine ⟨_, rfl, ?_⟩
          split <;> omega
        have htake : (data.take will).length = will := by grind
        rw [hwill, if_pos (show bs.length - (bytes cs).length + will ≤ b.len by omega)]
        have hmod : (bytes (cs ++ b.content :: ds)).length % 65536 < 65536 :=
          Nat.mod_lt _ (by decide)
        have hf' := hf.write hcur (show bs.length + (data.take will).length ≤ _ by omega)
          (show bs.length + (data.take will).length < 65536 by omega)
        have hoffset : u32 (bs.length + will) = (bs ++ data.take will).length := by
          rw [length_append, htake, u32_of_lt (by omega)]
        have hdrop : (data.drop will).length = data.length - will := length_drop
        have htotal' : (bytes (cs ++ (overwrite b (bs.length - (bytes cs).length)
            (data.take will)).content :: ds)).length =
            (bytes (cs ++ b.content :: ds)).length := by
          simp only [bytes_append, bytes_cons, length_append]
          rw [overwrite_length b (by omega)]
        obtain ⟨u₁, h₁, hrun, hu₁⟩ := @ih _ _ _ _ _ _ _ _ (data.drop will) hf'
          (by rw [htotal', length_append]; omega) (by omega)
        refine ⟨u₁, h₁, ?_, ?_⟩
        · rw [hoffset]
          exact hrun
        · rwa [append_assoc, take_append_drop] at hu₁

/-- A buffer of a 32-bit memory that has room for the chain as well. -/
def InMemory (data : List UInt8) : Prop := data.length < 4294901760

instance inMemoryDecidable (data : List UInt8) : Decidable (InMemory data) :=
  inferInstanceAs (Decidable (_ < _))

/-- What a call of `append` that reports `n` has appended. -/
def taken (n : Nat) (data : List UInt8) : List UInt8 := if n = 0 then [] else data

theorem taken_all (data : List UInt8) : taken data.length data = data := by
  cases data with
  | nil => rfl
  | cons x rest => exact if_neg (Nat.succ_ne_zero _)

/-- **The chain is filled**, or there is no room and nothing changes. -/
theorem Sending.fillIn (hu : Sending bs u h) (hdata : InMemory data) :
    ∃ n u₁ h₁, fillIn data u h = .ok (n, u₁, h₁) ∧ Sending (bs ++ taken n data) u₁ h₁ ∧
      (n = data.length ∨ n = 0) ∧
      (lacks (u32 (u.tx_buf_offset + data.length)) u h = .ok true → n = 0) ∧
      (lacks (u32 (u.tx_buf_offset + data.length)) u h = .ok false → n = data.length) := by
  cases hu with
  | empty =>
    refine ⟨0, init, h, rfl, ?_, Or.inr rfl, fun _ => rfl, fun hfalse => by cases hfalse⟩
    simpa [taken] using Sending.empty h
  | @chain _ _ head cur ns ms cs c ds hf =>
    have hshort := hf.short
    have hwrap : u32 (bs.length + data.length) = bs.length + data.length :=
      u32_of_lt (by unfold InMemory at hdata; omega)
    simp only [TxContext.fillIn, lacks_chain hf.holds, hwrap]
    by_cases hlack : (bytes (cs ++ c :: ds)).length % 65536 < bs.length + data.length
    · rw [decide_eq_true hlack]
      refine ⟨0, _, h, rfl, ?_, Or.inr rfl, fun _ => rfl, fun hfalse => by simp at hfalse⟩
      simpa [taken] using Sending.chain hf
    · rw [decide_eq_false hlack]
      have hlen := hf.holds.length_le
      rw [length_append, length_cons] at hlen
      obtain ⟨u₁, h₁, hrun, hu₁⟩ := copyLoop_spec hf (Nat.le_of_not_lt hlack)
        (show data.length + ms.length ≤ data.length + h.length by omega)
      simp only [hrun]
      refine ⟨data.length, u₁, h₁, rfl, ?_, Or.inl rfl, fun htrue => by simp at htrue,
        fun _ => rfl⟩
      rwa [taken_all]

/-- **One call of `append`** appends all of the bytes or none: none where an
allocation fails, all where none fails and they fit. -/
theorem Sending.append (hL : Documented L) (halloc : Allocates alloc) (hu : Sending bs u h)
    (hdata : InMemory data) :
    ∃ n whole u₁ h₁, append L alloc data u h = .ok ((n, whole), u₁, h₁) ∧
      Sending (bs ++ taken n data) u₁ h₁ ∧ (n = data.length ∨ n = 0) ∧
      (whole = false → n = 0) ∧
      (whole = true → bs.length + data.length ≤ mostBytes → n = data.length) := by
  obtain ⟨whole, u₁, h₁, hensure, hu₁, hoffset, hfailed, hfits⟩ :=
    hu.ensure hL halloc (u32 (u.tx_buf_offset + data.length))
  obtain ⟨n, u₂, h₂, hfill, hu₂, hn, hnone, hall⟩ := hu₁.fillIn hdata
  rw [hoffset] at hnone hall
  refine ⟨n, whole, u₂, h₂, ?_, hu₂, hn, fun hfail => hnone (hfailed hfail),
    fun hwhole hmost => hall (hfits hwhole ?_)⟩
  · simp only [TxContext.append, hensure, hfill]
  · have hshort := hu.short
    rw [hu.offset_eq, u32_of_lt (by unfold InMemory at hdata; omega)]
    exact hmost

/-- What a run of calls has appended, by what they report. -/
def appended (calls : List (Allocator × List UInt8)) (reports : List (Nat × Bool)) :
    List UInt8 :=
  (calls.zip reports).flatMap fun c => taken c.2.1 c.1.2

def given (calls : List (Allocator × List UInt8)) : List UInt8 := calls.flatMap Prod.snd

/-- A report is right: all of the bytes or none, and none where an allocation
fails. -/
def Reports (call : Allocator × List UInt8) (report : Nat × Bool) : Prop :=
  (report.1 = call.2.length ∨ report.1 = 0) ∧ (report.2 = false → report.1 = 0)

/-- **A run of calls** leaves what each of them has appended, in order. -/
theorem Sending.appendAll (hL : Documented L) {calls : List (Allocator × List UInt8)}
    (hcalls : ∀ call ∈ calls, Allocates call.1 ∧ InMemory call.2)
    (hu : Sending bs u h) :
    ∃ reports u₁ h₁, appendAll L calls u h = .ok (reports, u₁, h₁) ∧
      Sending (bs ++ appended calls reports) u₁ h₁ ∧ List.Forall₂ Reports calls reports ∧
      ((∀ r ∈ reports, r.2 = true) → bs.length + (given calls).length ≤ mostBytes →
        appended calls reports = given calls) := by
  induction calls generalizing bs u h with
  | nil => exact ⟨[], u, h, rfl, by simpa [appended] using hu, .nil, fun _ _ => rfl⟩
  | cons call calls ih =>
    obtain ⟨alloc, data⟩ := call
    obtain ⟨⟨halloc, hdata⟩, hrest⟩ := forall_mem_cons.mp hcalls
    obtain ⟨n, whole, u₁, h₁, hrun, hu₁, hn, hfail, hfits⟩ := hu.append hL halloc hdata
    obtain ⟨reports, u₂, h₂, hruns, hu₂, hreports, hall⟩ := ih hrest hu₁
    dsimp only at hfits hall
    have happended : appended ((alloc, data) :: calls) ((n, whole) :: reports) =
        taken n data ++ appended calls reports := by
      simp only [appended, zip_cons_cons, flatMap_cons]
    refine ⟨(n, whole) :: reports, u₂, h₂, ?_, ?_, .cons ⟨hn, hfail⟩ hreports,
      fun hwhole hmost => ?_⟩
    · simp only [TxContext.appendAll, hrun, hruns]
    · grind
    · obtain ⟨hwhole, hwholes⟩ := forall_mem_cons.mp hwhole
      have hgiven : given ((alloc, data) :: calls) = data ++ given calls := flatMap_cons
      rw [hgiven, length_append] at hmost
      have htaken : taken n data = data := by
        rw [hfits hwhole (by omega), taken_all]
      have hbytes : (bs ++ taken n data).length = bs.length + data.length := by
        rw [htaken, length_append]
      rw [happended, htaken, hgiven, hall hwholes (by omega)]

/-! ## Sending -/

theorem gather_eq {p : Option Ptr} (hh : Holds h p ns cs) {fuel : Nat}
    (hfuel : ns.length ≤ fuel) (n : Nat) : gather h fuel p n = .ok ((bytes cs).take n) := by
  induction hh generalizing fuel n with
  | nil => cases fuel <;> simp [gather]
  | @cons a ns c cs q hderef _ _ ih =>
    cases fuel with
    | zero => simp at hfuel
    | succ fuel =>
      rw [gather, hderef]
      simp only [ih (show ns.length ≤ fuel by simpa using hfuel)]
      show Except.ok (c.payload.take _ ++ _) = _
      rw [bytes_cons, take_append]
      show Except.ok (c.payload.take (if n < c.payload.length then n else c.payload.length) ++
        (bytes cs).take (n - if n < c.payload.length then n else c.payload.length)) = _
      split
      · rw [Nat.sub_self, Nat.sub_eq_zero_of_le (by omega)]
      · rw [take_length, take_of_length_le (show c.payload.length ≤ n by omega)]

theorem Sending.gather (hu : Sending bs u h) :
    gather h h.length u.tx_buf_head u.tx_buf_offset = .ok bs := by
  cases hu with
  | empty => exact gather_eq .nil (Nat.zero_le _) 0
  | chain hf =>
    rw [← hf.front]
    have hgather := gather_eq hf.holds hf.holds.length_le bs.length
    rwa [hf.front] at hgather ⊢

theorem Sending.cancelBuffer (hL : Documented L) (hu : Sending bs u h) :
    ∃ ns : List Ptr, (∀ a, h.Free a → a ∉ ns) ∧
      ∀ h' : TxHeap, (∀ a ∈ ns, h'.deref a = h.deref a) →
        ∃ h₁, cancelBuffer L u h' = .ok (init, h₁) ∧ ∀ a ∉ ns, h₁.deref a = h'.deref a := by
  cases hu with
  | empty => exact ⟨[], fun a _ => not_mem_nil, fun h' _ => ⟨h', rfl, fun _ _ => rfl⟩⟩
  | @chain _ _ head cur ns ms cs c ds hf =>
    refine ⟨ns ++ cur :: ms, fun a hfree => hf.holds.not_mem_of_free hfree, fun h' hsame => ?_⟩
    obtain ⟨h₁, hrun, hderef⟩ := (hf.holds.congr hsame).free hL
    refine ⟨h₁, ?_, fun a ha => by rw [hderef, if_neg ha]⟩
    simp only [TxContext.cancelBuffer, hrun]
    rfl

/-- **One call of `send`** hands over what has been appended, unless its
allocation fails; nothing is left to be sent. -/
theorem Sending.send (hL : Documented L) (halloc : Allocates alloc) (hu : Sending bs u h)
    (accepted : Bool) :
    ∃ h₁, send L alloc accepted u h =
      .ok (if (alloc bs.length h).isSome then some bs else none,
        (alloc bs.length h).isSome && accepted, init, h₁) := by
  have hshort := hu.short
  have hsize : u.tx_buf_offset % 65536 = bs.length := by
    rw [hu.offset_eq]
    omega
  obtain ⟨ns, hns, hcancel⟩ := hu.cancelBuffer hL
  rw [TxContext.send, trySend, hsize]
  cases hroom : alloc bs.length h with
  | none =>
    obtain ⟨h₁, hrun, -⟩ := hcancel h fun _ _ => rfl
    refine ⟨h₁, ?_⟩
    simp only [cancelIf, Bool.not_false, if_true, hrun]
    rfl
  | some r =>
    obtain ⟨a, room⟩ := r
    obtain ⟨hfree, hlen⟩ := halloc _ _ _ _ hroom
    have hnot := hns a hfree
    have hone := holds_one hfree (content bs)
    obtain ⟨h₁, hrun, hkept⟩ := hcancel (store h [(a, content bs)]) fun x hx => by
      rw [Heap.deref, getElem?_store h, Heap.deref]
      intro hmem
      obtain rfl : x = a := mem_singleton.mp hmem
      exact hnot hx
    obtain ⟨h₂, hrun₂, -⟩ := (hone.congr fun x hx => hkept x (by
      rwa [mem_singleton.mp hx])).free hL
    have hdrop : bs ++ room.drop bs.length = bs := by
      rw [drop_of_length_le (by omega), append_nil]
    refine ⟨h₂, ?_⟩
    simp only [hu.gather, bind, Except.bind, hdrop, hlen, if_pos (Nat.le_refl bs.length),
      cancelIf, Bool.not_false, if_true, hrun, hrun₂]
    cases accepted <;> rfl

/-- **What is sent is what has been appended**: whatever is given to a run of
calls of `append`, each reports all of its bytes or none, and none where an
allocation fails; a datagram is what has been appended, in order. -/
theorem appends_sent (hL : Documented L) {calls : List (Allocator × List UInt8)}
    (hcalls : ∀ call ∈ calls, Allocates call.1 ∧ InMemory call.2) (h : TxHeap) :
    ∃ reports u h₁, appendAll L calls init h = .ok (reports, u, h₁) ∧
      List.Forall₂ Reports calls reports ∧
      ((∀ r ∈ reports, r.2 = true) → (given calls).length ≤ mostBytes →
        appended calls reports = given calls) ∧
      ∀ alloc accepted, Allocates alloc → ∃ h₂, send L alloc accepted u h₁ =
        .ok (if (alloc (appended calls reports).length h₁).isSome
            then some (appended calls reports) else none,
          (alloc (appended calls reports).length h₁).isSome && accepted, init, h₂) := by
  obtain ⟨reports, u, h₁, hrun, hu, hreports, hall⟩ := (Sending.empty h).appendAll hL hcalls
  rw [nil_append] at hu
  rw [length_nil, Nat.zero_add] at hall
  exact ⟨reports, u, h₁, hrun, hreports, hall, fun _ accepted halloc =>
    hu.send hL halloc accepted⟩

def firstFree : Allocator := fun len h =>
  (h.findIdx? Option.isNone).map fun a => (a, List.replicate len 0)

theorem firstFree_allocates : Allocates firstFree := by
  intro len h a room hroom
  obtain ⟨i, hfind, hpair⟩ := Option.map_eq_some_iff.mp hroom
  obtain ⟨rfl, rfl⟩ := Prod.mk.inj hpair
  obtain ⟨hlt, hnone, -⟩ := findIdx?_eq_some_iff_getElem.mp hfind
  refine ⟨?_, length_replicate⟩
  rw [Heap.Free, getElem?_eq_getElem hlt, Option.isNone_iff_eq_none.mp hnone]

theorem appends_sent_sample :
    ∃ reports u h₁, appendAll plain [(firstFree, [1, 2, 3]), (firstFree, [4])] init
        [none, none] = .ok (reports, u, h₁) ∧
      List.Forall₂ Reports [(firstFree, [1, 2, 3]), (firstFree, [4])] reports ∧
      ((∀ r ∈ reports, r.2 = true) →
        (given [(firstFree, [1, 2, 3]), (firstFree, [4])]).length ≤ mostBytes →
        appended [(firstFree, [1, 2, 3]), (firstFree, [4])] reports =
          given [(firstFree, [1, 2, 3]), (firstFree, [4])]) ∧
      ∀ alloc accepted, Allocates alloc → ∃ h₂, send plain alloc accepted u h₁ =
        .ok (if (alloc (appended [(firstFree, [1, 2, 3]), (firstFree, [4])] reports).length
              h₁).isSome
            then some (appended [(firstFree, [1, 2, 3]), (firstFree, [4])] reports) else none,
          (alloc (appended [(firstFree, [1, 2, 3]), (firstFree, [4])] reports).length
            h₁).isSome && accepted, init, h₂) :=
  appends_sent plain_documented
    (forall_mem_cons.mpr ⟨⟨firstFree_allocates, by decide⟩,
      forall_mem_cons.mpr ⟨⟨firstFree_allocates, by decide⟩, by simp⟩⟩) [none, none]

end TxContext

end Udp
