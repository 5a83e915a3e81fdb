import Mathlib.Data.List.Nodup
import Mathlib.Data.List.Perm.Subperm
import RalioFirmware.Basis.Links

/-!
# Chains of packet buffers

lwIP hands a packet over as a chain of `pbuf`s, each with a count of the references to
it.  Its functions on them are not part of this repository: `Pbuf.Api` takes them as
they come, `Pbuf.Documented` is what their documentation says about a chain that nobody
else refers to, and `Pbuf.plain` are functions that do what it says.  `Holds` reads a
chain as the list of what its buffers contain.
-/

namespace Pbuf

open Links List
open Option (bind_some getD_some join_some map_some some.inj)

abbrev Ptr := Nat

/-- What does not change in a buffer when it is chained: `placed` is the object, if any,
that was constructed in the payload. -/
structure Content (Obj : Type) where
  payload : List UInt8
  flags : UInt8
  placed : Option Obj

/-- `struct pbuf`. -/
structure Buf (Obj : Type) where
  next : Option Ptr
  tot_len : Nat
  ref : Nat
  content : Content Obj

variable {Obj : Type}

def Buf.payload (b : Buf Obj) : List UInt8 := b.content.payload

def Buf.len (b : Buf Obj) : Nat := b.payload.length

/-- The memory of the buffers: what is allocated at an address. -/
abbrev Heap (Obj : Type) := List (Option (Buf Obj))

namespace Heap

def deref (h : Heap Obj) (a : Ptr) : Option (Buf Obj) := h[a]?.join

def nextOf (h : Heap Obj) (a : Ptr) : Option Ptr := (h.deref a).bind Buf.next

def refOf (h : Heap Obj) (a : Ptr) : Nat := ((h.deref a).map Buf.ref).getD 0

def Free (h : Heap Obj) (a : Ptr) : Prop := h[a]? = some none

instance freeDecidable (h : Heap Obj) (a : Ptr) : Decidable (h.Free a) :=
  decidable_of_iff (h[a]?.any Option.isNone = true) (by
    unfold Free
    cases h[a]? with
    | none => simp
    | some cell => cases cell <;> simp)

/-- Every buffer on the way to the end of a chain is allocated. -/
def linked (h : Heap Obj) : Nat → Option Ptr → Bool
  | _, none => true
  | 0, some _ => false
  | n + 1, some a =>
    match h.deref a with
    | none => false
    | some b => h.linked n b.next

variable {h : Heap Obj} {a c : Ptr} {b : Buf Obj}

theorem lt_length_of_deref (hb : h.deref a = some b) : a < h.length := by
  by_contra hlt
  rw [deref, getElem?_eq_none (Nat.le_of_not_lt hlt)] at hb
  cases hb

theorem length_le {ns : List Ptr} (hnodup : ns.Nodup) (hall : ∀ a ∈ ns, (h.deref a).isSome) :
    ns.length ≤ h.length := by
  have hsub : ns ⊆ range h.length := fun a ha => by
    obtain ⟨b, hb⟩ := Option.isSome_iff_exists.mp (hall a ha)
    exact mem_range.mpr (lt_length_of_deref hb)
  have hle := (subperm_of_subset hnodup hsub).length_le
  rwa [length_range] at hle

theorem linked_of_path {p : Option Ptr} {ns : List Ptr} (hpath : Path h.nextOf p ns none)
    (hall : ∀ a ∈ ns, (h.deref a).isSome) {n : Nat} (hn : ns.length ≤ n) :
    h.linked n p = true := by
  induction ns generalizing p n with
  | nil =>
    obtain rfl : p = none := hpath
    cases n <;> rfl
  | cons a ns ih =>
    obtain ⟨rfl, hrest⟩ := hpath
    obtain ⟨b, hb⟩ := Option.isSome_iff_exists.mp (hall a mem_cons_self)
    cases n with
    | zero => simp at hn
    | succ n =>
      rw [nextOf, hb] at hrest
      rw [linked, hb]
      exact ih hrest (fun c hc => hall c (mem_cons_of_mem a hc)) (by simpa using hn)

theorem isSome_of_refOf (ha : 0 < h.refOf a) : (h.deref a).isSome := by
  cases hb : h.deref a with
  | none =>
    rw [refOf, hb] at ha
    exact absurd ha (Nat.lt_irrefl 0)
  | some b => rfl

theorem deref_set (ha : a < h.length) (x : Option (Buf Obj)) (c : Ptr) :
    Heap.deref (h.set a x) c = if c = a then x else h.deref c := by
  unfold deref
  by_cases hca : c = a
  · subst hca
    rw [if_pos rfl, getElem?_set_self ha, join_some]
  · rw [if_neg hca, getElem?_set_ne (Ne.symm hca)]

theorem Free.deref (hf : h.Free a) : h.deref a = none := by
  rw [Heap.deref, show h[a]? = some none from hf, join_some]

theorem Free.lt_length (hf : h.Free a) : a < h.length := by
  by_contra hlt
  rw [Free, getElem?_eq_none (Nat.le_of_not_lt hlt)] at hf
  cases hf

end Heap

def bytes (cs : List (Content Obj)) : List UInt8 := cs.flatMap Content.payload

@[simp] theorem bytes_nil : bytes ([] : List (Content Obj)) = [] := rfl

@[simp] theorem bytes_cons (c : Content Obj) (cs : List (Content Obj)) :
    bytes (c :: cs) = c.payload ++ bytes cs := rfl

@[simp] theorem bytes_append (cs ds : List (Content Obj)) :
    bytes (cs ++ ds) = bytes cs ++ bytes ds := flatMap_append

theorem length_le_bytes {c : Content Obj} {cs : List (Content Obj)} (hc : c ∈ cs) :
    c.payload.length ≤ (bytes cs).length := by
  induction cs with
  | nil => exact absurd hc not_mem_nil
  | cons d cs ih =>
    rw [bytes_cons, length_append]
    rcases mem_cons.mp hc with rfl | hc
    · exact Nat.le_add_right _ _
    · exact Nat.le_add_left_of_le (ih hc)

/-- From `p` a chain leads through the buffers `ns`, which contain `cs` and which nothing
else refers to. -/
inductive Holds (h : Heap Obj) : Option Ptr → List Ptr → List (Content Obj) → Prop
  | nil : Holds h none [] []
  | cons {a : Ptr} {ns : List Ptr} {c : Content Obj} {cs : List (Content Obj)}
      {q : Option Ptr} :
      h.deref a = some ⟨q, (bytes (c :: cs)).length % 65536, 1, c⟩ → a ∉ ns →
      Holds h q ns cs → Holds h (some a) (a :: ns) (c :: cs)

/-! ## lwIP's functions -/

/-- The functions on `pbuf`s; `pbuf_get_contiguous` gives the bytes behind the pointer that
it returns. -/
structure Api (Obj : Type) where
  pbuf_ref : Ptr → Heap Obj → Heap Obj
  pbuf_free : Ptr → Heap Obj → Heap Obj
  pbuf_cat : Ptr → Ptr → Heap Obj → Heap Obj
  pbuf_get_at : Heap Obj → Ptr → Nat → UInt8
  pbuf_get_contiguous : Heap Obj → Ptr → Nat → Nat → Option (List UInt8)

structure Documented (L : Api Obj) : Prop where
  /-- The reference count is incremented. -/
  ref : ∀ (h : Heap Obj) (p : Ptr) (b : Buf Obj), h.deref p = some b → ∀ a,
    (L.pbuf_ref p h).deref a = if a = p then some { b with ref := b.ref + 1 } else h.deref a
  /-- Counts are decremented and buffers deallocated from the head of the chain, up to the
  first one whose count is not zero then. -/
  free : ∀ (h : Heap Obj) (p : Ptr) (ns : List Ptr) (q : Option Ptr),
    Path h.nextOf (some p) ns q → ns.Nodup → (∀ a ∈ ns, h.refOf a = 1) →
    (∀ r, q = some r → 1 < h.refOf r) → ∀ a,
    (L.pbuf_free p h).deref a =
      if a ∈ ns then none
      else if q = some a then (h.deref a).map fun b => { b with ref := b.ref - 1 }
      else h.deref a
  /-- The tail is linked to the last buffer of the head, and its length added to each. -/
  cat : ∀ (h : Heap Obj) (p q : Ptr) (ns ms : List Ptr) (cs ds : List (Content Obj)),
    Holds h (some p) ns cs → Holds h (some q) ms ds → (∀ a ∈ ns, a ∉ ms) → ∀ a,
    (L.pbuf_cat p q h).deref a =
      if a ∈ ns then (h.deref a).map fun b => { b with
        next := b.next.or (some q)
        tot_len := (b.tot_len + (bytes ds).length % 65536) % 65536 }
      else h.deref a
  /-- One byte, from a position inside of the chain. -/
  get_at : ∀ (h : Heap Obj) (p : Ptr) (ns : List Ptr) (cs : List (Content Obj)) (i : Nat)
    (hi : i < (bytes cs).length), Holds h (some p) ns cs →
    L.pbuf_get_at h p i = (bytes cs)[i]
  /-- A stretch of the bytes that does not run over the end. -/
  get_contiguous : ∀ (h : Heap Obj) (p : Ptr) (ns : List Ptr) (cs : List (Content Obj))
    (len offset : Nat), Holds h (some p) ns cs → 0 < len → offset + len ≤ (bytes cs).length →
    L.pbuf_get_contiguous h p len offset = some (((bytes cs).drop offset).take len)

/-- How a run of the program may end early: an `assert` fails, or something is used that is
not allocated. -/
inductive Halt
  | assertion
  | access
deriving DecidableEq

namespace Api

def onChain (h : Heap Obj) (p : Ptr) {α : Type} (result : α) : Except Halt α :=
  if h.linked h.length (some p) then .ok result else .error .access

def ref (L : Api Obj) (p : Ptr) (h : Heap Obj) : Except Halt (Heap Obj) :=
  onChain h p (L.pbuf_ref p h)

def free (L : Api Obj) (p : Ptr) (h : Heap Obj) : Except Halt (Heap Obj) :=
  onChain h p (L.pbuf_free p h)

def cat (L : Api Obj) (p q : Ptr) (h : Heap Obj) : Except Halt (Heap Obj) := do
  onChain h p ()
  onChain h q (L.pbuf_cat p q h)

def get_at (L : Api Obj) (h : Heap Obj) (p : Ptr) (offset : Nat) : Except Halt UInt8 :=
  onChain h p (L.pbuf_get_at h p offset)

def get_contiguous (L : Api Obj) (h : Heap Obj) (p : Ptr) (len offset : Nat) :
    Except Halt (Option (List UInt8)) :=
  onChain h p (L.pbuf_get_contiguous h p len offset)

end Api

/-- A chain that lwIP has allocated, with the contents at the addresses. -/
def store (h : Heap Obj) : List (Ptr × Content Obj) → Heap Obj
  | [] => h
  | (a, c) :: rest =>
    List.set (store h rest) a
      (some ⟨rest.head?.map Prod.fst, (bytes (c :: rest.map Prod.snd)).length % 65536, 1, c⟩)

structure Fresh (h : Heap Obj) (ns : List Ptr) : Prop where
  nodup : ns.Nodup
  free : ∀ a ∈ ns, h.Free a

instance freshDecidable (h : Heap Obj) (ns : List Ptr) : Decidable (Fresh h ns) :=
  decidable_of_iff (ns.Nodup ∧ ∀ a ∈ ns, h.Free a)
    ⟨fun hf => ⟨hf.1, hf.2⟩, fun hf => ⟨hf.nodup, hf.free⟩⟩

/-! ## A chain and its contents -/

namespace Holds

variable {h h' : Heap Obj} {p q : Option Ptr} {ns ms : List Ptr} {cs ds : List (Content Obj)}
  {a : Ptr}

theorem length_eq (hh : Holds h p ns cs) : ns.length = cs.length := by
  induction hh with
  | nil => rfl
  | cons _ _ _ ih => rw [length_cons, length_cons, ih]

theorem nodup (hh : Holds h p ns cs) : ns.Nodup := by
  induction hh with
  | nil => exact nodup_nil
  | cons _ ha _ ih => exact nodup_cons.mpr ⟨ha, ih⟩

theorem path (hh : Holds h p ns cs) : Path h.nextOf p ns none := by
  induction hh with
  | nil => rfl
  | cons hderef _ _ ih =>
    refine ⟨rfl, ?_⟩
    rwa [Heap.nextOf, hderef]

theorem head_eq (hh : Holds h p ns cs) : p = ns.head? := hh.path.head

theorem deref_of_mem (hh : Holds h p ns cs) (ha : a ∈ ns) :
    ∃ b, h.deref a = some b ∧ b.ref = 1 := by
  induction hh with
  | nil => exact absurd ha not_mem_nil
  | cons hderef _ _ ih =>
    rcases mem_cons.mp ha with rfl | ha
    · exact ⟨_, hderef, rfl⟩
    · exact ih ha

theorem refOf_of_mem (hh : Holds h p ns cs) (ha : a ∈ ns) : h.refOf a = 1 := by
  obtain ⟨b, hb, href⟩ := hh.deref_of_mem ha
  rw [Heap.refOf, hb, map_some, href, getD_some]

theorem not_mem_of_free (hh : Holds h p ns cs) (ha : h.Free a) : a ∉ ns := by
  intro hmem
  obtain ⟨b, hb, -⟩ := hh.deref_of_mem hmem
  rw [ha.deref] at hb
  cases hb

theorem congr (hh : Holds h p ns cs) (hsame : ∀ a ∈ ns, h'.deref a = h.deref a) :
    Holds h' p ns cs := by
  induction hh with
  | nil => exact .nil
  | cons hderef ha _ ih =>
    refine .cons ?_ ha (ih fun b hb => hsame b (mem_cons_of_mem _ hb))
    rw [hsame _ mem_cons_self, hderef]

theorem isSome_of_mem (hh : Holds h p ns cs) (ha : a ∈ ns) : (h.deref a).isSome :=
  Heap.isSome_of_refOf (by rw [hh.refOf_of_mem ha]; exact Nat.one_pos)

theorem length_le (hh : Holds h p ns cs) : ns.length ≤ h.length :=
  Heap.length_le hh.nodup fun _ ha => hh.isSome_of_mem ha

theorem onChain {p : Ptr} (hh : Holds h (some p) ns cs) {α : Type} (result : α) :
    Api.onChain h p result = .ok result :=
  if_pos (Heap.linked_of_path hh.path (fun _ ha => hh.isSome_of_mem ha) hh.length_le)

variable {es fs : List (Content Obj)}

variable {xs ys : List Ptr}

theorem suffix
    (hh : Holds h p (xs ++ ys) (es ++ fs)) (hlen : xs.length = es.length) :
    ∃ q, Path h.nextOf p xs q ∧ Holds h q ys fs := by
  induction xs generalizing p es with
  | nil =>
    obtain rfl := length_eq_zero_iff.mp hlen.symm
    exact ⟨p, rfl, hh⟩
  | cons a xs ih =>
    cases es with
    | nil => cases hlen
    | cons e es =>
      cases hh with
      | cons hderef _ hrest =>
        obtain ⟨r, hpath, hsuffix⟩ := ih hrest (by simpa using hlen)
        refine ⟨r, ⟨rfl, ?_⟩, hsuffix⟩
        rwa [Heap.nextOf, hderef]

theorem exists_split (hh : Holds h p ns (es ++ fs)) :
    ∃ xs ys, ns = xs ++ ys ∧ xs.length = es.length ∧ ys.length = fs.length := by
  refine ⟨ns.take es.length, ns.drop es.length, (take_append_drop _ _).symm, ?_, ?_⟩
  · have hlen := hh.length_eq
    simp only [length_take, length_append] at hlen ⊢
    omega
  · have hlen := hh.length_eq
    simp only [length_drop, length_append] at hlen ⊢
    omega

/-! ### What lwIP's functions make of a chain -/

variable {L : Api Obj}

theorem cat (hL : Documented L) {p q : Ptr} (hh : Holds h (some p) ns cs)
    (hq : Holds h (some q) ms ds) (hdis : ∀ a ∈ ns, a ∉ ms) :
    ∃ h₁, L.cat p q h = .ok h₁ ∧ Holds h₁ (some p) (ns ++ ms) (cs ++ ds) ∧
      ∀ a ∉ ns, h₁.deref a = h.deref a := by
  have hcat := hL.cat h p q ns ms cs ds hh hq hdis
  have hrest : ∀ {r : Option Ptr} {xs : List Ptr} {es : List (Content Obj)},
      Holds h r xs es → (∀ a ∈ xs, a ∈ ns) →
      Holds (L.pbuf_cat p q h) (r.or (some q)) (xs ++ ms) (es ++ ds) := by
    intro r xs es hxs
    induction hxs with
    | nil =>
      intro _
      refine hq.congr fun a ha => ?_
      rw [hcat, if_neg fun hmem => hdis a hmem ha]
    | @cons a xs c es r hderef ha _ ih =>
      intro hsub
      have hmem : a ∈ ns := hsub a mem_cons_self
      show Holds (L.pbuf_cat p q h) (some a) (a :: (xs ++ ms)) (c :: (es ++ ds))
      refine .cons ?_ ?_ (ih fun b hb => hsub b (mem_cons_of_mem a hb))
      · rw [hcat, if_pos hmem, hderef, map_some]
        simp only [bytes_cons, bytes_append, length_append, Option.some.injEq,
          Buf.mk.injEq, true_and, and_true]
        omega
      · exact fun h' => (mem_append.mp h').elim ha (hdis a hmem)
  refine ⟨L.pbuf_cat p q h, ?_, hrest hh fun _ ha => ha, fun a ha => by rw [hcat, if_neg ha]⟩
  rw [Api.cat, hh.onChain, hq.onChain]
  rfl

theorem free (hL : Documented L) {p : Ptr} (hh : Holds h (some p) ns cs) :
    ∃ h₁, L.free p h = .ok h₁ ∧ ∀ a, h₁.deref a = if a ∈ ns then none else h.deref a := by
  refine ⟨L.pbuf_free p h, hh.onChain _, fun a => ?_⟩
  rw [hL.free h p ns none hh.path hh.nodup (fun a ha => hh.refOf_of_mem ha) (fun r hr => by
    cases hr) a]
  simp

theorem drop (hL : Documented L) {p y : Ptr}
    (hh : Holds h (some p) (xs ++ y :: ys) (es ++ fs)) (hlen : xs.length = es.length) :
    ∃ h₁ h₂, L.ref y h = .ok h₁ ∧ L.free p h₁ = .ok h₂ ∧ Holds h₂ (some y) (y :: ys) fs ∧
      ∀ a, h₂.deref a = if a ∈ xs then none else h.deref a := by
  obtain ⟨q, hpath, hsuffix⟩ := hh.suffix hlen
  obtain rfl : q = some y := hsuffix.head_eq
  have hnodup := nodup_append.mp hh.nodup
  have hy : y ∉ xs := fun hmem => hnodup.2.2 y hmem y mem_cons_self rfl
  obtain ⟨b, hb, href⟩ := hsuffix.deref_of_mem mem_cons_self
  have hrefed := hL.ref h y b hb
  have hkeep : ∀ a, a ≠ y → (L.pbuf_ref y h).deref a = h.deref a := fun a ha => by
    rw [hrefed, if_neg ha]
  have hnext : ∀ a, (L.pbuf_ref y h).nextOf a = h.nextOf a := fun a => by
    by_cases hay : a = y
    · subst hay
      rw [Heap.nextOf, Heap.nextOf, hrefed, if_pos rfl, hb]
      rfl
    · rw [Heap.nextOf, Heap.nextOf, hkeep a hay]
  have hsome : ∀ a ∈ xs ++ y :: ys, ((L.pbuf_ref y h).deref a).isSome := fun a ha => by
    by_cases hay : a = y
    · rw [hrefed, if_pos hay]
      rfl
    · rw [hkeep a hay]
      exact hh.isSome_of_mem ha
  have hfree := hL.free (L.pbuf_ref y h) p xs (some y) (hpath.congr fun a _ => hnext a) hnodup.1
    (fun a ha => by
      rw [Heap.refOf, hkeep a (ne_of_mem_of_not_mem ha hy)]
      exact hh.refOf_of_mem (mem_append_left _ ha))
    (fun r hr => by
      obtain rfl := some.inj hr
      rw [Heap.refOf, hrefed, if_pos rfl, map_some, getD_some]
      simp only [href]
      omega)
  have hall : ∀ a, (L.pbuf_free p (L.pbuf_ref y h)).deref a =
      if a ∈ xs then none else h.deref a := fun a => by
    rw [hfree]
    by_cases hmem : a ∈ xs
    · rw [if_pos hmem, if_pos hmem]
    · rw [if_neg hmem, if_neg hmem]
      by_cases hay : a = y
      · subst hay
        rw [if_pos rfl, hrefed, if_pos rfl, hb, map_some]
        rfl
      · rw [if_neg fun hsome => hay (some.inj hsome).symm, hkeep a hay]
  refine ⟨_, _, hsuffix.onChain _, if_pos ?_, hsuffix.congr fun a ha => ?_, hall⟩
  · exact Heap.linked_of_path (hh.path.congr fun a _ => hnext a) hsome
      (Heap.length_le hh.nodup hsome)
  · rw [hall, if_neg fun hmem => hnodup.2.2 a hmem a ha rfl]

theorem write {a : Ptr} {c : Content Obj} (c' : Content Obj) {xs ys : List Ptr} {b : Buf Obj}
    (hh : Holds h p (xs ++ a :: ys) (es ++ c :: fs))
    (hlen : xs.length = es.length) (hb : h.deref a = some b)
    (hpayload : c'.payload.length = c.payload.length) :
    Holds (h.set a (some { b with content := c' })) p (xs ++ a :: ys) (es ++ c' :: fs) := by
  have hset := Heap.deref_set (Heap.lt_length_of_deref hb) (some { b with content := c' })
  induction xs generalizing p es with
  | nil =>
    obtain rfl := length_eq_zero_iff.mp hlen.symm
    cases hh with
    | cons hderef ha hrest =>
      rw [hb, Option.some.injEq] at hderef
      subst hderef
      refine .cons ?_ ha (hrest.congr fun x hx => ?_)
      · rw [hset, if_pos rfl, bytes_cons, bytes_cons, length_append,
          length_append, hpayload]
      · rw [hset, if_neg (ne_of_mem_of_not_mem hx ha)]
  | cons x xs ih =>
    cases es with
    | nil => cases hlen
    | cons e es =>
      cases hh with
      | cons hderef hx hrest =>
        have hax : x ≠ a := fun heq => hx (by simp [heq])
        have hsame : (bytes (e :: (es ++ c' :: fs))).length =
            (bytes (e :: (es ++ c :: fs))).length := by
          simp only [bytes_cons, bytes_append, length_append, hpayload]
        refine .cons ?_ hx (ih hrest (by simpa using hlen))
        rw [hset, if_neg hax, hderef]
        exact congrArg (fun n => some (Buf.mk _ (n % 65536) 1 e)) hsame.symm

end Holds

@[simp] theorem length_store (h : Heap Obj) (segs : List (Ptr × Content Obj)) :
    (store h segs).length = h.length := by
  induction segs with
  | nil => rfl
  | cons s segs ih => rw [store, length_set, ih]

variable {segs : List (Ptr × Content Obj)}

theorem getElem?_store (h : Heap Obj) {a : Ptr}
    (ha : a ∉ segs.map Prod.fst) : (store h segs)[a]? = h[a]? := by
  induction segs with
  | nil => rfl
  | cons s segs ih =>
    rw [map_cons, mem_cons, not_or] at ha
    rw [store, getElem?_set_ne (Ne.symm ha.1), ih ha.2]

theorem Holds.store {h : Heap Obj} {p : Option Ptr} {ns : List Ptr}
    {cs : List (Content Obj)} (hh : Holds h p ns cs)
    (hdis : ∀ a ∈ ns, a ∉ segs.map Prod.fst) : Holds (store h segs) p ns cs :=
  hh.congr fun a ha => by rw [Heap.deref, getElem?_store h (hdis a ha), Heap.deref]

theorem Fresh.holds {h : Heap Obj} {segs : List (Ptr × Content Obj)}
    (hf : Fresh h (segs.map Prod.fst)) :
    Holds (store h segs) (segs.head?.map Prod.fst) (segs.map Prod.fst) (segs.map Prod.snd) := by
  obtain ⟨hnodup, hfree⟩ := hf
  have hfrees : ∀ s ∈ segs, h.Free s.1 := fun s hs => hfree s.1 (mem_map_of_mem hs)
  clear hfree
  induction segs with
  | nil => exact .nil
  | cons s segs ih =>
    rw [map_cons, nodup_cons] at hnodup
    have hrest := ih hnodup.2 fun t ht => hfrees t (mem_cons_of_mem s ht)
    have hlt : s.1 < (store h segs).length := by
      rw [length_store]
      exact (hfrees s mem_cons_self).lt_length
    refine .cons (q := segs.head?.map Prod.fst) ?_ hnodup.1 (hrest.congr fun a ha => ?_)
    · rw [store, Heap.deref_set hlt, if_pos rfl]
    · rw [store, Heap.deref_set hlt, if_neg (ne_of_mem_of_not_mem ha hnodup.1)]

theorem holds_one {h : Heap Obj} {a : Ptr} (hf : h.Free a) (c : Content Obj) :
    Holds (store h [(a, c)]) (some a) [a] [c] := by
  have hone : Fresh h [a] := ⟨nodup_singleton a, fun b hb => by
    rwa [mem_singleton.mp hb]⟩
  exact @Fresh.holds Obj h [(a, c)] hone

theorem Holds.store_one {h : Heap Obj} {p : Option Ptr} {ns : List Ptr}
    {cs : List (Content Obj)} {a : Ptr} {c : Content Obj} (hh : Holds h p ns cs)
    (ha : a ∉ ns) : Holds (Pbuf.store h [(a, c)]) p ns cs :=
  hh.store fun b hb hmem => ha (by
    have hba : b = a := mem_singleton.mp hmem
    rwa [← hba])

/-! ## Functions that do what the documentation says -/

def nodes (h : Heap Obj) (p : Ptr) : List Ptr := walk h.nextOf h.length (some p)

def bytesAt (h : Heap Obj) (ns : List Ptr) : List UInt8 :=
  ns.flatMap fun a => ((h.deref a).map Buf.payload).getD []

def adjust (h : Heap Obj) (f : Ptr → Buf Obj → Option (Buf Obj)) : Heap Obj :=
  h.mapIdx fun a cell => cell.bind (f a)

theorem deref_adjust (h : Heap Obj) (f : Ptr → Buf Obj → Option (Buf Obj)) (a : Ptr) :
    (adjust h f).deref a = (h.deref a).bind (f a) := by
  rw [Heap.deref, Heap.deref, adjust, getElem?_mapIdx]
  cases h[a]? with
  | none => rfl
  | some cell => rfl

def plain : Api Obj where
  pbuf_ref p h := adjust h fun a b => some (if a = p then { b with ref := b.ref + 1 } else b)
  pbuf_free p h :=
    let dead := (nodes h p).takeWhile fun a => h.refOf a = 1
    let kept := (nodes h p)[dead.length]?
    adjust h fun a b =>
      if a ∈ dead then none
      else if kept = some a then some { b with ref := b.ref - 1 }
      else some b
  pbuf_cat p q h := adjust h fun a b => some (if a ∈ nodes h p then { b with
      next := b.next.or (some q)
      tot_len := (b.tot_len + ((h.deref q).map Buf.tot_len).getD 0) % 65536 } else b)
  pbuf_get_at h p i := (bytesAt h (nodes h p)).getD i 0
  pbuf_get_contiguous h p len offset :=
    if offset + len ≤ (bytesAt h (nodes h p)).length
    then some (((bytesAt h (nodes h p)).drop offset).take len) else none

theorem Holds.nodes_eq {h : Heap Obj} {p : Ptr} {ns : List Ptr} {cs : List (Content Obj)}
    (hh : Holds h (some p) ns cs) : nodes h p = ns := by
  have hwalk := hh.path.walk_add (h.length - ns.length)
  rwa [Nat.add_sub_cancel' hh.length_le, walk_none, append_nil] at hwalk

theorem Holds.bytesAt_eq {h : Heap Obj} {p : Option Ptr} {ns : List Ptr}
    {cs : List (Content Obj)} (hh : Holds h p ns cs) : bytesAt h ns = bytes cs := by
  induction hh with
  | nil => rfl
  | cons hderef _ _ ih =>
    rw [bytesAt, flatMap_cons, hderef, bytes_cons, ← ih]
    rfl

theorem nodes_eq_append {h : Heap Obj} {p : Ptr} {ns : List Ptr} {q : Option Ptr}
    (hpath : Path h.nextOf (some p) ns q) (hnodup : ns.Nodup) (hone : ∀ a ∈ ns, h.refOf a = 1)
    (hmore : ∀ r, q = some r → 1 < h.refOf r) :
    ∃ rest, nodes h p = ns ++ rest ∧ rest.head? = q := by
  have hns : ∀ a ∈ ns, (h.deref a).isSome := fun a ha =>
    Heap.isSome_of_refOf (by rw [hone a ha]; exact Nat.one_pos)
  cases q with
  | none =>
    have hwalk := hpath.walk_add (h.length - ns.length)
    rw [Nat.add_sub_cancel' (Heap.length_le hnodup hns), walk_none] at hwalk
    exact ⟨[], hwalk, rfl⟩
  | some r =>
    have hr := hmore r rfl
    have hnot : r ∉ ns := fun hmem => by grind
    have hsome := Heap.isSome_of_refOf (Nat.lt_trans Nat.one_pos hr)
    have hle := Heap.length_le (nodup_cons.mpr ⟨hnot, hnodup⟩)
      (forall_mem_cons.mpr ⟨hsome, hns⟩)
    rw [length_cons] at hle
    have hwalk := hpath.walk_add (h.length - ns.length - 1 + 1)
    rw [show ns.length + (h.length - ns.length - 1 + 1) = h.length by omega] at hwalk
    exact ⟨_, hwalk, rfl⟩

/-- **The documentation can be met.** -/
theorem plain_documented : Documented (plain : Api Obj) where
  ref h p b hb a := by
    show Heap.deref (adjust h _) a = _
    rw [deref_adjust]
    by_cases hap : a = p
    · subst hap
      rw [if_pos rfl, hb, bind_some, if_pos rfl]
    · rw [if_neg hap]
      cases h.deref a with
      | none => rfl
      | some c => rw [bind_some, if_neg hap]
  free h p ns q hpath hnodup hone hmore a := by
    obtain ⟨rest, hnodes, hhead⟩ := nodes_eq_append hpath hnodup hone hmore
    have hstop : rest.takeWhile (fun a => h.refOf a = 1) = [] := by
      cases rest with
      | nil => rfl
      | cons r rest =>
        have hr := hmore r hhead.symm
        rw [takeWhile_cons_of_neg]
        simp only [decide_eq_true_eq]
        omega
    have hdead : (nodes h p).takeWhile (fun a => h.refOf a = 1) = ns := by
      rw [hnodes, takeWhile_append_of_pos fun a ha => decide_eq_true (hone a ha), hstop,
        append_nil]
    show Heap.deref (adjust h _) a = _
    rw [deref_adjust, hdead, hnodes, getElem?_append_right (Nat.le_refl _), Nat.sub_self,
      ← head?_eq_getElem?, hhead]
    by_cases hmem : a ∈ ns
    · rw [if_pos hmem]
      cases h.deref a with
      | none => rfl
      | some b => rw [bind_some, if_pos hmem]
    · rw [if_neg hmem]
      cases h.deref a with
      | none => simp
      | some b =>
        grind
  cat h p q ns ms cs ds hh hq _ a := by
    have htot : ((h.deref q).map Buf.tot_len).getD 0 = (bytes ds).length % 65536 := by
      cases hq with
      | cons hderef _ _ => rw [hderef, map_some, getD_some]
    show Heap.deref (adjust h _) a = _
    rw [deref_adjust, hh.nodes_eq, htot]
    by_cases hmem : a ∈ ns
    · rw [if_pos hmem]
      cases h.deref a with
      | none => rfl
      | some b => rw [bind_some, if_pos hmem, map_some]
    · rw [if_neg hmem]
      cases h.deref a with
      | none => rfl
      | some b => rw [bind_some, if_neg hmem]
  get_at h p ns cs i hi hh := by
    show (bytesAt h (nodes h p)).getD i 0 = _
    rw [hh.nodes_eq, hh.bytesAt_eq, getD_eq_getElem?_getD, getElem?_eq_getElem hi,
      getD_some]
  get_contiguous h p ns cs len offset hh _ hle := by
    show (if offset + len ≤ (bytesAt h (nodes h p)).length then _ else none) = _
    rw [hh.nodes_eq, hh.bytesAt_eq, if_pos hle]

end Pbuf
