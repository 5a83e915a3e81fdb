import RalioFirmware.Core.WStringInv

/-!
# Growing a `String`

`reserve` and the functions that append compute a length, a size rounded up to sixteen and a
capacity, in 32 bits, and keep the capacity in sixteen.  The one sum that is not safe from its wrap
is the round-up: from 2 ^ 32 - 16 on it comes to nothing, and `realloc` gives the block back of the
very `String` that is to stay as it was.
-/

namespace WString

open Word Bytes CString

namespace Str

/-! ## Room -/

/-- `t` has room for what was asked, and the characters of `s`. -/
structure Roomy (asked : Nat) (s t : Str) : Prop extends Held t where
  len_eq : t.len = s.len
  room : asked ≤ t.capacity
  contents_eq : t.contents = s.contents

variable {s : Str} {env : Env}

theorem Held.len_lt (h : s.Held) : s.len < 65535 :=
  Nat.lt_of_le_of_lt h.bound h.capacity_lt

theorem Held.contents_length (h : s.Held) : s.contents.length = s.len := by
  have hbound := h.bound
  have hsize := h.size
  rw [contents, List.length_take]
  omega

theorem Held.roomy (h : s.Held) {size : Nat} (hsize : size ≤ s.capacity) : Roomy size s s :=
  { h with len_eq := rfl, room := hsize, contents_eq := rfl }

theorem Extended.roomy {size : Nat} {t : Str} (ht : Extended size s t) (h : s.Held) :
    Roomy size s t := by
  obtain ⟨n, hbuff⟩ := ht.buff_eq
  refine { ht.toHeld with len_eq := ht.len_eq, room := ht.room, contents_eq := ?_ }
  have hbound := h.bound
  have hsize := h.size
  rw [contents, ht.len_eq, hbuff, List.take_append_of_le_length (by omega), contents]

theorem Roomy.write_nul {size : Nat} {t : Str} (ht : Roomy size s t) (hempty : t.len = 0) :
    Roomy size s (t.write 0 [0]) := by
  refine { ht.toSized.write ?_ with
    bound := ht.bound, len_eq := ht.len_eq, room := ht.room, contents_eq := ?_ }
  · rw [List.length_singleton]
    omega
  · rw [← ht.contents_eq, contents, contents, write_len, hempty, List.take_zero, List.take_zero]

/-- **`reserve` makes room or leaves the `String` as it is.** -/
theorem reserve_held (env : Env) (h : s.Held) {size : Nat} (hlt : size < 4294967296)
    (hfit : s.Reservable size) :
    s.reserve env size = (false, s) ∨ ∃ t, s.reserve env size = (true, t) ∧ Roomy size s t := by
  unfold reserve
  by_cases hroom : s.capacity ≥ size
  · rw [if_pos hroom]
    exact Or.inr ⟨s, rfl, h.roomy hroom⟩
  · rw [if_neg hroom]
    obtain hsame | ⟨t, hgrown, ht⟩ := changeBuffer_held env h hlt hfit (by omega)
    · rw [hsame]
      exact Or.inl rfl
    · rw [hgrown]
      have hroomy := ht.roomy h
      refine Or.inr ⟨_, rfl, ?_⟩
      split
      · rename_i hempty
        exact hroomy.write_nul hempty
      · exact hroomy

theorem Roomy.append {src : List UInt8} {t : Str} (ht : Roomy (s.len + src.length) s t) :
    (((t.write t.len src).setLen (s.len + src.length)).write (s.len + src.length) [0]).Inv ∧
      (((t.write t.len src).setLen (s.len + src.length)).write (s.len + src.length) [0]).contents =
        s.contents ++ src := by
  have hroom := ht.room
  have hlen := ht.len_eq
  have hsize := ht.size
  have hsized : (t.write t.len src).Sized := ht.toSized.write (by omega)
  refine ⟨hsized.terminate hroom, ?_⟩
  have hlength : (memcpy t.buff t.len src).length = t.buff.length := memcpy_length (by omega)
  have htake : (memcpy t.buff t.len src).take (s.len + src.length) = s.contents ++ src := by
    rw [← hlen, memcpy_take (by omega), ← ht.contents_eq, contents]
  have hlast : (memcpy (memcpy t.buff t.len src) (s.len + src.length) [0]).take
      (s.len + src.length) = (memcpy t.buff t.len src).take (s.len + src.length) := by
    rw [memcpy, List.append_assoc, List.take_append_of_le_length (by simp; omega),
      List.take_take, Nat.min_self]
  have hset := hsized.setLen_len (show s.len + src.length ≤ _ from hroom)
  show (memcpy (memcpy t.buff t.len src) (s.len + src.length) [0]).take
    ((t.write t.len src).setLen (s.len + src.length)).len = _
  rw [hset, hlast, htake]

/-! ## What growing is to do -/

/-- A `String` asked to grow to a size and to a text does so, or stays as it is. -/
structure GrowsTo (s : Str) (size : Nat) (text : List UInt8) (r : Bool × Str) : Prop where
  room : r.1 = true → size + 1 ≤ r.2.buff.length ∧ size ≤ r.2.capacity
  contents : r.1 = true → r.2.contents = text
  unchanged : r.1 = false → r.2 = s
  fits : r.2.isSSO = false → r.2.cap < 65536

/-- The size of a block for so many characters is what it is without a wrap. -/
def ExactSize (s : Str) (size : Nat) : Prop := s.capacity < size → u32 (size + 16) = size + 16

/-- `reserve`, as it is meant. -/
def Reserves (s : Str) (env : Env) (size : Nat) : Prop :=
  GrowsTo s size s.contents (s.reserve env size) ∧ s.ExactSize size

/-- `concat`, as it is meant. -/
def Concats (s : Str) (env : Env) (cstr : List UInt8) (length : Nat) : Prop :=
  GrowsTo s (s.len + length) (s.contents ++ cstr.take length) (s.concat env cstr length) ∧
    u32 (s.len + length) = s.len + length ∧ s.ExactSize (s.len + length)

/-- `concat` of a `String` to itself, as it is meant. -/
def Doubles (s : Str) (env : Env) : Prop :=
  GrowsTo s (2 * s.len) (s.contents ++ s.contents) (s.concatSelf env) ∧ s.ExactSize (2 * s.len)

theorem Held.fits (h : s.Held) (hheap : s.isSSO = false) : s.cap < 65536 :=
  Nat.lt_succ_of_lt (h.block hheap).2

theorem Held.growsTo_same (h : s.Held) (size : Nat) (text : List UInt8) :
    GrowsTo s size text (false, s) where
  room := fun hno => by cases hno
  contents := fun hno => by cases hno
  unchanged := fun _ => rfl
  fits := h.fits

theorem Held.growsTo {t : Str} (ht : t.Held) {size : Nat} {text : List UInt8}
    (hroom : size ≤ t.capacity) (htext : t.contents = text) : GrowsTo s size text (true, t) where
  room := fun _ => ⟨by rw [ht.size]; exact Nat.succ_le_succ hroom, hroom⟩
  contents := fun _ => htext
  unchanged := fun hno => by cases hno
  fits := ht.fits

theorem Held.exactSize_iff (h : s.Held) {n : Nat} : s.ExactSize n ↔ n + 16 < 4294967296 := by
  have hcap := h.capacity_lt
  have hiff : u32 (n + 16) = n + 16 ↔ n + 16 < 4294967296 := by
    unfold u32
    omega
  rw [ExactSize, hiff]
  constructor
  · grind
  · intro hlt _
    exact hlt

/-! ## The functions -/

/-- **`reserve`** does as it is meant just where the size does not wrap. -/
theorem reserves_iff (env : Env) (h : s.Held) {size : Nat} (hlt : size < 4294967296) :
    Reserves s env size ↔ size + 16 < 4294967296 := by
  constructor
  · intro hres
    exact h.exactSize_iff.mp hres.2
  · intro hfit
    refine ⟨?_, h.exactSize_iff.mpr hfit⟩
    obtain heq | ⟨t, heq, ht⟩ := reserve_held env h hlt (.inr hfit)
    · rw [heq]
      exact h.growsTo_same size _
    · rw [heq]
      exact ht.toHeld.growsTo ht.room ht.contents_eq

theorem appended (env : Env) (h : s.Held) {src : List UInt8}
    (hfit : s.len + src.length + 16 < 4294967296) :
    GrowsTo s (s.len + src.length) (s.contents ++ src)
      (match s.reserve env (s.len + src.length) with
      | (false, s) => (false, s)
      | (true, t) => (true, ((t.write t.len src).setLen (s.len + src.length)).write
          (s.len + src.length) [0])) := by
  obtain heq | ⟨t, heq, ht⟩ := reserve_held env h (by omega) (.inr hfit)
  · rw [heq]
    exact h.growsTo_same _ _
  · rw [heq]
    obtain ⟨hinv, htext⟩ := ht.append
    exact hinv.held.growsTo ht.room htext

/-- **`concat`** does as it is meant just where neither the length nor the size wraps. -/
theorem concats_iff (env : Env) (h : s.Held) {cstr : List UInt8} {length : Nat}
    (hchars : length ≤ cstr.length) :
    Concats s env cstr length ↔ s.len + length + 16 < 4294967296 := by
  constructor
  · intro hconcats
    exact h.exactSize_iff.mp hconcats.2.2
  · intro hfit
    have hexact : u32 (s.len + length) = s.len + length := u32_of_lt (by omega)
    refine ⟨?_, hexact, h.exactSize_iff.mpr hfit⟩
    unfold concat
    simp only [hexact]
    by_cases hnone : length = 0
    · subst hnone
      rw [if_pos rfl, List.take_zero, List.append_nil, Nat.add_zero]
      exact h.growsTo h.bound rfl
    · rw [if_neg hnone]
      have hlength : (cstr.take length).length = length := by
        rw [List.length_take, Nat.min_eq_left hchars]
      have happended := @appended s env h (cstr.take length) (by rw [hlength]; exact hfit)
      rw [hlength] at happended
      exact happended

/-- **`concat` of a `String` to itself** always does as it is meant. -/
theorem doubles (env : Env) (h : s.Held) : Doubles s env := by
  have hlen := h.len_lt
  have hlength := h.contents_length
  refine ⟨?_, h.exactSize_iff.mpr (by omega)⟩
  unfold concatSelf
  simp only
  by_cases hnone : s.len = 0
  · have hempty : s.contents = [] := by rw [contents, hnone, List.take_zero]
    rw [if_pos hnone, hempty, hnone]
    exact h.growsTo (Nat.zero_le _) hempty
  · rw [if_neg hnone]
    obtain heq | ⟨t, heq, ht⟩ := reserve_held env h (show 2 * s.len < 4294967296 by omega)
      (.inr (by omega))
    · rw [heq]
      exact h.growsTo_same _ _
    · rw [heq]
      have hsum : 2 * s.len = s.len + s.contents.length := by omega
      rw [hsum] at ht ⊢
      obtain ⟨hinv, htext⟩ := ht.append
      simp only [ht.contents_eq]
      exact hinv.held.growsTo ht.room htext

/-- **Growing a `String`** leaves it with room for what was asked and the old characters in front,
or as it was, with no sum that wraps, for every size just below 2 ^ 32 - 16. -/
theorem growth_iff (s : Str) (env : Env) (h : s.Held) :
    (∀ size < 4294967296, Reserves s env size ↔ size + 16 < 4294967296) ∧
    (∀ (cstr : List UInt8) (length : Nat), length ≤ cstr.length →
      (Concats s env cstr length ↔ s.len + length + 16 < 4294967296)) ∧
    Doubles s env :=
  ⟨fun _ hlt => reserves_iff env h hlt, fun _ _ hchars => concats_iff env h hchars, doubles env h⟩

def onHeap : Str := ⟨true, List.replicate 16 0, 15, 0⟩

theorem onHeap_held : onHeap.Held := ⟨⟨by decide, by decide⟩, by decide⟩

/-- The characters on the heap, and a request of twenty of them. -/
theorem growth_iff_sample :
    Reserves onHeap ⟨true, Vector.replicate 11 0⟩ 20 :=
  ((growth_iff onHeap ⟨true, Vector.replicate 11 0⟩ onHeap_held).1 20 (by decide)).mpr (by decide)

/-- A request of 2 ^ 32 - 16 gives the block back, and says that nothing has changed. -/
theorem not_growth :
    ¬ ∀ (s : Str) (env : Env) (size : Nat), s.Held → size < 4294967296 →
      (s.reserve env size).1 = false → (s.reserve env size).2 = s := by
  intro h
  have hsame := h onHeap ⟨true, Vector.replicate 11 0⟩ 4294967280 onHeap_held (by decide)
    (by decide)
  exact absurd hsame (by decide)

end Str

end WString
