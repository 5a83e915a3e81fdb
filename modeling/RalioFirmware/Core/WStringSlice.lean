import Mathlib.Data.List.Induction
import RalioFirmware.Core.WStringGrowth
import RalioFirmware.Core.WStringRun

/-!
# The text of a `String` that is read, trimmed and cut

`readStringUntil` appends one character after another and does not look at
whether `+=` found room; `trim` and `substring` leave or give a part of the
characters.  Each of them is given here by the text it comes to, as long as the
heap gives the blocks that are asked of it.
-/

namespace WString

open Word Bytes CString List

namespace Str

variable {s : Str} {env : Env}

def substring (s : Str) (env : Env) (left right : Nat) : Str :=
  let (left, right) := if left > right then (right, left) else (left, right)
  let out := (Call.fresh env).init env
  if left ≥ s.len then out
  else
    let right := if right > s.len then s.len else right
    (out.concat env (s.buff.drop left) (right - left)).2

/-- `substring(left)`. -/
def substringFrom (s : Str) (env : Env) (left : Nat) : Str := s.substring env left s.len

/-- The loop of `readStringUntil` on the bytes that come in time. -/
def readStringLoop (terminator : UInt8) (heap : Nat → Env) : List UInt8 → Str → Str
  | [], ret => ret
  | c :: rest, ret =>
    if c = terminator then ret
    else readStringLoop terminator (fun i => heap (i + 1)) rest (ret.concat (heap 0) [c] 1).2

/-- `Stream::readStringUntil`; the `i`-th character is appended with what the
heap then gives. -/
def readStringUntil (terminator : UInt8) (heap : Nat → Env) (received : List UInt8) : Str :=
  readStringLoop terminator heap received ((Call.fresh (heap 0)).init (heap 0))

/-! ## Appending -/

/-- The longest text that a `String` can have. -/
def MAX_LENGTH : Nat := 65519

theorem changeBuffer_granted (s : Str) (hgranted : env.granted = true) {size : Nat}
    (hten : 10 ≤ size) (hmax : size ≤ MAX_LENGTH) : (s.changeBuffer env size).1 = true := by
  unfold MAX_LENGTH at hmax
  obtain ⟨hlow, hhigh⟩ := rounded_of_lt (show size + 16 < 4294967296 by omega)
  rw [changeBuffer, if_neg (by omega)]
  dsimp only
  rw [if_neg (by rw [u32_of_lt (by omega)]; omega), if_neg (by omega), if_pos hgranted]

theorem reserve_granted (h : s.Held) (hgranted : env.granted = true) {size : Nat}
    (hmax : size ≤ MAX_LENGTH) : (s.reserve env size).1 = true := by
  rw [reserve]
  by_cases hroom : s.capacity ≥ size
  · rw [if_pos hroom]
  · have hcapacity := h.le_capacity
    have hgrown := changeBuffer_granted s hgranted (show 10 ≤ size by omega) hmax
    rw [if_neg hroom]
    generalize s.changeBuffer env size = result at hgrown ⊢
    obtain ⟨ok, t⟩ := result
    obtain rfl : ok = true := hgrown
    rfl

/-- **Appending** with a heap that gives the block, or where no block is
needed. -/
theorem concat_text (h : s.Inv) {src : List UInt8} {length : Nat} (hlength : length ≤ src.length)
    (hroom : s.len + length ≤ s.capacity ∨ env.granted = true)
    (hmax : s.len + length ≤ MAX_LENGTH) :
    (s.concat env src length).2.Inv ∧
      (s.concat env src length).2.contents = s.contents ++ src.take length := by
  unfold MAX_LENGTH at hmax
  refine ⟨concat_inv h ⟨by omega, .inr (by omega)⟩, ?_⟩
  refine ((concats_iff env h.held hlength).2 (by omega)).1.contents ?_
  have hreserved : (s.reserve env (s.len + length)).1 = true := by
    obtain hroom | hgranted := hroom
    · rw [reserve, if_pos hroom]
    · exact reserve_granted h.held hgranted hmax
  rw [concat, u32_of_lt (by omega)]
  split
  · rfl
  · generalize s.reserve env (s.len + length) = result at hreserved ⊢
    obtain ⟨ok, t⟩ := result
    obtain rfl : ok = true := hreserved
    rfl

theorem readStringLoop_text {terminator : UInt8} {heap : Nat → Env} {received : List UInt8}
    {line : List UInt8} (hline : line = received.takeWhile (· ≠ terminator)) {ret : Str}
    (h : ret.Inv) (hgranted : ∀ i < line.length, (heap i).granted = true)
    (hmax : ret.len + line.length ≤ MAX_LENGTH) :
    (readStringLoop terminator heap received ret).Inv ∧
      (readStringLoop terminator heap received ret).contents = ret.contents ++ line := by
  induction received generalizing heap ret line with
  | nil =>
    subst hline
    rw [takeWhile_nil, append_nil]
    exact ⟨h, rfl⟩
  | cons c rest ih =>
    rw [readStringLoop]
    by_cases hc : c = terminator
    · rw [takeWhile_cons_of_neg (by simpa using hc)] at hline
      subst hline
      rw [if_pos hc, append_nil]
      exact ⟨h, rfl⟩
    · rw [takeWhile_cons_of_pos (by simpa using hc)] at hline
      subst hline
      rw [length_cons] at hgranted hmax
      obtain ⟨hinv, htext⟩ := @concat_text _ _ h [c] 1 (Nat.le_refl 1)
        (.inr (hgranted 0 (Nat.succ_pos _))) (by omega)
      have hlen := hinv.contents_length
      rw [htext, length_append, h.contents_length] at hlen
      have hone : ([c].take 1).length = 1 := rfl
      rw [if_neg hc]
      obtain ⟨hdone, hwhole⟩ := ih rfl hinv (fun i hi => hgranted (i + 1) (by omega)) (by omega)
      refine ⟨hdone, ?_⟩
      rw [hwhole, htext, append_assoc]
      rfl

/-- **`readStringUntil`** gives the line where the heap gives the blocks. -/
theorem readStringUntil_text {terminator : UInt8} {heap : Nat → Env} {received line : List UInt8}
    (hline : line = received.takeWhile (· ≠ terminator))
    (hgranted : ∀ i < line.length, (heap i).granted = true) (hmax : line.length ≤ MAX_LENGTH) :
    (readStringUntil terminator heap received).Inv ∧
      (readStringUntil terminator heap received).contents = line := by
  have hempty : ((Call.fresh (heap 0)).init (heap 0)).len = 0 := rfl
  exact readStringLoop_text hline (Call.fresh_init_inv (heap 0)) hgranted
    (by rw [hempty, Nat.zero_add]; exact hmax)

/-! ## Cutting -/

/-- **`substring`** in front of the end of a `String`. -/
theorem substring_text (h : s.Inv) {left right : Nat} (hleft : left ≤ right)
    (hright : right ≤ s.len)
    (hroom : right - left ≤ 10 ∨ env.granted = true) (hmax : s.len ≤ MAX_LENGTH) :
    (s.substring env left right).Inv ∧
      (s.substring env left right).contents = (s.contents.drop left).take (right - left) := by
  have hfresh := Call.fresh_init_inv env
  rw [substring, if_neg (by omega)]
  dsimp only
  by_cases hend : left ≥ s.len
  · rw [if_pos hend]
    refine ⟨hfresh, ?_⟩
    have hnone : right - left = 0 := by omega
    rw [hnone, take_zero]
    rfl
  · rw [if_neg hend, if_neg (by omega)]
    have hlen : ((Call.fresh env).init env).len = 0 := rfl
    have hcapacity : ((Call.fresh env).init env).capacity = 10 := rfl
    obtain ⟨hinv, htext⟩ := @concat_text _ env hfresh (s.buff.drop left) (right - left)
      (by have := h.buff_length_lt; rw [length_drop]; omega)
      (hroom.imp_left fun hten => by rw [hlen, hcapacity]; omega) (by rw [hlen]; omega)
    refine ⟨hinv, ?_⟩
    have hempty : ((Call.fresh env).init env).contents = [] := rfl
    rw [htext, hempty, nil_append, contents, drop_take, take_take,
      Nat.min_eq_left (by omega)]

/-! ## Trimming -/

theorem trimEnd_back {start : Nat} {front core back : List UInt8}
    (hlast : ∃ c, core.getLast? = some c ∧ isspace c = false) (hback : ∀ b ∈ back, isspace b = true)
    (hstart : start ≤ front.length) {rest : List UInt8}
    (hbuff : s.buff = front ++ core ++ back ++ rest) :
    s.trimEnd start ((front ++ core).length + back.length) = (front ++ core).length := by
  induction back using reverseRecOn generalizing rest with
  | nil =>
    obtain ⟨c, hlast, hspace⟩ := hlast
    obtain ⟨begin_, rfl⟩ := getLast?_eq_some_iff.1 hlast
    rw [← append_assoc] at hbuff ⊢
    have hget : s.buff.getD (front ++ begin_).length 0 = c := by grind
    have hlen : (front ++ begin_ ++ [c]).length = (front ++ begin_).length + 1 :=
      length_append
    rw [hlen, length_nil, Nat.add_zero, trimEnd, if_neg]
    rw [hget, hspace]
    exact fun hfalse => absurd hfalse.1 (by decide)
  | append_singleton back b ih =>
    have hget : s.buff.getD ((front ++ core).length + back.length) 0 = b := by grind
    have hlen : (back ++ [b]).length = back.length + 1 := length_append
    rw [hlen, ← Nat.add_assoc, trimEnd, if_pos]
    · refine @ih (fun b hb => hback b (mem_append_left _ hb)) (b :: rest) ?_
      rw [hbuff]
      simp
    · grind

/-- **`trim`** leaves what stands between the blanks. -/
theorem trim_text (h : s.Inv) {front core back : List UInt8}
    (hcontents : s.contents = front ++ core ++ back) (hfront : ∀ b ∈ front, isspace b = true)
    (hfirst : ∃ c, core.head? = some c ∧ isspace c = false)
    (hlast : ∃ c, core.getLast? = some c ∧ isspace c = false)
    (hback : ∀ b ∈ back, isspace b = true) : s.trim.contents = core := by
  have hlength := h.contents_length
  have hbound := h.bound
  have hcapacity := h.capacity_lt
  obtain ⟨c, hhead, hspace⟩ := hfirst
  obtain ⟨rest, rfl⟩ : ∃ rest, core = c :: rest := head?_eq_some_iff.1 hhead
  have hbuff : s.buff = front ++ (c :: rest) ++ back ++ s.buff.drop s.len := by
    rw [← hcontents, contents, take_append_drop]
  have hlen : s.len = front.length + (c :: rest).length + back.length := by
    rw [← hlength, hcontents, length_append, length_append]
  have hstart : s.buff.takeWhile isspace = front := by
    rw [hbuff, append_assoc, append_assoc, takeWhile_append_of_pos hfront,
      cons_append, takeWhile_cons_of_neg (by rw [hspace]; decide), append_nil]
  have hstop := trimEnd_back (s := s) hlast hback (Nat.le_refl _) hbuff
  rw [length_append, ← hlen] at hstop
  have hnew : sub32 (front.length + (c :: rest).length) front.length = (c :: rest).length := by
    rw [sub32_of_le (by omega) (by omega)]
    omega
  have hpos : 0 < (c :: rest).length := Nat.succ_pos _
  rw [trim, if_neg (by omega), hstart]
  dsimp only
  rw [hstop, hnew]
  generalize hcore : c :: rest = core at *
  have hmoved : (if front.length > 0 then (s.buff.drop front.length).take core.length else []) =
      if front.length > 0 then core else [] := by grind
  rw [hmoved]
  have hfits : core.length ≤ s.capacity := by omega
  have hsize := h.size
  have hkept : (memcpy s.buff 0 (if front.length > 0 then core else [])).take core.length =
      core := by
    split
    · rw [memcpy, take_zero, nil_append, take_left']
      rfl
    · rename_i hnone
      have hnil : front = [] := length_eq_zero_iff.1 (by omega)
      have hsame : memcpy s.buff 0 [] = s.buff := by simp [memcpy]
      rw [hsame, hbuff, hnil, nil_append, append_assoc, take_left']
      rfl
  show (memcpy (memcpy s.buff 0 _) core.length [0]).take (s.setLen core.length).len = core
  rw [h.toSized.setLen_len hfits]
  generalize memcpy s.buff 0 (if front.length > 0 then core else []) = moved at hkept ⊢
  rw [memcpy, append_assoc, hkept, take_left']
  rfl

end Str

end WString
