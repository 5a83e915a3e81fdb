import RalioFirmware.Basis.Substitute
import RalioFirmware.Core.WStringReplace

/-!
# What `replace` replaces

For a replacement of the same length and for a shorter one the occurrences are found and replaced
from left to right.  For a longer one they are picked from the end, which comes to the same text
where the places picked from both ends are the same, and no replacement completes an occurrence. -/

namespace WString

open Word Bytes CString Substitute List

namespace Str

variable {s : Str} {env : Env} {find replace : Operand}

/-- A replacement of text that the loops make as it is meant: neither the `String` nor what is
replaced has a NUL, and a longer replacement is another `String` than the one it grows, stands at
the same places from either end and completes no occurrence. -/
structure Textual (s : Str) (find replace : Operand) : Prop where
  needle : (0 : UInt8) ∉ (find.str s).contents
  text : (0 : UInt8) ∉ s.contents
  head : find.isSelf = true → (replace.str s).contents.head? ≠ some 0
  other : (find.str s).len < (replace.str s).len → replace.isSelf = false
  places : (find.str s).len < (replace.str s).len →
    fromEnd (find.str s).contents s.contents = fromStart (find.str s).contents s.contents
  straddles : (find.str s).len < (replace.str s).len →
    ¬ Straddles s.contents (find.str s).contents (replace.str s).contents

theorem Textual.replaceable (h : s.Textual find replace) : s.Replaceable find replace :=
  Or.inr (Or.inr (Or.inr ⟨h.needle, fun hself _ => h.head hself, fun _ => h.text, h.straddles⟩))

/-! ## What is found -/

section

variable {readFrom n : Nat} {needle rest : List UInt8}

theorem found_replaceAll (find : Operand) (text : List UInt8)
    (hneedle : cstr (find.str s).buff = needle) (hne : needle ≠ [])
    (hrest : cstr (s.buff.drop readFrom) = rest) (hfound : s.foundFrom find readFrom = some n) :
    n + needle.length ≤ rest.length ∧
      replaceAll needle text rest =
        rest.take n ++ text ++ replaceAll needle text (rest.drop (n + needle.length)) := by
  obtain ⟨hhere, hfirst⟩ := strstr_some hfound
  rw [hneedle] at hhere hfirst
  have hle := hhere.length_le
  rw [hrest] at hle
  refine ⟨hle, replaceAll_first hne ?_ fun j hj hpattern => hfirst j hj ⟨?_, ?_⟩⟩
  · rw [← hrest]
    exact hhere.2
  · rw [hrest]
    omega
  · rw [hrest]
    exact hpattern

theorem none_replaceAll (find : Operand) (text : List UInt8)
    (hneedle : cstr (find.str s).buff = needle) (hne : needle ≠ [])
    (hrest : cstr (s.buff.drop readFrom) = rest) (hfound : s.foundFrom find readFrom = none) :
    replaceAll needle text rest = rest := by
  refine replaceAll_none fun j hpattern => ?_
  have hlen := hpattern.length_le
  have hpos := length_pos_of_ne_nil hne
  rw [length_drop] at hlen
  have hnone := strstr_none hfound j
  rw [hneedle] at hnone
  refine hnone ⟨?_, ?_⟩
  · rw [hrest]
    omega
  · rw [hrest]
    exact hpattern

theorem Inv.cstr_rest (h : s.Inv) (hread : readFrom ≤ s.len)
    (hzero : (0 : UInt8) ∉ s.contents.drop readFrom) :
    cstr (s.buff.drop readFrom) = s.contents.drop readFrom := by
  have hdrop : (s.buff.drop readFrom).take (s.len - readFrom) = s.contents.drop readFrom := by
    rw [contents, drop_take]
  rw [cstr_of_terminated (h.drop_nul hread), hdrop, cstr_eq_self hzero]

theorem Inv.cstr_text (h : s.Inv) (hzero : (0 : UInt8) ∉ s.contents) :
    cstr (s.buff.drop 0) = s.contents := by
  rw [drop_zero, h.cstr_buff_of_notMem hzero]

end

/-! ## The same length -/

variable {buf src : List UInt8} {off : Nat}

theorem memcpy_drop (h : off + src.length ≤ buf.length) :
    (memcpy buf off src).drop (off + src.length) = buf.drop (off + src.length) := by
  have hlen : (buf.take off ++ src).length = off + src.length := by grind
  rw [memcpy, ← hlen, drop_left]

theorem Inv.write_contents (h : s.Inv)
    (hin : off + src.length ≤ s.len) :
    (s.write off src).contents =
      s.contents.take off ++ src ++ s.contents.drop (off + src.length) := by
  have hsize := h.size
  have hbound := h.bound
  have hin' : off + src.length ≤ s.buff.length := by omega
  show (memcpy s.buff off src).take s.len = _
  have hsplit := take_append_drop (off + src.length) ((memcpy s.buff off src).take s.len)
  rw [← hsplit, take_take, Nat.min_eq_left hin, memcpy_take hin', drop_take,
    memcpy_drop hin', contents, take_take, Nat.min_eq_left (by omega), drop_take]

variable {t : Str}

theorem replaceSame_text {r : Str} (ht : t.Inv) (hneedle : (0 : UInt8) ∉ t.contents)
    (hpos : 0 < t.len) (hr : r.Inv) (hlen : r.len = t.len) :
    ∀ (fuel readFrom : Nat) (s : Str), s.Inv → readFrom ≤ s.len →
      (0 : UInt8) ∉ s.contents.drop readFrom → s.len - readFrom < fuel →
      ∃ s', replaceSame (.other t) (.other r) fuel readFrom s = some s' ∧
        s'.contents = s.contents.take readFrom ++
          replaceAll t.contents r.contents (s.contents.drop readFrom) := by
  have hcstr := ht.cstr_buff_of_notMem hneedle
  have htlen := ht.contents_length
  have hrlen := hr.contents_length
  have hne : t.contents ≠ [] := ne_nil_of_length_pos (by omega)
  intro fuel
  induction fuel with
  | zero => intro readFrom s _ _ _ hfuel; omega
  | succ fuel ih =>
    intro readFrom s h hread hzero hfuel
    have hrest := h.cstr_rest hread hzero
    have hslen := h.contents_length
    rw [replaceSame]
    cases hfound : s.foundFrom (.other t) readFrom with
    | none =>
      refine ⟨s, rfl, ?_⟩
      rw [none_replaceAll (.other t) _ hcstr hne hrest hfound, take_append_drop]
    | some n =>
      obtain ⟨hin, hall⟩ := found_replaceAll (.other t) r.contents hcstr hne
        hrest hfound
      rw [length_drop] at hin
      have hfits : readFrom + n + r.contents.length ≤ s.len := by omega
      have hwrite := h.write_contents hfits
      have hinv : (s.write (readFrom + n) r.contents).Inv := h.write hfits
      have hfront : (s.contents.take (readFrom + n) ++ r.contents).length =
          readFrom + n + r.len := by grind
      have hdrop : (s.write (readFrom + n) r.contents).contents.drop (readFrom + n + r.len) =
          s.contents.drop (readFrom + n + r.len) := by
        rw [hwrite, ← hfront, drop_left, hfront, hrlen]
      have htake : (s.write (readFrom + n) r.contents).contents.take (readFrom + n + r.len) =
          s.contents.take (readFrom + n) ++ r.contents := by
        rw [hwrite, ← hfront, take_left]
      have htail : s.contents.drop (readFrom + n + r.len) =
          (s.contents.drop readFrom).drop (n + t.contents.length) := by
        rw [drop_drop]
        congr 1
        omega
      obtain ⟨s', hs', hcontents⟩ := ih (readFrom + n + r.len)
        (s.write (readFrom + n) r.contents) hinv (by rw [write_len]; omega)
        (by
          rw [hdrop, htail]
          exact fun hmem => hzero (mem_of_mem_drop hmem))
        (by rw [write_len]; omega)
      refine ⟨s', hs', ?_⟩
      rw [hcontents, htake, hdrop, htail, hall, take_add]
      simp only [append_assoc]

theorem replaceSame_whole {needle : List UInt8} (h : s.Inv) (hop : (replace.str s).Inv)
    (htext : (0 : UInt8) ∉ s.contents) (hneedle : cstr (find.str s).buff = needle)
    (hlen : needle.length = s.len) (hpos : 0 < s.len) (hoplen : (replace.str s).len = s.len)
    (hnext : (s.write 0 (replace.str s).contents).foundFrom find s.len = none) :
    ∃ s', replaceSame find replace (s.len + 1) 0 s = some s' ∧
      s'.contents = replaceAll needle (replace.str s).contents s.contents := by
  have hne : needle ≠ [] := ne_nil_of_length_pos (by omega)
  have hrest := h.cstr_text htext
  have hslen := h.contents_length
  have hrlen := hop.contents_length
  obtain ⟨k, hk⟩ : ∃ k, s.len = k + 1 := ⟨s.len - 1, by omega⟩
  have hfuel : s.len + 1 = k + 1 + 1 := by omega
  rw [hfuel, replaceSame]
  cases hfound : s.foundFrom find 0 with
  | none => exact ⟨s, rfl, by rw [none_replaceAll find _ hneedle hne hrest hfound]⟩
  | some n =>
    obtain ⟨hin, hall⟩ := found_replaceAll find (replace.str s).contents hneedle hne hrest
      hfound
    have hn : n = 0 := by omega
    subst hn
    have hend : s.contents.drop (0 + needle.length) = [] :=
      drop_eq_nil_of_le (by omega)
    have hwrite := h.write_contents (show 0 + (replace.str s).contents.length ≤ s.len by omega)
    have hend' : s.contents.drop (0 + (replace.str s).contents.length) = [] :=
      drop_eq_nil_of_le (by omega)
    have hplace : 0 + 0 + (replace.str s).len = s.len := by omega
    simp only [hplace]
    rw [replaceSame, hnext]
    refine ⟨_, rfl, ?_⟩
    rw [hall, hend, hwrite, hend']
    rfl

/-! ## A shorter replacement -/

variable {writeTo : Nat}

theorem Moving.cstr_rest {total readFrom : Nat} (h : Moving total readFrom writeTo s) :
    cstr (s.buff.drop readFrom) = (s.buff.drop readFrom).take (total - readFrom) := by
  have hnul : (s.buff.drop readFrom)[total - readFrom]? = some 0 := by
    rw [getElem?_drop, Nat.add_sub_cancel' h.read_le]
    exact h.nul
  rw [cstr_of_terminated hnul, cstr_eq_self h.text]

theorem replaceShorter_text {r : Str} {total : Nat} (ht : t.Inv)
    (hneedle : (0 : UInt8) ∉ t.contents) (hr : r.Inv) (hlen : r.len < t.len) :
    ∀ (fuel readFrom writeTo : Nat) (s : Str), Moving total readFrom writeTo s →
      total - readFrom < fuel →
      ∃ s', replaceShorter (.other t) (.other r) (t.len - r.len) fuel readFrom writeTo s = some s' ∧
        s'.contents = s.buff.take writeTo ++ replaceAll t.contents r.contents
          ((s.buff.drop readFrom).take (total - readFrom)) := by
  have hcstr := ht.cstr_buff_of_notMem hneedle
  have htlen := ht.contents_length
  have hrlen := hr.contents_length
  have hne : t.contents ≠ [] := ne_nil_of_length_pos (by omega)
  intro fuel
  induction fuel with
  | zero => intro readFrom writeTo s _ hfuel; omega
  | succ fuel ih =>
    intro readFrom writeTo s h hfuel
    have hrest := h.cstr_rest
    rw [replaceShorter]
    cases hfound : s.foundFrom (.other t) readFrom with
    | none =>
      refine ⟨_, rfl, ?_⟩
      rw [h.finish_contents, none_replaceAll (.other t) _ hcstr hne hrest hfound]
    | some n =>
      obtain ⟨hin, hall⟩ := found_replaceAll (.other t) r.contents hcstr hne
        hrest hfound
      have hsize := h.size
      have htotal := h.total_le
      have hread := h.read_le
      have hwrite := h.write_le
      rw [length_take, length_drop] at hin
      have hround := h.round (n := n) (m := t.len) (by omega) hlen hrlen
      have hmoved : ((s.buff.drop readFrom).take n).length = n := by grind
      have hin₁ : writeTo + ((s.buff.drop readFrom).take n).length ≤ s.buff.length := by omega
      have hlen₁ : (s.write writeTo ((s.buff.drop readFrom).take n)).buff.length =
          s.buff.length := memcpy_length hin₁
      have hin₂ : writeTo + n + r.contents.length ≤
          (s.write writeTo ((s.buff.drop readFrom).take n)).buff.length := by omega
      obtain ⟨s', hs', hcontents⟩ := ih _ _ _ hround (by omega)
      refine ⟨s', hs', ?_⟩
      have hdone : ((s.write writeTo ((s.buff.drop readFrom).take n)).write (writeTo + n)
          r.contents).buff.take (writeTo + n + r.len) =
          s.buff.take writeTo ++ (s.buff.drop readFrom).take n ++ r.contents := by
        have hsecond := memcpy_take hin₂
        have hfirst := memcpy_take hin₁
        rw [hmoved] at hfirst
        rw [hrlen] at hsecond
        exact hsecond.trans (congrArg (· ++ r.contents) hfirst)
      have hleft : ((s.write writeTo ((s.buff.drop readFrom).take n)).write (writeTo + n)
          r.contents).buff.drop (readFrom + n + t.len) = s.buff.drop (readFrom + n + t.len) := by
        rw [write_drop hin₂ (by omega), write_drop hin₁ (by omega)]
      have hnext : (s.buff.drop (readFrom + n + t.len)).take (total - (readFrom + n + t.len)) =
          ((s.buff.drop readFrom).take (total - readFrom)).drop (n + t.contents.length) := by
        have hplace : readFrom + (n + t.contents.length) = readFrom + n + t.len := by omega
        have hcount : total - readFrom - (n + t.contents.length) =
            total - (readFrom + n + t.len) := by omega
        rw [drop_take, drop_drop, hplace, hcount]
      rw [hcontents, setLen_buff, hdone, hleft, hnext, hall, take_take,
        Nat.min_eq_left (by omega)]
      simp only [append_assoc]

/-! ## A longer replacement -/

/-- **The forward pass** counts what the text needs in the end. -/
theorem sizeNeeded_length (h : s.Inv) (htext : (0 : UInt8) ∉ s.contents) {needle : List UInt8}
    (text : List UInt8)
    (hneedle : cstr (find.str s).buff = needle) (hlen : (find.str s).len = needle.length)
    (hpos : 0 < needle.length) {diff : Nat} (hdiff : text.length = needle.length + diff) :
    ∀ (fuel readFrom size : Nat), readFrom ≤ s.len → s.len - readFrom < fuel →
      size + (s.len - readFrom) * diff < 4294967296 →
      ∃ k ≤ s.len - readFrom, s.sizeNeeded find diff fuel readFrom size = some (size + k * diff) ∧
        (replaceAll needle text (s.contents.drop readFrom)).length =
          s.len - readFrom + k * diff ∧
        (k = 0 → s.foundFrom find readFrom = none) := by
  have hne : needle ≠ [] := ne_nil_of_length_pos hpos
  have hslen := h.contents_length
  intro fuel
  induction fuel with
  | zero => intro readFrom size _ hfuel; omega
  | succ fuel ih =>
    intro readFrom size hread hfuel hsize
    have hrest := h.cstr_rest hread fun hmem => htext (mem_of_mem_drop hmem)
    rw [sizeNeeded]
    cases hfound : s.foundFrom find readFrom with
    | none =>
      refine ⟨0, Nat.zero_le _, by simp, ?_, fun _ => rfl⟩
      rw [none_replaceAll find _ hneedle hne hrest hfound, length_drop, hslen, Nat.zero_mul,
        Nat.add_zero]
    | some n =>
      obtain ⟨hin, hall⟩ := found_replaceAll find text hneedle hne hrest hfound
      rw [length_drop, hslen] at hin
      have hone : diff + (s.len - (readFrom + n + needle.length)) * diff ≤
          (s.len - readFrom) * diff := by
        rw [Nat.add_comm, ← Nat.succ_mul]
        exact Nat.mul_le_mul_right _ (by omega)
      have hsum : size + diff + (s.len - (readFrom + n + needle.length)) * diff <
          4294967296 := by grind
      have hnext : size + diff < 4294967296 := Nat.lt_of_le_of_lt (Nat.le_add_right _ _) hsum
      obtain ⟨k, hk, hcount, hlength, -⟩ := ih (readFrom + n + needle.length) (size + diff)
        (by omega) (by omega) hsum
      have htail : (s.contents.drop readFrom).drop (n + needle.length) =
          s.contents.drop (readFrom + n + needle.length) := by
        rw [drop_drop, Nat.add_assoc]
      have htake : ((s.contents.drop readFrom).take n).length = n := by grind
      refine ⟨k + 1, by omega, ?_, ?_, fun hzero => absurd hzero (Nat.succ_ne_zero k)⟩
      · simp only
        rw [hlen, u32_of_lt hnext, hcount, Nat.succ_mul]
        congr 1
        omega
      · grind

theorem lastIndexLoop_last {needle mem : List UInt8} {fromIndex : Nat} (hneedle : needle ≠ []) :
    ∀ (fuel p : Nat) (found : Option Nat) (q : Nat), p ≤ (cstr mem).length →
      fromIndex + 1 - p ≤ fuel →
      (found = some q ∧ q < p ∨ p ≤ q ∧ q ≤ fromIndex ∧ Occurs needle mem q) →
      ∃ index, lastIndexLoop needle mem fromIndex fuel p found = some index ∧ q ≤ index := by
  have hpos := length_pos_of_ne_nil hneedle
  intro fuel
  induction fuel with
  | zero =>
    intro p found q _ hfuel hq
    rcases hq with ⟨hfound, -⟩ | ⟨hlow, hhigh, -⟩
    · exact ⟨q, hfound, Nat.le_refl q⟩
    · omega
  | succ fuel ih =>
    intro p found q hp hfuel hq
    rw [lastIndexLoop]
    by_cases hin : p ≤ fromIndex
    · rw [if_pos hin]
      cases hstr : strstr needle (mem.drop p) with
      | none =>
        rcases hq with ⟨hfound, -⟩ | ⟨hlow, -, hocc⟩
        · exact ⟨q, hfound, Nat.le_refl q⟩
        · rw [← Nat.add_sub_cancel' hlow, ← occurs_drop hp] at hocc
          exact absurd hocc (strstr_none hstr _)
      | some n =>
        obtain ⟨hhere, hfirst⟩ := strstr_some hstr
        rw [occurs_drop hp] at hhere
        have hle := hhere.length_le
        simp only
        by_cases hplace : p + n ≤ fromIndex
        · rw [if_pos hplace]
          rcases hq with ⟨-, hlow⟩ | ⟨hlow, hhigh, hocc⟩
          · obtain ⟨index, hindex, hmore⟩ := ih (p + n + 1) (some (p + n)) (p + n) (by omega)
              (by omega) (Or.inl ⟨rfl, Nat.lt_succ_self _⟩)
            exact ⟨index, hindex, by omega⟩
          · -- The place found is not behind this one.
            have hfront : p + n ≤ q := by
              by_contra hlt
              rw [← Nat.add_sub_cancel' hlow, ← occurs_drop hp] at hocc
              exact hfirst _ (by omega) hocc
            rcases Nat.lt_or_eq_of_le hfront with hlt | rfl
            · exact ih _ _ q (by omega) (by omega) (Or.inr ⟨hlt, hhigh, hocc⟩)
            · exact ih _ _ _ (by omega) (by omega) (Or.inl ⟨rfl, Nat.lt_succ_self _⟩)
        · rw [if_neg hplace]
          rcases hq with ⟨hfound, hlow⟩ | ⟨hlow, hhigh, hocc⟩
          · exact ih _ _ q (by omega) (by omega) (Or.inl ⟨hfound, by omega⟩)
          · rw [← Nat.add_sub_cancel' hlow, ← occurs_drop hp] at hocc
            exact absurd hocc (hfirst _ (by omega))
    · grind

/-- **What `lastIndexOf` finds is the last occurrence** that begins in front of `stop`. -/
theorem lastIndexOf_last {stop q : Nat} (hneedle : cstr t.buff ≠ []) (h : s.Inv)
    (hlen : t.len = (cstr t.buff).length) (hstop : stop ≤ s.len) (hq : q < stop)
    (hocc : Occurs (cstr t.buff) s.buff q) :
    ∃ index, s.lastIndexOf t (stop - 1) = some index ∧ q ≤ index := by
  have hpos := length_pos_of_ne_nil hneedle
  have hle := hocc.length_le.trans h.cstr_le
  rw [lastIndexOf, if_neg (by omega), if_neg (by omega)]
  exact lastIndexLoop_last hneedle _ _ _ q (Nat.zero_le _) (by omega)
    (Or.inr ⟨Nat.zero_le q, by omega, hocc⟩)

theorem widen_contents {r : Str} {diff index m : Nat} (h : s.Inv) (hfind : (find.str s).len = m)
    (hin : index + m ≤ s.len) (hroom : s.len + diff ≤ s.capacity)
    (hop : r.contents.length = m + diff) :
    (s.widen find (.other r) diff index).contents =
      s.contents.take index ++ r.contents ++ s.contents.drop (index + m) := by
  have hsize := h.size
  have hlt : s.len < 4294967296 :=
    Nat.lt_of_le_of_lt h.bound (Nat.lt_trans h.capacity_lt (by decide))
  have htail : (s.buff.drop (index + m)).take (s.len - (index + m)) =
      s.contents.drop (index + m) := by
    rw [contents, drop_take]
  have htaillen : (s.contents.drop (index + m)).length = s.len - (index + m) := by
    rw [length_drop, h.contents_length]
  have hfront : s.buff.take index = s.contents.take index := by
    rw [contents, take_take, Nat.min_eq_left (by omega)]
  unfold widen
  simp only [hfind, sub32_of_le hin hlt, htail, write_len]
  generalize s.contents.drop (index + m) = tail at htaillen
  have hin₁ : index + m + diff + tail.length ≤ s.buff.length := by omega
  have hsized₁ : (s.write (index + m + diff) tail).Sized :=
    h.toSized.write (by rw [← hsize]; exact hin₁)
  have hin₂ : index + r.contents.length ≤ (s.write (index + m + diff) tail).buff.length := by
    rw [hsized₁.size, write_capacity]
    omega
  have hsized₂ := hsized₁.write (by rw [← hsized₁.size]; exact hin₂)
  have hlen := hsized₂.setLen_len (show s.len + diff ≤ _ from hroom)
  -- Room first, then the replacement in it.
  have hplace : index + m + diff = (s.buff.take index).length + r.contents.length := by
    rw [length_take]
    omega
  have hmoved : (memcpy s.buff (index + m + diff) tail).drop (index + m + diff) =
      tail ++ s.buff.drop (index + m + diff + tail.length) := by
    have hleft : (s.buff.take (index + m + diff)).length = index + m + diff :=
      length_take_of_le (by omega)
    rw [memcpy, append_assoc, drop_left' hleft]
  have hkept : (memcpy s.buff (index + m + diff) tail).take index = s.buff.take index :=
    write_take (s := s) hin₁ (by omega)
  have hbuff : memcpy (memcpy s.buff (index + m + diff) tail) index r.contents =
      s.buff.take index ++ r.contents ++
          (tail ++ s.buff.drop (index + m + diff + tail.length)) := by
    have hend : index + r.contents.length = index + m + diff := by omega
    rw [memcpy, hkept, hend, hmoved]
  have hnul : s.len + diff + [(0 : UInt8)].length ≤
      (memcpy (memcpy s.buff (index + m + diff) tail) index r.contents).length := by
    have hlength := hsized₂.size
    rw [write_capacity, write_capacity] at hlength
    show _ ≤ ((s.write (index + m + diff) tail).write index r.contents).buff.length
    rw [hlength, length_singleton]
    omega
  show (memcpy (memcpy (memcpy s.buff (index + m + diff) tail) index r.contents) (s.len + diff)
    [0]).take (((s.write (index + m + diff) tail).write index r.contents).setLen
      (s.len + diff)).len = _
  have hlast := memcpy_take_le hnul (Nat.zero_le _)
  rw [Nat.add_zero, take_zero, append_nil] at hlast
  have htotal : s.len + diff = (s.buff.take index ++ r.contents ++ tail).length := by grind
  rw [hlen, hlast, hbuff, ← append_assoc, htotal, take_left, hfront]

/-- Where the backward loop stands, with the text it has made: it is spliced at the places picked
so far, the others are in front of `stop`. -/
structure Spliced (s₀ : Str) (needle text : List UInt8) (diff stop : Nat) (ps : List Nat)
    (s : Str) :
    Prop extends Widening s₀ needle diff stop ps s where
  contents_eq : s.contents =
    s₀.contents.take stop ++ splice needle.length text s₀.contents stop ps
  picked : fromEnd needle s₀.contents = placesBelow needle s₀.contents stop stop ++ ps

theorem Spaced.le {m b : Nat} {ps : List Nat} (h : Spaced m b ps) : ∀ p ∈ ps, b ≤ p := by
  induction ps generalizing b with
  | nil => exact fun p hp => absurd hp not_mem_nil
  | cons q ps ih =>
    intro p hp
    rcases mem_cons.mp hp with rfl | hp
    · exact h.1
    · have hle := ih h.2 p hp
      have hstart := h.1
      omega

theorem Inv.spliced (h : s.Inv) (needle text : List UInt8) (diff : Nat) :
    Spliced s needle text diff s.len [] s := by
  have hlen := h.contents_length
  refine { h.widening needle diff with contents_eq := ?_, picked := ?_ }
  · rw [splice, take_append_drop]
  · rw [fromEnd, hlen, append_nil]

section Longer

variable {s₀ r : Str} {needle : List UInt8} {diff stop index : Nat} {ps : List Nat}

theorem Spliced.occurs {text : List UInt8} (h : Spliced s₀ needle text diff stop ps s)
    (hneedle : needle ≠ []) (h₀ : s₀.Inv) (htext : (0 : UInt8) ∉ s₀.contents) {j : Nat}
    (hj : j + needle.length ≤ stop) (hpattern : needle <+: s₀.contents.drop j) :
    Occurs needle s.buff j := by
  have hcstr := h₀.cstr_buff_of_notMem htext
  have hstop := h.stop_le
  have hocc : Occurs needle s₀.buff j := by
    refine ⟨?_, ?_⟩
    · rw [hcstr, h₀.contents_length]
      omega
    · rw [hcstr]
      exact hpattern
  refine hocc.congr hneedle ?_
  have hfront := congrArg (take (j + needle.length)) h.front
  rw [take_take, take_take, Nat.min_eq_left hj] at hfront
  exact hfront.symm

/-- **All places are picked**: the text is what it is to be. -/
theorem Spliced.finish {text : List UInt8} (h : Spliced s₀ needle text diff stop ps s)
    (hneedle : needle ≠ [])
    (hplaces : fromEnd needle s₀.contents = fromStart needle s₀.contents)
    (hnone : placesBelow needle s₀.contents stop stop = []) :
    s.contents = replaceAll needle text s₀.contents := by
  have hpicked := h.picked
  rw [hnone, nil_append, hplaces] at hpicked
  rw [h.contents_eq, ← splice_fromStart hneedle, hpicked,
    splice_split (Nat.zero_le stop) h.spaced.le, drop_zero, Nat.sub_zero]

/-- **A round** picks the last place that is left. -/
theorem Spliced.round (find : Operand) (h : Spliced s₀ needle r.contents diff stop ps s)
    (hneedle : needle ≠ []) (h₀ : s₀.Inv) (htext : (0 : UInt8) ∉ s₀.contents)
    (hlen : (find.str s).len = needle.length) (hop : r.Inv) (hoplen : r.len = needle.length + diff)
    (hroom : ∀ ps, Spaced needle.length 0 ps → (∀ p ∈ ps, Occurs needle s₀.buff p) →
      s₀.len + ps.length * diff ≤ s₀.capacity)
    (hfit : ¬ Straddles s₀.contents needle r.contents)
    (hindex : index < stop) (hocc : Occurs needle s.buff index)
    (hlast : ∀ j, index < j → j < stop → ¬ Occurs needle s.buff j) :
    Spliced s₀ needle r.contents diff index (index :: ps)
      (s.widen find (.other r) diff index) := by
  have hwidening : Widening s₀ needle diff index (index :: ps)
      (s.widen find (.other r) diff index) :=
    h.toWidening.round find h₀ hneedle hlen hop hoplen hroom hfit hindex hocc
  obtain ⟨hocc₀, hend⟩ := h.ahead index hindex hocc
  have hstop := h.stop_le
  have hslen := h.len_eq
  have hcontents := h₀.contents_length
  have hlength : (s₀.contents.take stop).length = stop := length_take_of_le (by omega)
  refine { hwidening with contents_eq := ?_, picked := ?_ }
  · have hfits : s.len + diff ≤ s.capacity := by
      have hbound := hwidening.bound
      have hnew := hwidening.len_eq
      rw [hwidening.capacity_eq, hnew, length_cons, Nat.succ_mul] at hbound
      rw [h.capacity_eq, hslen]
      omega
    have hin : index + needle.length ≤ s.len := by grind
    have htake : s.contents.take index = s₀.contents.take index := by
      rw [h.contents_eq, take_append_of_le_length (by omega), take_take,
        Nat.min_eq_left (by omega)]
    have hdrop : s.contents.drop (index + needle.length) =
        splice needle.length r.contents s₀.contents (index + needle.length) ps := by
      rw [h.contents_eq, drop_append_of_le_length (by omega), drop_take,
        splice_split hend h.spaced.le]
    rw [widen_contents h.toInv hlen hin hfits (by rw [hop.contents_length, hoplen]), htake, hdrop,
      splice, Nat.sub_self, take_zero, nil_append]
    simp only [append_assoc]
  · have hpattern := hocc₀.2
    rw [h₀.cstr_buff_of_notMem htext] at hpattern
    rw [h.picked, placesBelow_last hindex hend hpattern fun j hj hjs hjend hjhere =>
      hlast j hj hjs (h.occurs hneedle h₀ htext hjend hjhere), append_assoc]
    rfl

theorem Spliced.search (h : Spliced s₀ (cstr t.buff) r.contents diff stop ps s)
    (hneedle : cstr t.buff ≠ []) (h₀ : s₀.Inv) (htext : (0 : UInt8) ∉ s₀.contents)
    (hlen : t.len = (cstr t.buff).length) (hstop : 0 < stop) :
    (s.lastIndexOf t (stop - 1) = none ∧
      placesBelow (cstr t.buff) s₀.contents stop stop = []) ∨
    ∃ index < stop, s.lastIndexOf t (stop - 1) = some index ∧
      Occurs (cstr t.buff) s.buff index ∧
      ∀ j, index < j → j < stop → ¬ Occurs (cstr t.buff) s.buff j := by
  have hle : stop ≤ s.len := by
    rw [h.len_eq]
    exact h.stop_le.trans (Nat.le_add_right _ _)
  cases hfound : s.lastIndexOf t (stop - 1) with
  | none =>
    refine Or.inl ⟨rfl, placesBelow_none fun j hj hend hpattern => ?_⟩
    obtain ⟨index, hsome, -⟩ := lastIndexOf_last hneedle h.toInv hlen hle hj
      (h.occurs hneedle h₀ htext hend hpattern)
    rw [hfound] at hsome
    cases hsome
  | some index =>
    obtain ⟨hindex, hocc⟩ := lastIndexOf_sound hneedle hstop hfound
    refine Or.inr ⟨index, hindex, rfl, hocc, fun j hj hjs hjocc => ?_⟩
    obtain ⟨index', hsome, hmore⟩ := lastIndexOf_last hneedle h.toInv hlen hle hjs hjocc
    rw [hfound] at hsome
    obtain rfl := Option.some.inj hsome
    omega

theorem replaceLonger_text (h₀ : s₀.Inv) (htext : (0 : UInt8) ∉ s₀.contents)
    (hneedle : cstr t.buff ≠ []) (hlen : t.len = (cstr t.buff).length) (hop : r.Inv)
    (hoplen : r.len = (cstr t.buff).length + diff)
    (hroom : ∀ ps, Spaced (cstr t.buff).length 0 ps →
      (∀ p ∈ ps, Occurs (cstr t.buff) s₀.buff p) → s₀.len + ps.length * diff ≤ s₀.capacity)
    (hfit : ¬ Straddles s₀.contents (cstr t.buff) r.contents)
    (hplaces : fromEnd (cstr t.buff) s₀.contents = fromStart (cstr t.buff) s₀.contents) :
    ∀ (fuel stop : Nat) (ps : List Nat) (s : Str),
      Spliced s₀ (cstr t.buff) r.contents diff stop ps s → stop ≤ fuel →
      (replaceLonger (.other t) (.other r) diff fuel stop s).contents =
        replaceAll (cstr t.buff) r.contents s₀.contents := by
  intro fuel
  induction fuel with
  | zero =>
    intro stop ps s h hfuel
    obtain rfl : stop = 0 := by omega
    exact h.finish hneedle hplaces rfl
  | succ fuel ih =>
    intro stop ps s h hfuel
    rw [replaceLonger]
    split
    · rename_i hstop
      subst hstop
      exact h.finish hneedle hplaces rfl
    · obtain ⟨hfound, hnone⟩ | ⟨index, hindex, hfound, hocc, hlast⟩ :=
        h.search hneedle h₀ htext hlen (by omega)
      · rw [show (Operand.other t).str s = t from rfl, hfound]
        exact h.finish hneedle hplaces hnone
      · rw [show (Operand.other t).str s = t from rfl, hfound]
        exact ih _ _ _ (h.round (.other t) hneedle h₀ htext hlen hop hoplen hroom hfit hindex hocc
          hlast) (by omega)

theorem replaceLonger_whole (h : s.Inv) (htext : (0 : UInt8) ∉ s.contents)
    (hneedle : cstr s.buff ≠ []) (hlen : s.len = (cstr s.buff).length) (hop : r.Inv)
    (hoplen : r.len = (cstr s.buff).length + diff)
    (hroom : ∀ ps, Spaced (cstr s.buff).length 0 ps →
      (∀ p ∈ ps, Occurs (cstr s.buff) s.buff p) → s.len + ps.length * diff ≤ s.capacity)
    (hfit : ¬ Straddles s.contents (cstr s.buff) r.contents)
    (hplaces : fromEnd (cstr s.buff) s.contents = fromStart (cstr s.buff) s.contents) :
    (replaceLonger .self (.other r) diff s.len s.len s).contents =
      replaceAll (cstr s.buff) r.contents s.contents := by
  have hspliced := h.spliced (cstr s.buff) r.contents diff
  have hpos := length_pos_of_ne_nil hneedle
  obtain ⟨k, hk⟩ : ∃ k, s.len = k + 1 := ⟨s.len - 1, by omega⟩
  have hstart : ∀ result, replaceLonger .self (.other r) diff (k + 1) s.len s = result →
      replaceLonger .self (.other r) diff s.len s.len s = result := by
    intro result hresult
    rw [← hresult, ← hk]
  obtain ⟨hfound, hnone⟩ | ⟨index, hindex, hfound, hocc, hlast⟩ :=
    hspliced.search hneedle h htext hlen (by omega)
  · have hloop : replaceLonger .self (.other r) diff s.len s.len s = s := by
      refine hstart _ ?_
      rw [replaceLonger, if_neg (by omega), show Operand.self.str s = s from rfl, hfound]
    rw [hloop]
    exact hspliced.finish hneedle hplaces hnone
  · have hround := hspliced.round .self hneedle h htext hlen hop hoplen hroom hfit hindex hocc hlast
    have hle := hocc.length_le
    obtain rfl : index = 0 := by omega
    have hloop : replaceLonger .self (.other r) diff s.len s.len s =
        s.widen .self (.other r) diff 0 := by
      refine hstart _ ?_
      rw [replaceLonger, if_neg (by omega), show Operand.self.str s = s from rfl, hfound]
      exact replaceLonger_stop k _
    rw [hloop]
    exact hround.finish hneedle hplaces rfl

end Longer

/-! ## All of them -/

theorem Textual.grown {size : Nat} (h : s.Textual find replace)
    (hf : (find.str s).Inv) (hop : (replace.str s).Inv) (ht : Grown size s t) :
    t.Textual find replace := by
  obtain ⟨-, hflen, hfcontents⟩ := ht.operand hf
  obtain ⟨-, holen, hocontents⟩ := ht.operand hop
  constructor
  · rw [hfcontents]
    exact h.needle
  · rw [ht.contents_eq]
    exact h.text
  · rw [hocontents]
    exact h.head
  · rw [hflen, holen]
    exact h.other
  · rw [hflen, holen, hfcontents, ht.contents_eq]
    exact h.places
  · rw [hflen, holen, hfcontents, ht.contents_eq, hocontents]
    exact h.straddles

theorem replace_same_text (h : s.Inv) (hf : (find.str s).Inv) (hop : (replace.str s).Inv)
    (hpos : 0 < (find.str s).len) (hlen : 0 < s.len)
    (hsame : (replace.str s).len = (find.str s).len) (ht : s.Textual find replace) :
    ∃ s', replaceSame find replace (s.len + 1) 0 s = some s' ∧
      s'.contents = replaceAll (find.str s).contents (replace.str s).contents s.contents := by
  have hcstr := hf.cstr_buff_of_notMem ht.needle
  have hflen := hf.contents_length
  have hrlen := hop.contents_length
  have hslen := h.contents_length
  cases find with
  | self =>
    -- The needle is the replacement by now.
    have hwrite : (s.write 0 (replace.str s).contents).Inv := h.write (by
      rw [hrlen, hsame]
      exact (Nat.zero_add _).le)
    refine replaceSame_whole h hop ht.text hcstr hflen hlen hsame (foundFrom_end ?_ hwrite.nul)
    obtain ⟨b, rest, hcons⟩ := exists_cons_of_length_pos
      (show 0 < (replace.str s).contents.length by omega)
    have hhead := ht.head rfl
    rw [hcons] at hhead ⊢
    exact cstr_ne_nil (b := b) rfl (by simpa using hhead)
  | other t =>
    have hne : cstr t.buff ≠ [] := by
      refine ne_nil_of_length_pos ?_
      rw [show cstr t.buff = t.contents from hcstr]
      exact hflen ▸ hpos
    cases replace with
    | self =>
      have hwrite : (s.write 0 s.contents).Inv := h.write (by omega)
      exact replaceSame_whole h h ht.text hcstr (hflen.trans hsame.symm) hlen rfl
        (foundFrom_end hne hwrite.nul)
    | other r =>
      obtain ⟨s', hs', hcontents⟩ := replaceSame_text hf ht.needle hpos hop hsame (s.len + 1) 0 s
        h (Nat.zero_le _) ht.text (by omega)
      refine ⟨s', hs', ?_⟩
      rw [hcontents, take_zero, nil_append, drop_zero]

theorem replace_shorter_text (h : s.Inv) (hf : (find.str s).Inv) (hop : (replace.str s).Inv)
    (hshorter : (replace.str s).len < (find.str s).len) (ht : s.Textual find replace) :
    ∃ s', replaceShorter find replace ((find.str s).len - (replace.str s).len) (s.len + 1) 0 0 s =
        some s' ∧
      s'.contents = replaceAll (find.str s).contents (replace.str s).contents s.contents := by
  have hcstr := hf.cstr_buff_of_notMem ht.needle
  have hflen := hf.contents_length
  have hslen := h.contents_length
  cases find with
  | self =>
    cases replace with
    | self => exact absurd hshorter (Nat.lt_irrefl _)
    | other r =>
      have hlt : r.len < s.len := hshorter
      obtain ⟨t, heq, -, hcontents⟩ := replaceShorter_self h hop hlt ht.text (ht.head rfl)
        (by omega : 1 < s.len + 1)
      have hne : s.contents ≠ [] := ne_nil_of_length_pos (by omega)
      exact ⟨t, heq, hcontents.trans (replaceAll_self hne).symm⟩
  | other t =>
    cases replace with
    | self =>
      -- What is longer than the `String` does not occur in it.
      have hne : t.contents ≠ [] := ne_nil_of_length_pos (by
        simp only [Operand.str] at hflen hshorter
        omega)
      have hrest := h.cstr_text ht.text
      cases hfound : s.foundFrom (.other t) 0 with
      | none =>
        rw [replaceShorter, hfound]
        simp only [drop_zero, write_same]
        exact ⟨s, rfl, (none_replaceAll (.other t) _ hcstr hne hrest hfound).symm⟩
      | some n =>
        obtain ⟨hin, -⟩ := found_replaceAll (.other t) [] hcstr hne hrest
          hfound
        have htlen : t.contents.length = t.len := hflen
        have hlonger : s.len < t.len := hshorter
        have hfits : n + t.contents.length ≤ s.contents.length := hin
        omega
    | other r =>
      have hmoving : Moving s.len 0 0 s :=
        { h with
          total_le := h.bound, read_le := Nat.zero_le _, write_le := Nat.le_refl _,
          len_eq := by omega,
          text := by rw [drop_zero, Nat.sub_zero]; exact ht.text }
      obtain ⟨s', hs', hcontents⟩ := replaceShorter_text hf ht.needle hop hshorter (s.len + 1) 0 0
        s hmoving (by omega)
      refine ⟨s', hs', ?_⟩
      rw [hcontents, take_zero, nil_append, drop_zero, Nat.sub_zero]
      rfl

theorem replace_longer_text (h : s.Inv) (hf : (find.str s).Inv) (hop : (replace.str s).Inv)
    (hpos : 0 < (find.str s).len) (hlonger : (find.str s).len < (replace.str s).len)
    (ht : s.Textual find replace)
    (hroom : ∀ ps, Spaced (find.str s).len 0 ps →
      (∀ p ∈ ps, Occurs (cstr (find.str s).buff) s.buff p) →
      s.len + ps.length * ((replace.str s).len - (find.str s).len) ≤ s.capacity) :
    (replaceLonger find replace ((replace.str s).len - (find.str s).len) s.len s.len s).contents =
      replaceAll (find.str s).contents (replace.str s).contents s.contents := by
  have hcstr := hf.cstr_buff_of_notMem ht.needle
  have hlen : (find.str s).len = (cstr (find.str s).buff).length := by
    rw [hcstr, hf.contents_length]
  have hneedle : cstr (find.str s).buff ≠ [] := ne_nil_of_length_pos (by omega)
  have hoplen : (replace.str s).len =
      (cstr (find.str s).buff).length + ((replace.str s).len - (find.str s).len) := by omega
  have hfit := ht.straddles hlonger
  have hplaces := ht.places hlonger
  have hother := ht.other hlonger
  have hfits : ∀ ps, Spaced (cstr (find.str s).buff).length 0 ps →
      (∀ p ∈ ps, Occurs (cstr (find.str s).buff) s.buff p) →
      s.len + ps.length * ((replace.str s).len - (find.str s).len) ≤ s.capacity := by
    intro ps hspaced
    rw [← hlen] at hspaced
    exact hroom ps hspaced
  rw [← hcstr] at hfit hplaces ⊢
  generalize (replace.str s).len - (find.str s).len = diff at hfits hoplen ⊢
  cases replace with
  | self => cases hother
  | other r =>
    cases find with
    | self => exact replaceLonger_whole h ht.text hneedle hlen hop hoplen hfits hfit hplaces
    | other t =>
      exact replaceLonger_text h ht.text hneedle hlen hop hoplen hfits hfit hplaces _ _ _ _
        (h.spliced _ _ _) (Nat.le_refl _)

/-- What `replace` is to leave: the text with each occurrence replaced from left to right, or the
`String` as it was where the room for it is not to be had. -/
def Replaces (s : Str) (env : Env) (find replace : Operand) (t : Str) : Prop :=
  let text := replaceAll (find.str s).contents (replace.str s).contents s.contents
  if s.capacity < text.length ∧ (s.changeBuffer env text.length).1 = false then t = s
  else t.contents = text

instance (s : Str) (env : Env) (find replace : Operand) (t : Str) :
    Decidable (s.Replaces env find replace t) := by
  unfold Replaces
  infer_instance

theorem replaces_of_contents
    (hfits : (replaceAll (find.str s).contents (replace.str s).contents s.contents).length ≤
      s.capacity)
    (ht : t.contents =
      replaceAll (find.str s).contents (replace.str s).contents s.contents) :
    s.Replaces env find replace t := by
  unfold Replaces
  simp only
  rw [if_neg fun hmore => absurd hfits (Nat.not_le_of_lt hmore.1)]
  exact ht

theorem replace_longer_replaces (env : Env) (h : s.Inv) (hf : (find.str s).Inv)
    (hop : (replace.str s).Inv) (hpos : 0 < (find.str s).len) (hlen : 0 < s.len)
    (hlonger : (find.str s).len < (replace.str s).len) (ht : s.Textual find replace) :
    ∃ t, s.replace env find replace = some t ∧ s.Replaces env find replace t := by
  have hcstr := hf.cstr_buff_of_notMem ht.needle
  have hflen := hf.contents_length
  have hrlen := hop.contents_length
  have hslen := h.contents_length
  have hbound := h.bound
  by_cases hfound : strstr (cstr (find.str s).buff) s.buff = none
  · have hnone : s.foundFrom find 0 = none := hfound
    have hne : (find.str s).contents ≠ [] := ne_nil_of_length_pos (by omega)
    have htext := none_replaceAll find (replace.str s).contents hcstr hne
      (h.cstr_text ht.text) hnone
    exact ⟨s, replace_none hfound, replaces_of_contents (by rw [htext]; omega) htext.symm⟩
  obtain ⟨size, hsize, hlt, hroom⟩ := room_places h hf hop hpos ht.needle
  have hneed : s.len + (s.len - 0) * ((replace.str s).len - (find.str s).len) < 4294967296 := by
    have hlt' := Nat.lt_of_le_of_lt h.bound h.capacity_lt
    have hdiff : (replace.str s).len - (find.str s).len < 65535 :=
      Nat.lt_of_le_of_lt (Nat.sub_le _ _) (Nat.lt_of_le_of_lt hop.bound hop.capacity_lt)
    exact Nat.lt_of_le_of_lt (Nat.le_add_right _ 16) (needed_lt hlt' (Nat.sub_le s.len 0) hdiff)
  obtain ⟨k, -, hcount, hlength, hzero⟩ := sizeNeeded_length h ht.text
    (replace.str s).contents hcstr hflen.symm (by omega) (by omega) (s.len + 1) 0 s.len
    (Nat.zero_le _) (by omega)
    hneed
  rw [hsize, Option.some.injEq] at hcount
  rw [drop_zero, Nat.sub_zero] at hlength
  have htotal : (replaceAll (find.str s).contents (replace.str s).contents s.contents).length =
      size := hlength.trans hcount.symm
  have hmore : size ≠ s.len := by
    intro hsame
    have hprod : k * ((replace.str s).len - (find.str s).len) = 0 := by omega
    rcases Nat.mul_eq_zero.mp hprod with hk | hdiff
    · exact hfound (hzero hk)
    · omega
  have hgrown : ∀ t, Grown size s t →
      (replaceLonger find replace ((replace.str s).len - (find.str s).len) t.len t.len t).contents =
        replaceAll (find.str s).contents (replace.str s).contents s.contents := by
    intro t hgrow
    obtain ⟨hft, hflen', hfcontents⟩ := hgrow.operand hf
    obtain ⟨hot, holen, hocontents⟩ := hgrow.operand hop
    have htext := replace_longer_text hgrow.toInv hft hot (by omega) (by omega)
      (ht.grown hf hop hgrow) (hroom t hgrow)
    rw [hflen', holen, hfcontents, hocontents, hgrow.contents_eq] at htext
    exact htext
  have hreplace : ∀ ok t, (if size > s.capacity then s.changeBuffer env size else (true, s)) =
      (ok, t) → s.replace env find replace = some (if ok = true then
        replaceLonger find replace ((replace.str s).len - (find.str s).len) t.len t.len t
        else t) := by
    intro ok t hroom
    unfold Str.replace
    simp only
    rw [if_neg (by omega), if_neg (by omega), if_neg (by omega), hsize]
    simp only
    rw [if_neg hmore, hroom]
    cases ok with
    | true => rfl
    | false => rfl
  unfold Replaces
  simp only
  rw [htotal]
  by_cases hneeds : size > s.capacity
  · rw [if_pos hneeds] at hreplace
    obtain hfailed | ⟨t, hchanged, hgrow⟩ := changeBuffer_cases env h (by omega) (Or.inr hlt) hneeds
    · grind
    · grind
  · rw [if_neg hneeds] at hreplace
    refine ⟨_, hreplace true s rfl, ?_⟩
    rw [if_neg fun hno => hneeds hno.1]
    exact hgrown s (h.grown (by omega))

def ofText (text : List UInt8) : Str where
  isHeap := false
  buff := text ++ replicate (11 - text.length) 0
  cap := 0
  len := text.length

theorem ofText_inv {text : List UInt8} (hlen : text.length ≤ 10) : (ofText text).Inv where
  size := by
    show (text ++ replicate (11 - text.length) 0).length = 11
    rw [length_append, length_replicate]
    omega
  block := fun h => Bool.noConfusion h
  bound := hlen
  nul := by
    show (text ++ replicate (11 - text.length) 0)[text.length]? = some 0
    rw [getElem?_append_right (Nat.le_refl _), getElem?_replicate, if_pos (by omega)]

end Str

end WString
