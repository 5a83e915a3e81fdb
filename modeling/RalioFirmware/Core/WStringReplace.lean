import RalioFirmware.Core.WStringInv

/-!
# Replacement inside a `String`

`replace` finds what it replaces with `strstr`, which ends at a NUL, and steps over
it by its length, which does not.  A longer replacement is counted forwards and made
backwards, so that the two passes agree only if no replacement completes another
occurrence in front of it.  Away from these inputs the `String` stays in order, also
when it is an operand of its own.
-/

namespace WString

open Word Bytes CString List

namespace Str

variable {s : Str} {env : Env} {find replace : Operand}

/-- In front of an occurrence the replacement would complete another one. -/
def Straddles (mem find replace : List UInt8) : Prop :=
  ∃ i < mem.length, ∃ k < find.length, Occurs find mem i ∧ 0 < k ∧ k ≤ i ∧
    (mem.drop (i - k)).take k = find.take k ∧ find.drop k <+: replace

instance (find mem : List UInt8) (i : Nat) : Decidable (Occurs find mem i) :=
  inferInstanceAs (Decidable (_ ∧ _))

instance (mem find replace : List UInt8) : Decidable (Straddles mem find replace) :=
  inferInstanceAs (Decidable (∃ i < mem.length, ∃ k < find.length, _))

/-- Whether an operand is the `String` itself. -/
def Operand.isSelf : Operand → Bool
  | .self => true
  | .other _ => false

/-- A replacement that keeps the `String` in order: there is nothing to replace, or what
is replaced has no NUL, nor has the `String` if it gets shorter, and no replacement
completes an occurrence. -/
def Replaceable (s : Str) (find replace : Operand) : Prop :=
  s.len = 0 ∨ (find.str s).len = 0 ∨ strstr (cstr (find.str s).buff) s.buff = none ∨
    ((0 : UInt8) ∉ (find.str s).contents ∧
      (find.isSelf = true → (replace.str s).len ≤ (find.str s).len →
        (replace.str s).contents.head? ≠ some 0) ∧
      ((replace.str s).len < (find.str s).len → (0 : UInt8) ∉ s.contents) ∧
      ((find.str s).len < (replace.str s).len →
        ¬ Straddles s.contents (find.str s).contents (replace.str s).contents))

instance (s : Str) (find replace : Operand) : Decidable (s.Replaceable find replace) :=
  inferInstanceAs (Decidable (_ ∨ _ ∨ _ ∨ _))

/-! ## What is found -/

theorem Inv.cstr_buff (h : s.Inv) : cstr s.buff = cstr s.contents := cstr_of_terminated h.nul

theorem Inv.cstr_buff_of_notMem (h : s.Inv) (hzero : (0 : UInt8) ∉ s.contents) :
    cstr s.buff = s.contents := by
  rw [h.cstr_buff, cstr_eq_self hzero]

theorem Inv.cstr_le (h : s.Inv) : (cstr s.buff).length ≤ s.len := cstr_length_le h.nul

theorem Inv.drop_nul (h : s.Inv) {i : Nat} (hi : i ≤ s.len) :
    (s.buff.drop i)[s.len - i]? = some 0 := by
  rw [getElem?_drop, Nat.add_sub_cancel' hi]
  exact h.nul

theorem occurs_contents (h : s.Inv) (needle : List UInt8) (i : Nat) :
    Occurs needle s.buff i ↔ Occurs needle s.contents i := by
  unfold Occurs
  rw [h.cstr_buff]

variable {n : Nat}

theorem foundFrom_le (h : s.Inv) {readFrom : Nat} (hread : readFrom ≤ s.len)
    (hfound : s.foundFrom find readFrom = some n) :
    readFrom + n + (cstr (find.str s).buff).length ≤ s.len := by
  have hlen := (strstr_some hfound).1.length_le
  have hle := cstr_length_le (h.drop_nul hread)
  omega

theorem foundFrom_end {readFrom : Nat} (hneedle : cstr (find.str s).buff ≠ [])
    (hnul : s.buff[readFrom]? = some 0) : s.foundFrom find readFrom = none :=
  strstr_nul hneedle (by rw [getElem?_drop]; exact hnul)

theorem foundFrom_self : s.foundFrom .self 0 = some 0 := strstr_self s.buff

theorem cstr_ne_nil {mem : List UInt8} {b : UInt8} (h : mem[0]? = some b) (hb : b ≠ 0) :
    cstr mem ≠ [] := by
  cases mem with
  | nil => simp at h
  | cons a rest =>
    obtain rfl : a = b := by simpa using h
    rw [cstr_cons hb]
    exact cons_ne_nil _ _

/-! ## The same length -/

variable {t : Str}

theorem replaceSame_other {m : Nat} (ht : t.Inv) (hzero : (0 : UInt8) ∉ t.contents)
    (htlen : t.len = m) (hm : 0 < m) :
    ∀ (fuel readFrom : Nat) (s : Str), s.Inv → (replace.str s).Inv → (replace.str s).len = m →
      readFrom ≤ s.len → s.len - readFrom < fuel →
      ∃ t', replaceSame (.other t) replace fuel readFrom s = some t' ∧ t'.Inv := by
  intro fuel
  induction fuel with
  | zero => intro readFrom s _ _ _ _ hfuel; omega
  | succ fuel ih =>
    intro readFrom s h hop hoplen hread hfuel
    rw [replaceSame]
    cases hfound : s.foundFrom (.other t) readFrom with
    | none => exact ⟨s, rfl, h⟩
    | some n =>
      have hle := foundFrom_le h hread hfound
      have hneedle : (cstr t.buff).length = m := by
        rw [ht.cstr_buff_of_notMem hzero, ht.contents_length, htlen]
      simp only [Operand.str] at hle
      have hwrite : (s.write (readFrom + n) (replace.str s).contents).Inv := by
        refine h.write ?_
        rw [hop.contents_length]
        omega
      refine ih _ _ hwrite ?_ ?_ ?_ ?_
      · cases replace with
        | self => exact hwrite
        | other r => exact hop
      · cases replace with
        | self => exact hoplen
        | other r => exact hoplen
      · rw [write_len]
        omega
      · rw [write_len]
        omega

variable {fuel : Nat}

theorem replaceSame_self (h : s.Inv) (hop : (replace.str s).Inv)
    (hoplen : (replace.str s).len = s.len) (hlen : 0 < s.len)
    (hhead : (replace.str s).contents.head? ≠ some 0) (hfuel : 1 < fuel) :
    ∃ t, replaceSame .self replace fuel 0 s = some t ∧ t.Inv := by
  obtain ⟨fuel, rfl⟩ : ∃ k, fuel = k + 2 := ⟨fuel - 2, by omega⟩
  have hcontents := hop.contents_length
  have hwrite : (s.write 0 (replace.str s).contents).Inv :=
    h.write (by rw [hcontents, hoplen]; omega)
  rw [replaceSame, foundFrom_self]
  simp only [Nat.zero_add]
  rw [replaceSame, foundFrom_end]
  · exact ⟨_, rfl, hwrite⟩
  · -- The needle is the replacement by now.
    obtain ⟨b, rest, hcons⟩ := exists_cons_of_length_pos
      (show 0 < (replace.str s).contents.length by omega)
    rw [hcons] at hhead
    refine cstr_ne_nil (b := b) ?_ (by simpa using hhead)
    show (memcpy s.buff 0 (replace.str s).contents)[0]? = some b
    rw [hcons]
    rfl
  · rw [hoplen]
    exact hwrite.nul

/-! ## A shorter replacement -/

/-- Where the loop stands in a `String` of `total` bytes: what is behind `readFrom` waits to
be moved to `writeTo`, and the length tells its end there. -/
structure Moving (total readFrom writeTo : Nat) (s : Str) : Prop extends Sized s where
  total_le : total ≤ s.capacity
  read_le : readFrom ≤ total
  write_le : writeTo ≤ readFrom
  len_eq : s.len = total - (readFrom - writeTo)
  nul : s.buff[total]? = some 0
  text : (0 : UInt8) ∉ (s.buff.drop readFrom).take (total - readFrom)

variable {off k : Nat} {src : List UInt8}

theorem write_drop (hin : off + src.length ≤ s.buff.length)
    (hk : off + src.length ≤ k) : (s.write off src).buff.drop k = s.buff.drop k := by
  apply ext_getElem?
  intro i
  rw [getElem?_drop, getElem?_drop]
  have := memcpy_getElem? hin (k + i)
  rw [if_neg (by omega)] at this
  exact this

theorem write_take (hin : off + src.length ≤ s.buff.length)
    (hk : k ≤ off) : (s.write off src).buff.take k = s.buff.take k := by
  apply ext_getElem?
  intro i
  rw [getElem?_take, getElem?_take]
  split
  · have := memcpy_getElem? hin i
    rw [if_neg (by omega)] at this
    exact this
  · rfl

variable {writeTo : Nat}

theorem Moving.strlen_rest {total readFrom : Nat} (h : Moving total readFrom writeTo s) :
    strlen (s.buff.drop readFrom) = total - readFrom := by
  have hnul : (s.buff.drop readFrom)[total - readFrom]? = some 0 := by
    rw [getElem?_drop, Nat.add_sub_cancel' h.read_le]
    exact h.nul
  have hsize := h.size
  have htotal := h.total_le
  unfold strlen
  rw [cstr_of_terminated hnul, cstr_eq_self h.text, length_take, length_drop]
  omega

theorem Moving.finish {total readFrom : Nat} (h : Moving total readFrom writeTo s) :
    (s.write writeTo ((s.buff.drop readFrom).take (strlen (s.buff.drop readFrom) + 1))).Inv := by
  have hsize := h.size
  have htotal := h.total_le
  have hread := h.read_le
  have hwrite := h.write_le
  have hlen := h.len_eq
  have hmoved : ((s.buff.drop readFrom).take (strlen (s.buff.drop readFrom) + 1)).length =
      total - readFrom + 1 := by
    rw [h.strlen_rest, length_take, length_drop]
    omega
  have hin : writeTo + ((s.buff.drop readFrom).take
      (strlen (s.buff.drop readFrom) + 1)).length ≤ s.buff.length := by omega
  refine { h.toSized.write (by rw [← hsize]; exact hin) with bound := ?_, nul := ?_ }
  · rw [write_len, write_capacity]
    omega
  · have hbyte := memcpy_getElem? hin s.len
    rw [if_pos (by omega), getElem?_take, if_pos (by rw [h.strlen_rest]; omega),
      getElem?_drop, show readFrom + (s.len - writeTo) = total by omega, h.nul] at hbyte
    exact hbyte

theorem Moving.round {total readFrom m r : Nat} {text : List UInt8}
    (h : Moving total readFrom writeTo s) (hfound : readFrom + n + m ≤ total) (hr : r < m)
    (htext : text.length = r) :
    Moving total (readFrom + n + m) (writeTo + n + r)
      (((s.write writeTo ((s.buff.drop readFrom).take n)).write (writeTo + n) text).setLen
        (sub32 s.len (m - r))) := by
  have hsize := h.size
  have htotal := h.total_le
  have hwrite := h.write_le
  have hlen := h.len_eq
  have hcap := h.capacity_lt
  have hmoved : ((s.buff.drop readFrom).take n).length = n := by grind
  have hin₁ : writeTo + ((s.buff.drop readFrom).take n).length ≤ s.buff.length := by omega
  have hsized₁ := h.toSized.write (by rw [← hsize]; exact hin₁)
  have hin₂ : writeTo + n + text.length ≤
      (s.write writeTo ((s.buff.drop readFrom).take n)).buff.length := by
    rw [hsized₁.size, write_capacity]
    omega
  have hdrop : ∀ k, readFrom + n + m ≤ k →
      ((s.write writeTo ((s.buff.drop readFrom).take n)).write (writeTo + n) text).buff.drop k =
        s.buff.drop k := fun k hk => by
    rw [write_drop hin₂ (by omega), write_drop hin₁ (by omega)]
  have hsized₂ := hsized₁.write (by rw [← hsized₁.size]; exact hin₂)
  have hnew : sub32 s.len (m - r) = s.len - (m - r) :=
    sub32_of_le (by omega) (Nat.lt_of_le_of_lt (by omega : s.len ≤ s.capacity)
      (Nat.lt_trans hcap (by decide)))
  rw [hnew]
  refine { hsized₂.setLen _ with
    total_le := htotal, read_le := hfound, write_le := by omega, len_eq := ?_, nul := ?_,
    text := ?_ }
  · rw [hsized₂.setLen_len (by rw [write_capacity, write_capacity]; omega)]
    omega
  · have hbyte := congrArg (·[0]?) (hdrop total hfound)
    simp only [getElem?_drop, Nat.add_zero] at hbyte
    rw [setLen_buff, hbyte]
    exact h.nul
  · rw [setLen_buff, hdrop _ (Nat.le_refl _)]
    intro hmem
    apply h.text
    have hsplit : (s.buff.drop readFrom).take (total - readFrom) =
        ((s.buff.drop readFrom).take (total - readFrom)).take (n + m) ++
          (s.buff.drop (readFrom + n + m)).take (total - (readFrom + n + m)) := by
      conv_lhs => rw [← take_append_drop (n + m)
        ((s.buff.drop readFrom).take (total - readFrom))]
      rw [drop_take, drop_drop, Nat.sub_sub, Nat.add_assoc readFrom n m,
        ← Nat.sub_sub, Nat.sub_sub]
    rw [hsplit]
    exact mem_append_right _ hmem

theorem replaceShorter_other {r : Str} {m total : Nat} (ht : t.Inv) (hr : r.Inv)
    (hzero : (0 : UInt8) ∉ t.contents) (htlen : t.len = m) (hrlen : r.len < m) :
    ∀ (fuel readFrom writeTo : Nat) (s : Str), Moving total readFrom writeTo s →
      total - readFrom < fuel →
      ∃ t', replaceShorter (.other t) (.other r) (m - r.len) fuel readFrom writeTo s = some t' ∧
        t'.Inv := by
  intro fuel
  induction fuel with
  | zero => intro readFrom writeTo s _ hfuel; omega
  | succ fuel ih =>
    intro readFrom writeTo s h hfuel
    rw [replaceShorter]
    cases hfound : s.foundFrom (.other t) readFrom with
    | none => exact ⟨_, rfl, h.finish⟩
    | some n =>
      have hneedle : (cstr t.buff).length = m := by
        rw [ht.cstr_buff_of_notMem hzero, ht.contents_length, htlen]
      have hocc := (strstr_some hfound).1.length_le
      have hrest := h.strlen_rest
      have hread := h.read_le
      simp only [Operand.str, hneedle] at hocc
      unfold strlen at hrest
      rw [hrest] at hocc
      have hround := h.round (n := n) (m := m) (by omega) hrlen hr.contents_length
      simp only [Operand.str, htlen]
      exact ih _ _ _ hround (by omega)

theorem memcpy_take_le {k : Nat} (hin : off + src.length ≤ buf.length)
    (hk : k ≤ src.length) : (memcpy buf off src).take (off + k) = buf.take off ++ src.take k := by
  have hfull := congrArg (take (off + k)) (memcpy_take hin)
  have hlen : (buf.take off).length = off := length_take_of_le (by omega)
  rw [take_take, Nat.min_eq_left (by omega)] at hfull
  rw [hfull, take_append, hlen, Nat.add_sub_cancel_left, take_of_length_le (by omega)]

theorem Moving.finish_contents {total readFrom : Nat}
    (h : Moving total readFrom writeTo s) :
    (s.write writeTo ((s.buff.drop readFrom).take (strlen (s.buff.drop readFrom) + 1))).contents =
      s.buff.take writeTo ++ (s.buff.drop readFrom).take (total - readFrom) := by
  have hsize := h.size
  have htotal := h.total_le
  have hread := h.read_le
  have hwrite := h.write_le
  have hlen : s.len = writeTo + (total - readFrom) := by
    rw [h.len_eq]
    omega
  have hmoved : ((s.buff.drop readFrom).take (total - readFrom + 1)).length =
      total - readFrom + 1 := by grind
  rw [h.strlen_rest]
  show (memcpy s.buff writeTo _).take s.len = _
  rw [hlen, memcpy_take_le (by omega) (by omega), take_take, Nat.min_eq_left (by omega)]

theorem replaceShorter_self {r : Str} (h : s.Inv) (hr : r.Inv) (hlen : r.len < s.len)
    (hzero : (0 : UInt8) ∉ s.contents) (hhead : r.contents.head? ≠ some 0)
    (hfuel : 1 < fuel) :
    ∃ t, replaceShorter .self (.other r) (s.len - r.len) fuel 0 0 s = some t ∧ t.Inv ∧
      t.contents = r.contents := by
  have hrlen := hr.contents_length
  have hsize := h.size
  have hbound := h.bound
  obtain ⟨fuel, rfl⟩ : ∃ k, fuel = k + 2 := ⟨fuel - 2, by omega⟩
  have hmoving : Moving s.len 0 0 s :=
    { h with total_le := h.bound, read_le := Nat.zero_le _, write_le := Nat.le_refl _,
             len_eq := by omega, text := by rw [drop_zero, Nat.sub_zero]; exact hzero }
  have hround := hmoving.round (n := 0) (m := s.len) (by omega) hlen hrlen
  rw [replaceShorter, foundFrom_self]
  simp only [Operand.str, drop_zero, take_zero, Nat.zero_add, Nat.add_zero,
    write_len] at hround ⊢
  rw [replaceShorter, foundFrom_end]
  · refine ⟨_, rfl, hround.finish, ?_⟩
    have hcopy := hround.finish_contents
    rw [Nat.sub_self, take_zero, append_nil] at hcopy
    rw [hcopy]
    have htake := @memcpy_take (memcpy s.buff 0 []) r.contents 0 (by
      rw [memcpy_length (by simp), Nat.zero_add]
      omega)
    rw [Nat.zero_add, take_zero, nil_append, hrlen] at htake
    exact htake
  · -- The needle is the replacement by now, or the old text if that is empty.
    show cstr (memcpy (memcpy s.buff 0 []) 0 r.contents) ≠ []
    cases hcons : r.contents with
    | nil =>
      have hbuff : memcpy (memcpy s.buff 0 []) 0 [] = s.buff := by simp [memcpy]
      rw [hbuff, h.cstr_buff_of_notMem hzero]
      exact ne_nil_of_length_pos (by rw [h.contents_length]; omega)
    | cons b rest =>
      rw [hcons] at hhead
      exact cstr_ne_nil (b := b) rfl (by simpa using hhead)
  · exact hround.nul

/-! ## A longer replacement -/

/-- Places in ascending order, each `m` or more behind the one before. -/
def Spaced (m : Nat) : Nat → List Nat → Prop
  | _, [] => True
  | start, p :: ps => start ≤ p ∧ Spaced m (p + m) ps

variable {ps : List Nat}

theorem Spaced.mono {m a b : Nat} (h : Spaced m b ps) (hab : a ≤ b) :
    Spaced m a ps := by
  cases ps with
  | nil => trivial
  | cons p ps => exact ⟨hab.trans h.1, h.2⟩

/-- **The forward pass counts at least as many occurrences as can stand side by
side.** -/
theorem sizeNeeded_spec {m diff : Nat} (hneedle : (cstr (find.str s).buff).length = m)
    (hlen : (find.str s).len = m) (hm : 0 < m) :
    ∀ (fuel readFrom size : Nat), readFrom ≤ (cstr s.buff).length →
      (cstr s.buff).length - readFrom < fuel →
      size + ((cstr s.buff).length - readFrom) * diff < 4294967296 →
      ∃ k ≤ (cstr s.buff).length - readFrom,
        s.sizeNeeded find diff fuel readFrom size = some (size + k * diff) ∧
        ∀ ps, Spaced m readFrom ps → (∀ p ∈ ps, Occurs (cstr (find.str s).buff) s.buff p) →
          ps.length ≤ k := by
  intro fuel
  induction fuel with
  | zero => intro readFrom size _ hfuel; omega
  | succ fuel ih =>
    intro readFrom size hread hfuel hsize
    rw [sizeNeeded]
    cases hfound : s.foundFrom find readFrom with
    | none =>
      refine ⟨0, Nat.zero_le _, by simp, ?_⟩
      intro ps hspaced hocc
      cases ps with
      | nil => exact Nat.le_refl 0
      | cons p ps =>
        have hp := hocc p mem_cons_self
        rw [← Nat.add_sub_cancel' hspaced.1, ← occurs_drop hread] at hp
        exact absurd hp (strstr_none hfound _)
    | some n =>
      obtain ⟨hhere, hfirst⟩ := strstr_some hfound
      rw [occurs_drop hread] at hhere
      have hle := hhere.length_le
      rw [hneedle] at hle
      generalize hend : (cstr s.buff).length = stop at hle hread hfuel hsize ih ⊢
      have hone : diff + (stop - (readFrom + n + m)) * diff ≤ (stop - readFrom) * diff := by
        rw [Nat.add_comm, ← Nat.succ_mul]
        exact Nat.mul_le_mul_right _ (by omega)
      have hdiff : size + diff < 4294967296 := by
        have := Nat.zero_le ((stop - (readFrom + n + m)) * diff)
        generalize (stop - (readFrom + n + m)) * diff = a at hone this
        generalize (stop - readFrom) * diff = b at hone hsize
        omega
      simp only
      rw [hlen, u32_of_lt hdiff]
      obtain ⟨k, hk, hcount, hmax⟩ := ih (readFrom + n + m) (size + diff) hle (by omega) (by
        generalize (stop - (readFrom + n + m)) * diff = a at hone ⊢
        generalize (stop - readFrom) * diff = b at hone hsize
        omega)
      refine ⟨k + 1, by omega, ?_, ?_⟩
      · grind
      · intro ps hspaced hocc
        cases ps with
        | nil => exact Nat.zero_le _
        | cons p ps =>
          have hp := hocc p mem_cons_self
          -- The first place found is not behind the first of the others.
          have hfront : readFrom + n ≤ p := by
            by_contra hlt
            have hstart := hspaced.1
            rw [← Nat.add_sub_cancel' hspaced.1, ← occurs_drop (hend ▸ hread)] at hp
            exact hfirst _ (by omega) hp
          have := hmax ps (hspaced.2.mono (by omega))
            fun q hq => hocc q (mem_cons_of_mem p hq)
          rw [length_cons]
          omega

theorem lastIndexLoop_sound {needle mem : List UInt8} {fromIndex : Nat} (hneedle : needle ≠ []) :
    ∀ (fuel p : Nat) (found : Option Nat) (index : Nat), p ≤ (cstr mem).length →
      (∀ q, found = some q → q ≤ fromIndex ∧ Occurs needle mem q) →
      lastIndexLoop needle mem fromIndex fuel p found = some index →
      index ≤ fromIndex ∧ Occurs needle mem index := by
  have hpos := length_pos_of_ne_nil hneedle
  intro fuel
  induction fuel with
  | zero => intro p found index _ hfound h; exact hfound index h
  | succ fuel ih =>
    intro p found index hp hfound h
    rw [lastIndexLoop] at h
    split at h
    · split at h
      · exact hfound index h
      · rename_i n hn
        have hhere := (strstr_some hn).1
        rw [occurs_drop hp] at hhere
        have hle := hhere.length_le
        refine ih _ _ index (by omega) ?_ h
        intro q hq
        split at hq
        · rename_i hin
          obtain rfl := Option.some.inj hq
          exact ⟨hin, hhere⟩
        · exact hfound q hq
    · exact hfound index h

variable {index : Nat}

theorem lastIndexOf_sound {stop : Nat} (hneedle : cstr t.buff ≠ [])
    (hstop : 0 < stop) (h : s.lastIndexOf t (stop - 1) = some index) :
    index < stop ∧ Occurs (cstr t.buff) s.buff index := by
  unfold lastIndexOf at h
  split at h
  · cases h
  · obtain ⟨hle, hocc⟩ := lastIndexLoop_sound hneedle _ _ _ _ (Nat.zero_le _)
      (fun q hq => absurd hq (by simp)) h
    refine ⟨?_, hocc⟩
    split at hle <;> omega

/-- **A round of the backward loop.**  What is in front of the place found stays, and the
replacement stands from there on. -/
theorem widen_spec {diff m : Nat} (h : s.Inv) (hfind : (find.str s).len = m)
    (hin : index + m ≤ s.len) (hroom : s.len + diff ≤ s.capacity)
    (hop : (replace.str s).Inv) (hm : m ≤ (replace.str s).len)
    (hfits : index + (replace.str s).len ≤ s.len + diff) :
    (s.widen find replace diff index).Inv ∧
      (s.widen find replace diff index).len = s.len + diff ∧
      (s.widen find replace diff index).capacity = s.capacity ∧
      (s.widen find replace diff index).buff.take index = s.buff.take index ∧
      ((s.widen find replace diff index).buff.drop index).take m =
        (replace.str s).contents.take m := by
  have hsize := h.size
  have hlt : s.len < 4294967296 :=
    Nat.lt_of_le_of_lt h.bound (Nat.lt_trans h.capacity_lt (by decide))
  unfold widen
  simp only [hfind, sub32_of_le hin hlt, write_len]
  generalize htail : (s.buff.drop (index + m)).take (s.len - (index + m)) = tail
  have htaillen : tail.length = s.len - (index + m) := by grind
  have hin₁ : index + m + diff + tail.length ≤ s.buff.length := by omega
  have hsized₁ : (s.write (index + m + diff) tail).Sized :=
    h.toSized.write (by rw [← hsize]; exact hin₁)
  -- The replacement may be the `String` itself, moved apart by now.
  have htext : (replace.str (s.write (index + m + diff) tail)).contents.length =
        (replace.str s).len ∧
      (replace.str (s.write (index + m + diff) tail)).contents.take m =
        (replace.str s).contents.take m := by
    cases replace with
    | other r => exact ⟨hop.contents_length, rfl⟩
    | self =>
      simp only [Operand.str] at hm ⊢
      refine ⟨?_, ?_⟩
      · rw [contents, length_take, hsized₁.size, write_capacity, write_len]
        omega
      · rw [contents, contents, take_take, take_take, write_len,
          Nat.min_eq_left hm, write_take hin₁ (by omega)]
  generalize (replace.str (s.write (index + m + diff) tail)).contents = text at htext ⊢
  obtain ⟨htextlen, htexttake⟩ := htext
  have hin₂ : index + text.length ≤ (s.write (index + m + diff) tail).buff.length := by
    rw [hsized₁.size, write_capacity]
    omega
  have hsized₂ := hsized₁.write (by rw [← hsized₁.size]; exact hin₂)
  have hnew : s.len + diff ≤ ((s.write (index + m + diff) tail).write index text).capacity := hroom
  have hin₃ : s.len + diff + [(0 : UInt8)].length ≤
      (((s.write (index + m + diff) tail).write index text).setLen (s.len + diff)).buff.length := by
    rw [setLen_buff, hsized₂.size, length_singleton]
    omega
  refine ⟨hsized₂.terminate hnew, ?_, rfl, ?_, ?_⟩
  · rw [hsized₂.setLen_len hnew]
  · rw [write_take hin₃ (by omega), setLen_buff, write_take hin₂ (Nat.le_refl _),
      write_take hin₁ (by omega)]
  · rw [← htexttake]
    have htake : ∀ l : List UInt8, (l.drop index).take m = (l.take (index + m)).drop index :=
      fun l => by rw [drop_take, Nat.add_sub_cancel_left]
    rw [htake, write_take hin₃ (by omega), setLen_buff, ← htake]
    have hcopy := congrArg (drop index) (memcpy_take hin₂)
    have hindex : ((s.write (index + m + diff) tail).buff.take index).length = index := by
      rw [length_take]
      omega
    rw [drop_left' hindex, drop_take, Nat.add_sub_cancel_left] at hcopy
    have := congrArg (take m) hcopy
    rwa [take_take, Nat.min_eq_left (by omega)] at this

/-- Where the backward loop stands: behind `stop` the occurrences at `ps` are replaced, and
in front of it everything is as it was. -/
structure Widening (s₀ : Str) (needle : List UInt8) (diff stop : Nat) (ps : List Nat) (s : Str) :
    Prop extends Inv s where
  capacity_eq : s.capacity = s₀.capacity
  len_eq : s.len = s₀.len + ps.length * diff
  stop_le : stop ≤ s₀.len
  front : s.buff.take stop = s₀.buff.take stop
  spaced : Spaced needle.length stop ps
  places : ∀ p ∈ ps, Occurs needle s₀.buff p
  ahead : ∀ q < stop, Occurs needle s.buff q → Occurs needle s₀.buff q ∧ q + needle.length ≤ stop

theorem Inv.widening (h : s.Inv) (needle : List UInt8) (diff : Nat) :
    Widening s needle diff s.len [] s :=
  { h with
    capacity_eq := rfl, len_eq := by simp, stop_le := Nat.le_refl _, front := rfl,
    spaced := trivial, places := by simp,
    ahead := fun q _ hq => ⟨hq, hq.length_le.trans h.cstr_le⟩ }

theorem straddles_of_occurs {s₀ : Str} {needle text : List UInt8} {p : Nat}
    (h₀ : s₀.Inv) (hneedle : needle ≠ []) (hindex : Occurs needle s₀.buff index)
    (hfront : t.buff.take index = s₀.buff.take index)
    (htext : (t.buff.drop index).take needle.length = text.take needle.length)
    (hp : p < index) (hlong : index < p + needle.length) (hocc : Occurs needle t.buff p) :
    Straddles s₀.contents needle text := by
  have hle := hindex.length_le.trans h₀.cstr_le
  have hpos := length_pos_of_ne_nil hneedle
  obtain ⟨-, hbytes⟩ := (occurs_iff hneedle).mp hocc
  refine ⟨index, by rw [h₀.contents_length]; omega, index - p, by omega,
    (occurs_contents h₀ _ _).mp hindex, by omega, by omega, ?_, ?_⟩
  · have hsame : (s₀.contents.drop p).take (index - p) = (t.buff.drop p).take (index - p) := by
      have := congrArg (drop p) hfront
      rw [drop_take, drop_take] at this
      rw [this, contents, drop_take, take_take, Nat.min_eq_left (by omega)]
    rw [show index - (index - p) = p by omega, hsame, ← hbytes, take_take,
      Nat.min_eq_left (by omega)]
  · have hdrop : needle.drop (index - p) = text.take (needle.length - (index - p)) := by
      have h₁ := congrArg (drop (index - p)) hbytes
      rw [drop_take, drop_drop, show p + (index - p) = index by omega] at h₁
      have h₂ := congrArg (take (needle.length - (index - p))) htext
      rw [take_take, take_take, Nat.min_eq_left (Nat.sub_le _ _)] at h₂
      rw [← h₁, h₂]
    rw [hdrop]
    exact List.take_prefix _ _

section Longer

variable {s₀ : Str} {needle : List UInt8} {m r diff : Nat}

/-- **The backward loop replaces occurrences of the text it began with, one in front of the
other.** -/
theorem Widening.round (find : Operand) {stop : Nat} (h₀ : s₀.Inv)
    (h : Widening s₀ needle diff stop ps s) (hneedle : needle ≠ [])
    (hlen : (find.str s).len = needle.length) (hop : (replace.str s₀).Inv)
    (hoplen : (replace.str s₀).len = needle.length + diff)
    (hroom : ∀ ps, Spaced needle.length 0 ps → (∀ p ∈ ps, Occurs needle s₀.buff p) →
      s₀.len + ps.length * diff ≤ s₀.capacity)
    (hfit : ¬ Straddles s₀.contents needle (replace.str s₀).contents)
    (hindex : index < stop) (hocc : Occurs needle s.buff index) :
    Widening s₀ needle diff index (index :: ps) (s.widen find replace diff index) := by
  obtain ⟨hocc₀, hend⟩ := h.ahead index hindex hocc
  have hstop := h.stop_le
  have hslen := h.len_eq
  have hspaced : Spaced needle.length index (index :: ps) := ⟨Nat.le_refl _, h.spaced.mono hend⟩
  have hplaces : ∀ p ∈ index :: ps, Occurs needle s₀.buff p := fun p hp => by
    rcases mem_cons.mp hp with rfl | hp
    · exact hocc₀
    · exact h.places p hp
  have hcapacity := hroom (index :: ps) (hspaced.mono (Nat.zero_le _)) hplaces
  rw [length_cons, Nat.succ_mul, ← Nat.add_assoc, ← hslen, ← h.capacity_eq] at hcapacity
  have hgrown : s₀.len ≤ s.len := by grind
  -- What is known of the operand: it is the same, or it is this `String` and keeps its start.
  have hoperand : (replace.str s).Inv ∧ needle.length ≤ (replace.str s).len ∧
      index + (replace.str s).len ≤ s.len + diff ∧
      (replace.str s).contents.take needle.length =
        (replace.str s₀).contents.take needle.length := by
    cases replace with
    | other r =>
      simp only [Operand.str] at hop hoplen ⊢
      exact ⟨hop, by omega, by omega, trivial⟩
    | self =>
      simp only [Operand.str] at hop hoplen ⊢
      refine ⟨h.toInv, by omega, by omega, ?_⟩
      have := congrArg (take needle.length) h.front
      rw [take_take, take_take, Nat.min_eq_left (by omega)] at this
      rw [contents, contents, take_take, take_take, Nat.min_eq_left (by omega),
        Nat.min_eq_left (by omega), this]
  obtain ⟨hopinv, hoplow, hopfits, hoptake⟩ := hoperand
  obtain ⟨hinv, hnewlen, hnewcap, hfront, htext⟩ :=
    widen_spec h.toInv hlen (by omega) hcapacity hopinv hoplow hopfits
  have hfront₀ : (s.widen find replace diff index).buff.take index = s₀.buff.take index := by
    have := congrArg (take index) h.front
    rw [take_take, take_take, Nat.min_eq_left (Nat.le_of_lt hindex)] at this
    rw [hfront, this]
  refine { hinv with
    capacity_eq := hnewcap.trans h.capacity_eq, len_eq := ?_, stop_le := by omega,
    front := hfront₀, spaced := hspaced, places := hplaces, ahead := ?_ }
  · rw [hnewlen, hslen, length_cons, Nat.succ_mul, Nat.add_assoc]
  · intro q hq hqocc
    by_cases hclear : q + needle.length ≤ index
    · refine ⟨hqocc.congr hneedle ?_, hclear⟩
      have := congrArg (take (q + needle.length)) hfront₀
      rwa [take_take, take_take, Nat.min_eq_left hclear] at this
    · exact absurd (straddles_of_occurs h₀ hneedle hocc₀ hfront₀ (htext.trans hoptake) hq
        (by omega) hqocc) hfit

theorem replaceLonger_stop (fuel : Nat) (s : Str) :
    replaceLonger find replace diff fuel 0 s = s := by
  cases fuel with
  | zero => rfl
  | succ fuel => rw [replaceLonger, if_pos rfl]

theorem replaceLonger_other (h₀ : s₀.Inv) (hneedle : cstr t.buff ≠ [])
    (hlen : t.len = (cstr t.buff).length) (hop : (replace.str s₀).Inv)
    (hoplen : (replace.str s₀).len = t.len + diff)
    (hroom : ∀ ps, Spaced (cstr t.buff).length 0 ps →
      (∀ p ∈ ps, Occurs (cstr t.buff) s₀.buff p) → s₀.len + ps.length * diff ≤ s₀.capacity)
    (hfit : ¬ Straddles s₀.contents (cstr t.buff) (replace.str s₀).contents) :
    ∀ (fuel stop : Nat) (ps : List Nat) (s : Str),
      Widening s₀ (cstr t.buff) diff stop ps s →
      (replaceLonger (.other t) replace diff fuel stop s).Inv := by
  intro fuel
  induction fuel with
  | zero => intro stop ps s h; exact h.toInv
  | succ fuel ih =>
    intro stop ps s h
    rw [replaceLonger]
    split
    · exact h.toInv
    · cases hfound : s.lastIndexOf ((Operand.other t).str s) (stop - 1) with
      | none => exact h.toInv
      | some index =>
        obtain ⟨hindex, hocc⟩ := lastIndexOf_sound hneedle (by omega) hfound
        exact ih _ _ _ (h.round (.other t) h₀ hneedle hlen hop
          (hlen ▸ hoplen) hroom hfit hindex hocc)

theorem replaceLonger_self (h : s.Inv) (hneedle : cstr s.buff ≠ [])
    (hlen : s.len = (cstr s.buff).length) (hop : (replace.str s).Inv)
    (hoplen : (replace.str s).len = s.len + diff)
    (hroom : ∀ ps, Spaced (cstr s.buff).length 0 ps →
      (∀ p ∈ ps, Occurs (cstr s.buff) s.buff p) → s.len + ps.length * diff ≤ s.capacity)
    (hfit : ¬ Straddles s.contents (cstr s.buff) (replace.str s).contents) (fuel : Nat) :
    (replaceLonger .self replace diff fuel s.len s).Inv := by
  cases fuel with
  | zero => exact h
  | succ fuel =>
    rw [replaceLonger]
    split
    · exact h
    · cases hfound : s.lastIndexOf (Operand.self.str s) (s.len - 1) with
      | none => exact h
      | some index =>
        obtain ⟨hindex, hocc⟩ := lastIndexOf_sound hneedle (by omega) hfound
        have hround := (h.widening (cstr s.buff) diff).round .self h hneedle hlen
          hop (hlen ▸ hoplen) hroom hfit hindex hocc
        have hle := hocc.length_le
        obtain rfl : index = 0 := by omega
        simp only
        rw [replaceLonger_stop]
        exact hround.toInv

end Longer

/-! ## All of them -/

theorem write_same (s : Str) (n : Nat) : s.write 0 (s.buff.take n) = s := by
  have hbuff : memcpy s.buff 0 (s.buff.take n) = s.buff := by
    rw [memcpy, take_zero, nil_append, Nat.zero_add, length_take]
    by_cases hn : n ≤ s.buff.length
    · rw [Nat.min_eq_left hn, take_append_drop]
    · rw [Nat.min_eq_right (by omega), drop_length, append_nil,
        take_of_length_le (by omega)]
  unfold write
  rw [hbuff]

theorem replace_none (hfound : strstr (cstr (find.str s).buff) s.buff = none) :
    s.replace env find replace = some s := by
  have hstart : s.foundFrom find 0 = none := hfound
  unfold Str.replace
  simp only
  split
  · rfl
  · split
    · rw [replaceSame, hstart]
    · split
      · rw [replaceShorter, hstart]
        simp only [drop_zero, write_same]
      · rw [sizeNeeded, hstart]
        simp

theorem needed_lt {diff : Nat} (hn : n < 65535) (hk : k ≤ n) (hdiff : diff < 65535) :
    n + k * diff + 16 < 4294967296 := by
  have hmul : k * diff ≤ 65534 * 65534 := Nat.mul_le_mul (by omega) (by omega)
  omega

theorem replaceLonger_inv (h : s.Inv) (hf : (find.str s).Inv) (hop : (replace.str s).Inv)
    (hzero : (0 : UInt8) ∉ (find.str s).contents) (hpos : 0 < (find.str s).len)
    (hlonger : (find.str s).len < (replace.str s).len)
    (hroom : ∀ ps, Spaced (find.str s).len 0 ps →
      (∀ p ∈ ps, Occurs (cstr (find.str s).buff) s.buff p) →
      s.len + ps.length * ((replace.str s).len - (find.str s).len) ≤ s.capacity)
    (hfit : ¬ Straddles s.contents (find.str s).contents (replace.str s).contents) :
    (replaceLonger find replace ((replace.str s).len - (find.str s).len) s.len s.len s).Inv := by
  have hcstr := hf.cstr_buff_of_notMem hzero
  have hlen : (find.str s).len = (cstr (find.str s).buff).length := by
    rw [hcstr, hf.contents_length]
  have hneedle : cstr (find.str s).buff ≠ [] := ne_nil_of_length_pos (by omega)
  have hoplen : (replace.str s).len =
      (find.str s).len + ((replace.str s).len - (find.str s).len) := by omega
  generalize (replace.str s).len - (find.str s).len = diff at hroom hoplen ⊢
  rw [hlen] at hroom
  rw [← hcstr] at hfit
  cases find with
  | other t =>
    exact replaceLonger_other h hneedle hlen hop hoplen hroom hfit _ _ _ _ (h.widening _ _)
  | self => exact replaceLonger_self h hneedle hlen hop hoplen hroom hfit _

theorem Grown.operand {asked : Nat} (h : Grown asked s t) (hop : (replace.str s).Inv) :
    (replace.str t).Inv ∧ (replace.str t).len = (replace.str s).len ∧
      (replace.str t).contents = (replace.str s).contents := by
  cases replace with
  | self => exact ⟨h.toInv, h.len_eq, h.contents_eq⟩
  | other r => exact ⟨hop, rfl, rfl⟩

theorem room_cases (env : Env) (h : s.Inv) {size : Nat} (hsize : size + 16 < 4294967296) :
    (if size > s.capacity then s.changeBuffer env size else (true, s)) = (false, s) ∨
      ∃ t, (if size > s.capacity then s.changeBuffer env size else (true, s)) = (true, t) ∧
        Grown size s t := by
  split
  · rename_i hmore
    exact changeBuffer_cases env h (by omega) (Or.inr hsize) hmore
  · rename_i hroom
    exact Or.inr ⟨s, rfl, h.grown (by omega)⟩

theorem replace_same (h : s.Inv) (hf : (find.str s).Inv) (hop : (replace.str s).Inv)
    (hpos : 0 < (find.str s).len) (hlen : 0 < s.len)
    (hsame : (replace.str s).len = (find.str s).len)
    (hzero : (0 : UInt8) ∉ (find.str s).contents)
    (hhead : find.isSelf = true → (replace.str s).contents.head? ≠ some 0) :
    ∃ t, replaceSame find replace (s.len + 1) 0 s = some t ∧ t.Inv := by
  cases find with
  | other t =>
    exact replaceSame_other hf hzero rfl hpos _ _ _ h hop hsame (Nat.zero_le _) (by omega)
  | self => exact replaceSame_self h hop hsame hlen (hhead rfl) (by omega)

theorem replace_shorter (h : s.Inv) (hf : (find.str s).Inv) (hop : (replace.str s).Inv)
    (hshorter : (replace.str s).len < (find.str s).len)
    (hzero : (0 : UInt8) ∉ (find.str s).contents) (htext : (0 : UInt8) ∉ s.contents)
    (hhead : find.isSelf = true → (replace.str s).contents.head? ≠ some 0) :
    ∃ t, replaceShorter find replace ((find.str s).len - (replace.str s).len) (s.len + 1) 0 0 s =
      some t ∧ t.Inv := by
  cases find with
  | self =>
    cases replace with
    | self => exact absurd hshorter (Nat.lt_irrefl _)
    | other r =>
      have hlen : r.len < s.len := hshorter
      obtain ⟨t, heq, hinv, -⟩ := replaceShorter_self h hop hlen htext (hhead rfl)
        (by omega : 1 < s.len + 1)
      exact ⟨t, heq, hinv⟩
  | other t =>
    cases replace with
    | self =>
      -- What is longer than the `String` does not occur in it.
      have hnone : s.foundFrom (.other t) 0 = none := by
        cases hfound : s.foundFrom (.other t) 0 with
        | none => rfl
        | some n =>
          have := foundFrom_le h (Nat.zero_le _) hfound
          rw [hf.cstr_buff_of_notMem hzero, hf.contents_length] at this
          simp only [Operand.str] at this hshorter
          omega
      rw [replaceShorter, hnone]
      simp only [drop_zero, write_same]
      exact ⟨s, rfl, h⟩
    | other r =>
      have hmoving : Moving s.len 0 0 s :=
        { h with
          total_le := h.bound, read_le := Nat.zero_le _, write_le := Nat.le_refl _,
          len_eq := by omega, text := by rw [drop_zero, Nat.sub_zero]; exact htext }
      exact replaceShorter_other hf hop hzero rfl hshorter _ _ _ _ hmoving (by omega)

theorem room_places (h : s.Inv) (hf : (find.str s).Inv) (hop : (replace.str s).Inv)
    (hpos : 0 < (find.str s).len) (hzero : (0 : UInt8) ∉ (find.str s).contents) :
    ∃ size, s.sizeNeeded find ((replace.str s).len - (find.str s).len) (s.len + 1) 0 s.len =
        some size ∧ size + 16 < 4294967296 ∧
      ∀ t, Grown size s t → ∀ ps, Spaced (find.str t).len 0 ps →
        (∀ p ∈ ps, Occurs (cstr (find.str t).buff) t.buff p) →
        t.len + ps.length * ((replace.str t).len - (find.str t).len) ≤ t.capacity := by
  have hlt := Nat.lt_of_le_of_lt h.bound h.capacity_lt
  have hdiff : (replace.str s).len - (find.str s).len < 65535 :=
    Nat.lt_of_le_of_lt (Nat.sub_le _ _) (Nat.lt_of_le_of_lt hop.bound hop.capacity_lt)
  have hneedle : (cstr (find.str s).buff).length = (find.str s).len := by
    rw [hf.cstr_buff_of_notMem hzero, hf.contents_length]
  have hstring := h.cstr_le
  have hcount : s.len + ((cstr s.buff).length - 0) * ((replace.str s).len - (find.str s).len) <
      4294967296 := Nat.lt_of_le_of_lt (Nat.le_add_right _ 16)
        (needed_lt hlt (by omega) hdiff)
  obtain ⟨k, hk, hsize, hmax⟩ := sizeNeeded_spec hneedle rfl hpos (s.len + 1) 0 s.len
    (Nat.zero_le _) (by omega) hcount
  refine ⟨_, hsize, needed_lt hlt (by omega) hdiff, ?_⟩
  intro t ht ps hspaced hocc
  obtain ⟨hft, hflen, hfcontents⟩ := ht.operand hf
  obtain ⟨hot, holen, hocontents⟩ := ht.operand hop
  have hplaces := hmax ps (hflen ▸ hspaced) fun p hp => by
    have := hocc p hp
    rw [hft.cstr_buff, hfcontents, ← hf.cstr_buff] at this
    rwa [occurs_contents ht.toInv, ht.contents_eq, ← occurs_contents h] at this
  have hroom := ht.room
  rw [← hflen, ← holen] at hroom
  rw [ht.len_eq]
  exact (Nat.add_le_add_left (Nat.mul_le_mul_right _ hplaces) _).trans hroom

theorem replace_longer (h : s.Inv) (hf : (find.str s).Inv) (hop : (replace.str s).Inv)
    (hpos : 0 < (find.str s).len) (hlonger : (find.str s).len < (replace.str s).len)
    (hzero : (0 : UInt8) ∉ (find.str s).contents)
    (hfit : ¬ Straddles s.contents (find.str s).contents (replace.str s).contents) :
    ∃ size, s.sizeNeeded find ((replace.str s).len - (find.str s).len) (s.len + 1) 0 s.len =
        some size ∧ size + 16 < 4294967296 ∧
      ∀ t, Grown size s t →
        (replaceLonger find replace
            ((replace.str s).len - (find.str s).len) t.len t.len t).Inv := by
  obtain ⟨size, hsize, hlt, hroom⟩ := room_places h hf hop hpos hzero
  refine ⟨size, hsize, hlt, ?_⟩
  intro t ht
  obtain ⟨hft, hflen, hfcontents⟩ := ht.operand hf
  obtain ⟨hot, holen, hocontents⟩ := ht.operand hop
  rw [← hflen, ← holen] at hlonger ⊢
  refine replaceLonger_inv ht.toInv hft hot (hfcontents ▸ hzero) (by omega) hlonger
    (hroom t ht) ?_
  rw [ht.contents_eq, hfcontents, hocontents]
  exact hfit

/-- **`replace` keeps a `String` in order.**  It comes to an end, finds memory or not, and
may be given the `String` itself as an operand. -/
theorem replace_inv (env : Env) (h : s.Inv) (hf : (find.str s).Inv) (hop : (replace.str s).Inv)
    (hfit : s.Replaceable find replace) :
    ∃ t, s.replace env find replace = some t ∧ t.Inv := by
  rcases hfit with hempty | hempty | hnone | ⟨hzero, hhead, hshort, hstraddle⟩
  · exact ⟨s, by unfold Str.replace; simp [hempty], h⟩
  · exact ⟨s, by unfold Str.replace; simp [hempty], h⟩
  · exact ⟨s, replace_none hnone, h⟩
  · unfold Str.replace
    simp only
    split
    · exact ⟨s, rfl, h⟩
    · rename_i hsome
      rw [not_or] at hsome
      split
      · rename_i hsame
        exact replace_same h hf hop (by omega) (by omega) hsame hzero
          fun hself => hhead hself (Nat.le_of_eq hsame)
      · split
        · rename_i hshorter
          exact replace_shorter h hf hop hshorter hzero (hshort hshorter)
            fun hself => hhead hself (Nat.le_of_lt hshorter)
        · have hlonger : (find.str s).len < (replace.str s).len := by omega
          obtain ⟨size, hsize, hlt, hgrown⟩ := replace_longer h hf hop (by omega) hlonger hzero
            (hstraddle hlonger)
          rw [hsize]
          simp only
          split
          · exact ⟨s, rfl, h⟩
          · obtain hfailed | ⟨t, hroom, ht⟩ := room_cases env h hlt
            · grind
            · grind

end Str

end WString
