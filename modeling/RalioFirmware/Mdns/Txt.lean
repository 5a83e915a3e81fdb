import RalioFirmware.Basis.CString
import RalioFirmware.Mdns.Rx

/-!
# TXT records of multicast DNS

The data of a TXT record are items, each a length byte and a text `key=value`.

The reader splits an item at the first `=` that `strchr` finds from its start on, which need
not be one of its own, and forgets what it has read at an item of length zero.  The writer
puts the length of a text into one byte.  `txt_codec_iff` says for which data and which items
that does no harm.
-/

namespace Mdns

open CString List
open UInt8 (ofNat)
open Option (bind_eq_some_iff bind_some some.inj)

/-- `stcMDNSServiceTxt`. -/
structure ServiceTxt where
  key : List UInt8
  value : Option (List UInt8)
  temp : Bool

/-- The `=` between key and value. -/
def equalSign : UInt8 := 61

/-! ## Reading -/

/-- A text of the loop of `_readRRAnswerTXT`, `cursor` being the memory behind its length. -/
def readItem (len : UInt8) (cursor : List UInt8) : Option ServiceTxt :=
  match strchr equalSign cursor with
  | none => none
  | some found =>
    let keyLength := UInt8.ofNat found
    if keyLength = 0 then none
    else
      let valueLength := len - UInt8.ofNat (found + 1)
      some ⟨(cstr cursor).take keyLength.toNat,
        if valueLength = 0 then none
        else some ((cstr (cursor.drop (found + 1))).take valueLength.toNat), false⟩

/-- The loop of `_readRRAnswerTXT` over the rest of the buffer, `behind` being the memory that
follows it.  With each item stands its place, the number of bytes left behind its length byte. -/
def readItems (behind : List UInt8) :
    List UInt8 → List (Nat × ServiceTxt) → Option (List (Nat × ServiceTxt))
  | [], txts => some txts
  | len :: rest, txts =>
    if len = 0 then readItems behind rest []
    else
      match readItem len (rest ++ behind) with
      | none => none
      | some txt => readItems behind (rest.drop len.toNat) ((rest.length, txt) :: txts)
  termination_by rest => rest.length
  decreasing_by
    · simp
    · grind

def readRRAnswerTXT (behind : List UInt8) (rx : Rx) (rdLength : Nat) :
    Option (List (Nat × ServiceTxt)) × Rx :=
  if rdLength = 0 then (some [], rx)
  else
    let r := rx.readBuffer rdLength
    (r.1.bind fun buffer => readItems behind buffer [], r.2)

/-- An item as a pair of texts; no value and an empty one are the same. -/
def ServiceTxt.pair (txt : ServiceTxt) : List UInt8 × List UInt8 := (txt.key, txt.value.getD [])

def pairs (txts : List (Nat × ServiceTxt)) : List (Nat × List UInt8 × List UInt8) :=
  txts.map fun e => (e.1, e.2.pair)

/-! ## What the data say -/

/-- What an item says by its own bytes: nothing without an `=`, else a key and a value; a key
is not empty and no string goes on behind a NUL. -/
inductive Own where
  | nothing
  | pair (key value : List UInt8)
  | malformed

def ownItem (text : List UInt8) : Own :=
  if equalSign ∉ text then .nothing
  else
    let key := text.takeWhile fun b => b ≠ equalSign
    if key = [] ∨ 0 ∈ key then .malformed
    else .pair key (cstr (text.drop (key.length + 1)))

/-- What the items say, each by its own bytes.  An item that goes on behind the end, or one
that is malformed, is an error. -/
def ownItems :
    List UInt8 → List (Nat × List UInt8 × List UInt8) →
      Option (List (Nat × List UInt8 × List UInt8))
  | [], acc => some acc
  | len :: rest, acc =>
    if rest.length < len.toNat then none
    else
      match ownItem (rest.take len.toNat) with
      | .nothing => ownItems (rest.drop len.toNat) acc
      | .pair key value => ownItems (rest.drop len.toNat) ((rest.length, key, value) :: acc)
      | .malformed => none
  termination_by rest => rest.length
  decreasing_by
    all_goals
      simp only [List.length_drop, List.length_cons]
      omega

/-- **What reading is for.**  It gives what the items say, each by its own bytes, and uses up
just the data of the record, or it fails. -/
def ReadsOwn (behind : List UInt8) (rx : Rx) (rdLength : Nat) : Prop :=
  (readRRAnswerTXT behind rx rdLength).1.map pairs =
      (if rdLength ≤ rx.rest.length then ownItems (rx.rest.take rdLength) [] else none) ∧
    ((readRRAnswerTXT behind rx rdLength).1.isSome →
      (readRRAnswerTXT behind rx rdLength).2.rest = rx.rest.drop rdLength)

/-- The items of the data: each length byte with what follows it. -/
def items : List UInt8 → List (UInt8 × List UInt8)
  | [] => []
  | len :: rest => (len, rest) :: items (rest.drop len.toNat)
  termination_by rest => rest.length
  decreasing_by
    simp only [List.length_drop, List.length_cons]
    omega

def text (i : UInt8 × List UInt8) : List UInt8 := i.2.take i.1.toNat

/-- The scan for the `=`, through whatever follows the start of an item, ends at a place that
one byte does not count as zero. -/
def Keyed (behind : List UInt8) (i : UInt8 × List UInt8) : Prop :=
  ∃ found, strchr equalSign (i.2 ++ behind) = some found ∧ UInt8.ofNat found ≠ 0

def Overruns (i : UInt8 × List UInt8) : Prop := i.2.length < i.1.toNat

/-- The data that are read for what they say: every item is inside and, if not empty, a pair,
and no empty one stands behind another; or there is an item in error and one that the scan
rejects. -/
def ReadFits (behind data : List UInt8) : Prop :=
  ((∀ i ∈ items data, ¬Overruns i ∧ (i.1 ≠ 0 → ∃ key value, ownItem (text i) = .pair key value)) ∧
      (items data).Pairwise fun i j => i.1 ≠ 0 → j.1 ≠ 0) ∨
    (∃ i ∈ items data, Overruns i ∨ ownItem (text i) = .malformed) ∧
      ∃ i ∈ items data, i.1 ≠ 0 ∧ ¬Keyed behind i

/-! ## One item -/

@[simp] theorem ownItem_nil : ownItem [] = .nothing := by simp [ownItem]

theorem ownItem_append {key rest : List UInt8} (hkey : equalSign ∉ key) :
    ownItem (key ++ equalSign :: rest) =
      if key = [] ∨ 0 ∈ key then .malformed else .pair key (cstr rest) := by
  have htake : (key ++ equalSign :: rest).takeWhile (fun b => b ≠ equalSign) = key := by
    rw [takeWhile_append_of_pos]
    · simp
    · intro b hb
      have hne : b ≠ equalSign := fun h => hkey (h ▸ hb)
      simpa using hne
  have hdrop : (key ++ equalSign :: rest).drop (key.length + 1) = rest := by simp
  simp only [ownItem, htake, hdrop, mem_append, mem_cons, true_or, or_true, not_true,
    if_false]

theorem ownItem_cases (t : List UInt8) :
    (ownItem t = .nothing ∧ equalSign ∉ t) ∨
      ∃ key rest, t = key ++ equalSign :: rest ∧ equalSign ∉ key ∧
        ownItem t = if key = [] ∨ 0 ∈ key then .malformed else .pair key (cstr rest) := by
  by_cases hmem : equalSign ∈ t
  · obtain ⟨key, rest, rfl, hkey⟩ := eq_append_cons_of_mem hmem
    exact Or.inr ⟨key, rest, rfl, hkey, ownItem_append hkey⟩
  · exact Or.inl ⟨by simp [ownItem, hmem], hmem⟩

variable {t : List UInt8}

theorem ownItem_pair {key value : List UInt8} (h : ownItem t = .pair key value) :
    ∃ rest, t = key ++ equalSign :: rest ∧ equalSign ∉ key ∧ 0 ∉ key ∧ key ≠ [] ∧
      value = cstr rest := by
  rcases ownItem_cases t with ⟨hnothing, -⟩ | ⟨key', rest, rfl, hkey, hown⟩
  · rw [hnothing] at h
    cases h
  · rw [hown] at h
    split at h
    · cases h
    · next hgood =>
        obtain ⟨rfl, rfl⟩ := Own.pair.inj h
        exact ⟨rest, rfl, hkey, fun h0 => hgood (Or.inr h0), fun hnil => hgood (Or.inl hnil), rfl⟩

theorem equalSign_ne_zero : equalSign ≠ 0 := by decide

variable {behind : List UInt8}

@[simp] theorem readItems_nil (txts : List (Nat × ServiceTxt)) :
    readItems behind [] txts = some txts := by rw [readItems]

theorem readItems_zero (rest : List UInt8) (txts : List (Nat × ServiceTxt)) :
    readItems behind (0 :: rest) txts = readItems behind rest [] := by
  rw [readItems, if_pos rfl]

theorem readItems_cons {len : UInt8} {rest : List UInt8} (hlen : len ≠ 0)
    (txts : List (Nat × ServiceTxt)) :
    readItems behind (len :: rest) txts = (readItem len (rest ++ behind)).bind fun txt =>
      readItems behind (rest.drop len.toNat) ((rest.length, txt) :: txts) := by
  rw [readItems, if_neg hlen]
  cases readItem len (rest ++ behind) <;> rfl

theorem readItem_eq_none {len : UInt8} {rest : List UInt8} :
    readItem len (rest ++ behind) = none ↔ ¬Keyed behind (len, rest) := by
  unfold readItem Keyed
  cases strchr equalSign (rest ++ behind) with
  | none => simp
  | some found => simp

theorem readItem_key {len : UInt8} {cursor : List UInt8} {txt : ServiceTxt}
    (h : readItem len cursor = some txt) : equalSign ∉ txt.key := by
  unfold readItem at h
  split at h
  · cases h
  · next found hfound =>
      obtain ⟨front, back, rfl, rfl, hfront, hzero⟩ := (strchr_eq_some equalSign_ne_zero).mp hfound
      dsimp only at h
      split at h
      · cases h
      · obtain rfl := some.inj h
        have hle : (ofNat front.length).toNat ≤ front.length := by
          rw [UInt8.toNat_ofNat']
          exact Nat.mod_le _ _
        rw [cstr_append hzero, take_append_of_le_length hle]
        exact fun hin => hfront (mem_of_mem_take hin)

theorem readItem_pair {len : UInt8} {key value : List UInt8} (hlen : t.length = len.toNat)
    (h : ownItem t = .pair key value) (tail : List UInt8) :
    ∃ txt, readItem len (t ++ tail) = some txt ∧ txt.pair = (key, value) := by
  obtain ⟨rest, rfl, hkey, hzero, hne, rfl⟩ := ownItem_pair h
  have hbyte := len.toNat_lt
  have hsplit : (key ++ equalSign :: rest).length = key.length + (rest.length + 1) := by simp
  have hfound : strchr equalSign (key ++ equalSign :: rest ++ tail) = some key.length :=
    (strchr_eq_some equalSign_ne_zero).mpr ⟨key, rest ++ tail, by simp, rfl, hkey, hzero⟩
  have hpos : 0 < key.length := length_pos_of_ne_nil hne
  have hkeyLength : (ofNat key.length).toNat = key.length :=
    UInt8.toNat_ofNat_of_lt' (show key.length < 256 by omega)
  have hkeyNe : ofNat key.length ≠ 0 := fun heq => by
    rw [heq] at hkeyLength
    exact Nat.ne_of_gt hpos hkeyLength.symm
  have hvalueLength : (len - ofNat (key.length + 1)).toNat = rest.length := by
    have hsub : (ofNat (key.length + 1)).toNat = key.length + 1 :=
      UInt8.toNat_ofNat_of_lt' (show key.length + 1 < 256 by omega)
    rw [UInt8.toNat_sub, hsub]
    omega
  have hdrop : (key ++ equalSign :: rest ++ tail).drop (key.length + 1) = rest ++ tail := by simp
  have htake : (cstr (key ++ equalSign :: rest ++ tail)).take key.length = key := by
    rw [append_assoc, cstr_append hzero]
    simp
  refine ⟨_, by simp only [readItem, hfound, if_neg hkeyNe]; rfl, Prod.ext ?_ ?_⟩
  · show (cstr _).take (ofNat key.length).toNat = key
    rw [hkeyLength, htake]
  · show (if len - ofNat (key.length + 1) = 0 then none else some _ : Option _).getD [] = _
    by_cases hnone : len - ofNat (key.length + 1) = 0
    · have hnil : rest = [] := by
        rw [hnone] at hvalueLength
        exact eq_nil_of_length_eq_zero hvalueLength.symm
      rw [if_pos hnone, hnil]
      rfl
    · rw [if_neg hnone, hdrop, hvalueLength]
      exact take_cstr_append rest tail

theorem pair_of_keyed {len : UInt8} {tail : List UInt8} (hlen : t.length = len.toNat)
    (hkeyed : Keyed behind (len, t ++ 0 :: tail)) (hgood : ownItem t ≠ .malformed) :
    ∃ key value, ownItem t = .pair key value := by
  rcases ownItem_cases t with ⟨-, hno⟩ | ⟨key, rest, rfl, hkey, hown⟩
  · obtain ⟨found, hfound, -⟩ := hkeyed
    rw [append_assoc, cons_append, strchr_nul equalSign_ne_zero hno] at hfound
    cases hfound
  · grind

/-! ## The walk over the items -/

@[simp] theorem items_nil : items [] = [] := by rw [items]

theorem items_cons (len : UInt8) (rest : List UInt8) :
    items (len :: rest) = (len, rest) :: items (rest.drop len.toNat) := by rw [items]

variable {txts : List (Nat × ServiceTxt)}

theorem readItems_eq_none {data : List UInt8} :
    readItems behind data txts = none ↔ ∃ i ∈ items data, i.1 ≠ 0 ∧ ¬Keyed behind i := by
  induction data using items.induct generalizing txts with
  | case1 => simp
  | case2 len rest ih =>
    rw [items_cons]
    by_cases hlen : len = 0
    · subst hlen
      rw [readItems_zero]
      simpa using @ih []
    · rw [readItems_cons hlen, exists_mem_cons_iff]
      cases hitem : readItem len (rest ++ behind) with
      | none => simp [hlen, readItem_eq_none.mp hitem]
      | some txt =>
        have hkeyed : Keyed behind (len, rest) := by
          by_contra hno
          rw [readItem_eq_none.mpr hno] at hitem
          cases hitem
        simp only [bind_some, ih, hkeyed, not_true, and_false, false_or]

theorem ownItems_eq_none {data : List UInt8} {acc : List (Nat × List UInt8 × List UInt8)} :
    ownItems data acc = none ↔
      ∃ i ∈ items data, Overruns i ∨ ownItem (text i) = .malformed := by
  induction data using items.induct generalizing acc with
  | case1 => simp [ownItems]
  | case2 len rest ih =>
    rw [items_cons, exists_mem_cons_iff, ownItems]
    by_cases hover : rest.length < len.toNat
    · simp [hover, Overruns]
    · rw [if_neg hover]
      have hitem : ownItem (text (len, rest)) = ownItem (rest.take len.toNat) := rfl
      cases hown : ownItem (rest.take len.toNat) with
      | nothing => simp [ih, Overruns, hover, hitem, hown]
      | pair key value => simp [ih, Overruns, hover, hitem, hown]
      | malformed => simp [hitem, hown]

variable {acc said : List (Nat × List UInt8 × List UInt8)}

theorem ownItems_new {data : List UInt8}
    (h : ownItems data acc = some said) :
    ∃ new, said = new ++ acc ∧ ∀ e ∈ new, e.1 < data.length := by
  induction data using items.induct generalizing acc with
  | case1 =>
    rw [ownItems] at h
    obtain rfl := some.inj h
    exact ⟨[], rfl, by simp⟩
  | case2 len rest ih =>
    have hshort : (rest.drop len.toNat).length ≤ rest.length := by
      rw [length_drop]
      omega
    rw [ownItems] at h
    split at h
    · cases h
    · split at h
      · obtain ⟨new, rfl, hnew⟩ := ih h
        exact ⟨new, rfl, fun e he => Nat.lt_succ_of_lt (Nat.lt_of_lt_of_le (hnew e he) hshort)⟩
      · next key value _ =>
          obtain ⟨new, rfl, hnew⟩ := ih h
          refine ⟨new ++ [(rest.length, key, value)], by simp, fun e he => ?_⟩
          rcases mem_append.mp he with he | he
          · exact Nat.lt_succ_of_lt (Nat.lt_of_lt_of_le (hnew e he) hshort)
          · obtain rfl := mem_singleton.mp he
            exact Nat.lt_succ_self _
      · cases h

variable {got : List (Nat × ServiceTxt)}

theorem readItems_new {data : List UInt8}
    (h : readItems behind data txts = some got) :
    ((∀ i ∈ items data, i.1 ≠ 0) → ∃ new, got = new ++ txts) ∧
      ((∃ i ∈ items data, i.1 = 0) → ∀ e ∈ got, e.1 < data.length) ∧
      ∀ e ∈ got, e ∈ txts ∨ e.1 < data.length := by
  induction data using items.induct generalizing txts with
  | case1 =>
    rw [readItems_nil] at h
    obtain rfl := some.inj h
    exact ⟨fun _ => ⟨[], rfl⟩, by simp, fun e he => Or.inl he⟩
  | case2 len rest ih =>
    have hshort : (rest.drop len.toNat).length ≤ rest.length := by
      rw [length_drop]
      omega
    rw [items_cons, exists_mem_cons_iff, forall_mem_cons]
    by_cases hlen : len = 0
    · subst hlen
      rw [readItems_zero] at h
      obtain ⟨-, -, hall⟩ := @ih [] h
      have hlt : ∀ e ∈ got, e.1 < (0 :: rest).length := fun e he =>
        Nat.lt_succ_of_lt ((hall e he).resolve_left not_mem_nil)
      exact ⟨fun hno => absurd rfl hno.1, fun _ => hlt, fun e he => Or.inr (hlt e he)⟩
    · rw [readItems_cons hlen] at h
      obtain ⟨txt, -, h⟩ := bind_eq_some_iff.mp h
      obtain ⟨hkeep, hlost, hall⟩ := ih h
      refine ⟨fun hno => ?_, fun hsome e he => ?_, fun e he => ?_⟩
      · obtain ⟨new, rfl⟩ := hkeep hno.2
        exact ⟨new ++ [(rest.length, txt)], by simp⟩
      · have hlt := hlost (hsome.resolve_left hlen) e he
        exact Nat.lt_succ_of_lt (Nat.lt_of_lt_of_le hlt hshort)
      · grind

theorem ownItems_cons {len : UInt8} {rest : List UInt8}
    (h : ownItems (len :: rest) acc = some said) :
    (rest.take len.toNat).length = len.toNat ∧ ownItem (rest.take len.toNat) ≠ .malformed := by
  have hno : ¬(Overruns (len, rest) ∨ ownItem (text (len, rest)) = .malformed) := by
    intro hbad
    have hnone := (@ownItems_eq_none _ acc).mpr
      ⟨_, by rw [items_cons]; exact mem_cons_self, hbad⟩
    rw [hnone] at h
    cases h
  obtain ⟨hover, hgood⟩ := not_or.mp hno
  exact ⟨length_take_of_le (Nat.le_of_not_lt hover), hgood⟩

theorem ownItems_pair {len : UInt8} {rest key value : List UInt8}
    (hlen : (rest.take len.toNat).length = len.toNat)
    (h : ownItem (rest.take len.toNat) = .pair key value)
    (acc : List (Nat × List UInt8 × List UInt8)) :
    ownItems (len :: rest) acc =
      ownItems (rest.drop len.toNat) ((rest.length, key, value) :: acc) := by
  have hle : ¬rest.length < len.toNat := by
    rw [length_take] at hlen
    omega
  rw [ownItems, if_neg hle, h]

theorem lost_pair {len : UInt8} {rest : List UInt8} (hlen : len ≠ 0)
    (hempty : ∃ j ∈ items (rest.drop len.toNat), j.1 = 0)
    (hgot : readItems behind (len :: rest) txts = some got)
    (hsaid : ownItems (len :: rest) acc = some said) :
    ∃ e ∈ said, ∀ e' ∈ got, e'.1 ≠ e.1 := by
  obtain ⟨n, hn⟩ : ∃ n, rest.length ≤ n := ⟨_, Nat.le_refl _⟩
  induction n generalizing len rest txts acc with
  | zero =>
    obtain rfl := eq_nil_of_length_eq_zero (Nat.le_zero.mp hn)
    simp at hempty
  | succ n ih =>
    obtain ⟨hlength, hgood⟩ := ownItems_cons hsaid
    rw [readItems_cons hlen] at hgot
    obtain ⟨txt, hitem, hgot⟩ := bind_eq_some_iff.mp hgot
    cases hnext : rest.drop len.toNat with
    | nil =>
      rw [hnext] at hempty
      simp at hempty
    | cons len' rest' =>
      rw [hnext] at hempty hgot
      have hshort : rest'.length + 1 + len.toNat = rest.length := by
        have h1 := congrArg length hnext
        rw [length_drop, length_cons] at h1
        omega
      by_cases hlen' : len' = 0
      · subst hlen'
        have hkeyed : Keyed behind (len, rest.take len.toNat ++ 0 :: rest') := by
          rw [← hnext, take_append_drop]
          by_contra hno
          rw [readItem_eq_none.mpr hno] at hitem
          cases hitem
        obtain ⟨key, value, hpair⟩ := pair_of_keyed hlength hkeyed hgood
        rw [ownItems_pair hlength hpair] at hsaid
        obtain ⟨new, rfl, -⟩ := ownItems_new hsaid
        refine ⟨(rest.length, key, value), by simp, fun e he => ?_⟩
        obtain ⟨-, hlost, -⟩ := readItems_new hgot
        have hlt := hlost ⟨_, by rw [items_cons]; exact mem_cons_self, rfl⟩ e he
        rw [length_cons] at hlt
        exact Nat.ne_of_lt (show e.1 < rest.length by omega)
      · rw [items_cons, exists_mem_cons_iff] at hempty
        have hempty' := hempty.resolve_left hlen'
        rcases hown : ownItem (rest.take len.toNat) with _ | ⟨key, value⟩ | _
        · have hskip : ownItems (len' :: rest') acc = some said := by
            rw [ownItems, hown, hnext] at hsaid
            split at hsaid
            · cases hsaid
            · exact hsaid
          exact ih hlen' hempty' hgot hskip (by omega)
        · rw [ownItems_pair hlength hown, hnext] at hsaid
          exact ih hlen' hempty' hgot hsaid (by omega)
        · exact absurd hown hgood

theorem pairs_eq_iff {data : List UInt8} {txts got : List (Nat × ServiceTxt)}
    {said : List (Nat × List UInt8 × List UInt8)} (hgot : readItems behind data txts = some got)
    (hsaid : ownItems data (pairs txts) = some said) (hplace : ∀ e ∈ txts, data.length ≤ e.1) :
    pairs got = said ↔
      (∀ i ∈ items data, i.1 ≠ 0 → ∃ key value, ownItem (text i) = .pair key value) ∧
        (txts ≠ [] → ∀ i ∈ items data, i.1 ≠ 0) ∧
        (items data).Pairwise fun i j => i.1 ≠ 0 → j.1 ≠ 0 := by
  induction data using items.induct generalizing txts with
  | case1 =>
    rw [readItems_nil] at hgot
    rw [ownItems] at hsaid
    obtain rfl := some.inj hgot
    obtain rfl := some.inj hsaid
    simp
  | case2 len rest ih =>
    obtain ⟨hlength, hgood⟩ := ownItems_cons hsaid
    have hshort : (rest.drop len.toNat).length ≤ rest.length := by
      rw [length_drop]
      omega
    rw [items_cons, forall_mem_cons, forall_mem_cons, pairwise_cons]
    by_cases hlen : len = 0
    · subst hlen
      rw [readItems_zero] at hgot
      have hskip : ownItems rest (pairs txts) = some said := by
        rw [ownItems] at hsaid
        simpa using hsaid
      by_cases hnil : txts = []
      · subst hnil
        have hrest := @ih [] hgot hskip (by simp)
        simpa using hrest
      · refine iff_of_false (fun heq => ?_) fun hno => (hno.2.1 hnil).1 rfl
        obtain ⟨e, he⟩ := exists_mem_of_ne_nil txts hnil
        obtain ⟨new, hnew, -⟩ := ownItems_new hskip
        have hmem : (e.1, e.2.pair) ∈ pairs got := by
          rw [heq, hnew]
          exact mem_append_right _ (mem_map_of_mem he)
        obtain ⟨e', he', hsame⟩ := mem_map.mp hmem
        have hlt := ((readItems_new hgot).2.2 e' he').resolve_left not_mem_nil
        have hge := hplace e he
        have hplaces : e'.1 = e.1 := (Prod.mk.inj hsame).1
        rw [length_cons] at hge
        omega
    · have hall := hgot
      rw [readItems_cons hlen] at hgot
      obtain ⟨txt, hitem, hgot⟩ := bind_eq_some_iff.mp hgot
      rcases hown : ownItem (rest.take len.toNat) with _ | ⟨key, value⟩ | _
      · refine iff_of_false (fun heq => ?_) fun hno => ?_
        · by_cases hempty : ∃ j ∈ items (rest.drop len.toNat), j.1 = 0
          · obtain ⟨e, he, hlost⟩ := lost_pair hlen hempty hall hsaid
            rw [← heq] at he
            obtain ⟨e', he', rfl⟩ := mem_map.mp he
            exact hlost e' he' rfl
          · have hnone : ∀ i ∈ items (rest.drop len.toNat), i.1 ≠ 0 := fun i hi hzero =>
              hempty ⟨i, hi, hzero⟩
            obtain ⟨new, rfl⟩ := (readItems_new hgot).1 hnone
            have hskip : ownItems (rest.drop len.toNat) (pairs txts) = some said := by
              rw [ownItems, hown] at hsaid
              split at hsaid
              · cases hsaid
              · exact hsaid
            obtain ⟨new', rfl, hnew'⟩ := ownItems_new hskip
            have hmem : (rest.length, txt.pair) ∈ new' ++ pairs txts := by
              rw [← heq]
              simp [pairs]
            rcases mem_append.mp hmem with hmem | hmem
            · have hlt := hnew' _ hmem
              exact absurd (Nat.lt_of_lt_of_le hlt hshort) (Nat.lt_irrefl _)
            · obtain ⟨e, he, hsame⟩ := mem_map.mp hmem
              have hge := hplace e he
              have hplaces : e.1 = rest.length := (Prod.mk.inj hsame).1
              rw [length_cons] at hge
              omega
        · obtain ⟨key, value, hpair⟩ := hno.1.1 hlen
          rw [show ownItem (text (len, rest)) = ownItem (rest.take len.toNat) from rfl, hown]
            at hpair
          cases hpair
      · obtain ⟨txt', hitem', hpair⟩ := readItem_pair hlength hown (rest.drop len.toNat ++ behind)
        rw [← append_assoc, take_append_drop, hitem] at hitem'
        obtain rfl := some.inj hitem'
        rw [ownItems_pair hlength hown] at hsaid
        have hrest := @ih ((rest.length, txt) :: txts) hgot (by simpa [pairs, hpair] using hsaid)
          (by
            intro e he
            rcases mem_cons.mp he with rfl | he
            · exact hshort
            · exact Nat.le_trans (Nat.le_trans hshort (Nat.le_succ _)) (hplace e he))
        rw [hrest]
        constructor
        · rintro ⟨hpairs, hnone, hwise⟩
          have hnone := hnone (cons_ne_nil _ _)
          exact ⟨⟨fun _ => ⟨key, value, hown⟩, hpairs⟩, fun _ => ⟨hlen, hnone⟩,
            fun j hj _ => hnone j hj, hwise⟩
        · grind
      · exact absurd hown hgood

/-- **What reading takes.**  The items are read for what they say just if the data fit. -/
theorem readItems_eq_iff (behind data : List UInt8) :
    (readItems behind data []).map pairs = ownItems data [] ↔ ReadFits behind data := by
  have hkeyed : (∀ i ∈ items data, ¬Overruns i ∧
      (i.1 ≠ 0 → ∃ key value, ownItem (text i) = .pair key value)) →
      ∀ i ∈ items data, i.1 ≠ 0 → Keyed behind i := by
    intro h i hi hne
    obtain ⟨hover, hpair⟩ := h i hi
    obtain ⟨key, value, hpair⟩ := hpair hne
    have hlength : (text i).length = i.1.toNat := length_take_of_le (Nat.le_of_not_lt hover)
    obtain ⟨txt, hitem, -⟩ := readItem_pair hlength hpair (i.2.drop i.1.toNat ++ behind)
    rw [← append_assoc, text, take_append_drop] at hitem
    by_contra hno
    rw [readItem_eq_none.mpr hno] at hitem
    cases hitem
  unfold ReadFits
  cases hgot : readItems behind data [] with
  | none =>
    have hreject := readItems_eq_none.mp hgot
    rw [Option.map_none, eq_comm, ownItems_eq_none]
    constructor
    · exact fun hbad => Or.inr ⟨hbad, hreject⟩
    · rintro (⟨hfine, -⟩ | ⟨hbad, -⟩)
      · obtain ⟨i, hi, hne, hno⟩ := hreject
        exact absurd (hkeyed hfine i hi hne) hno
      · exact hbad
  | some got =>
    have hreject : ¬∃ i ∈ items data, i.1 ≠ 0 ∧ ¬Keyed behind i := fun h => by
      rw [readItems_eq_none.mpr h] at hgot
      cases hgot
    cases hsaid : ownItems data [] with
    | none =>
      obtain ⟨i, hi, hbad⟩ := ownItems_eq_none.mp hsaid
      refine iff_of_false (by simp) ?_
      rintro (⟨hfine, -⟩ | ⟨-, hno⟩)
      · obtain ⟨hover, hpair⟩ := hfine i hi
        rcases hbad with hbad | hbad
        · exact hover hbad
        · by_cases hzero : i.1 = 0
          · simp [text, hzero] at hbad
          · obtain ⟨key, value, hpair⟩ := hpair hzero
            rw [hpair] at hbad
            cases hbad
      · exact hreject hno
    | some said =>
      have hno : ∀ i ∈ items data, ¬Overruns i := fun i hi hover => by
        rw [ownItems_eq_none.mpr ⟨i, hi, Or.inl hover⟩] at hsaid
        cases hsaid
      have hiff := @pairs_eq_iff behind data [] got said hgot hsaid (by simp)
      rw [Option.map_some, Option.some.injEq, hiff]
      constructor
      · grind
      · grind

theorem readRRAnswerTXT_eq (behind : List UInt8) (rx : Rx) {rdLength : Nat} (h : rdLength ≠ 0) :
    readRRAnswerTXT behind rx rdLength =
      ((rx.readBuffer rdLength).1.bind fun buffer => readItems behind buffer [],
        (rx.readBuffer rdLength).2) := by
  rw [readRRAnswerTXT, if_neg h]

theorem readsOwn_iff (behind : List UInt8) (rx : Rx) (rdLength : Nat) :
    ReadsOwn behind rx rdLength ↔
      (rdLength ≤ rx.rest.length → ReadFits behind (rx.rest.take rdLength)) := by
  unfold ReadsOwn
  by_cases hzero : rdLength = 0
  · subst hzero
    refine iff_of_true ?_ fun _ => ?_
    · simp [readRRAnswerTXT, pairs, ownItems]
    · exact Or.inl (by simp)
  · rw [readRRAnswerTXT_eq behind rx hzero, Rx.readBuffer_fst rx hzero]
    by_cases hle : rdLength ≤ rx.rest.length
    · rw [if_pos hle, if_pos hle, bind_some, Rx.readBuffer_rest hle, readItems_eq_iff]
      simp only [hle, true_implies, implies_true, and_true]
    · simp [hle]

/-! ## Writing -/

/-- The text of an item: key, `=` and value, each up to its NUL. -/
def ServiceTxt.bytes (txt : ServiceTxt) : List UInt8 :=
  cstr txt.key ++ equalSign :: cstr (txt.value.getD [])

def ServiceTxt.length (txt : ServiceTxt) : Nat :=
  strlen txt.key + 1 + strlen (txt.value.getD [])

/-- `stcMDNSServiceTxts::length`. -/
def txtsLength (txts : List ServiceTxt) : Nat :=
  txts.foldl (fun n txt => (n + 1 + txt.length) % 65536) 0

/-- The data of `_writeMDNSAnswer_TXT`.  The length of a text goes into one byte. -/
def writeTxts : List ServiceTxt → List UInt8
  | [] => []
  | txt :: rest => UInt8.ofNat txt.length :: (txt.bytes ++ writeTxts rest)

/-- `MDNS_SERVICE_TXT_MAXLENGTH`. -/
def txtMaxLength : Nat := 1300

/-- `_addServiceTxt`, for a service with these items: a known key gets the new value, another
one a new item, as long as all of them stay below the limit. -/
def addServiceTxt (txts : List ServiceTxt) (key value : Option (List UInt8)) (temp : Bool) :
    List ServiceTxt :=
  match key with
  | none => txts
  | some key =>
    if strlen key = 0 then txts
    else
      let valueLength := strlen (value.getD [])
      match txts.findIdx? (fun txt => strcmp txt.key key = 0) with
      | some i =>
        let old := txts.getD i ⟨[], none, false⟩
        if txtMaxLength > txtsLength txts - strlen (old.value.getD []) + valueLength then
          let new := if valueLength = 0 then none else value.map cstr
          txts.set i { old with value := new, temp := temp }
        else txts
      | none =>
        if txtMaxLength > txtsLength txts + 1 + strlen key + 1 + valueLength then
          ⟨cstr key, value.map cstr, temp⟩ :: txts
        else txts

/-- A call of `_addServiceTxt`. -/
structure AddTxt where
  key : Option (List UInt8)
  value : Option (List UInt8)
  temp : Bool

/-- The items of a service after calls of `_addServiceTxt`. -/
def addAll (calls : List AddTxt) : List ServiceTxt :=
  calls.foldl (fun txts call => addServiceTxt txts call.key call.value call.temp) []

/-- The items that were written, each at its place, the last one first. -/
def placed : List ServiceTxt → List (Nat × List UInt8 × List UInt8) →
    List (Nat × List UInt8 × List UInt8)
  | [], acc => acc
  | txt :: rest, acc =>
    placed rest (((txt.bytes ++ writeTxts rest).length, txt.pair) :: acc)

/-- **What writing is for.**  Wherever the data of a record stand in a packet, reading them
gives the items that were written, each at its place. -/
def RoundTrips (behind : List UInt8) (txts : List ServiceTxt) : Prop :=
  ∀ (rx : Rx) (more : List UInt8), rx.rest = writeTxts txts ++ more →
    (readRRAnswerTXT behind rx (txtsLength txts)).1.map pairs = some (placed txts [])

theorem placed_new (txts : List ServiceTxt) (acc : List (Nat × List UInt8 × List UInt8)) :
    ∃ new, placed txts acc = new ++ acc ∧ ∀ e ∈ new, e.1 < (writeTxts txts).length := by
  induction txts generalizing acc with
  | nil => exact ⟨[], rfl, by simp⟩
  | cons txt rest ih =>
    obtain ⟨new, hnew, hplace⟩ := ih (((txt.bytes ++ writeTxts rest).length, txt.pair) :: acc)
    refine ⟨new ++ [((txt.bytes ++ writeTxts rest).length, txt.pair)],
      by rw [placed, hnew, append_assoc, singleton_append], fun e he => ?_⟩
    rcases mem_append.mp he with he | he
    · have hlt := hplace e he
      simp only [writeTxts, length_cons, length_append]
      omega
    · obtain rfl := mem_singleton.mp he
      simp [writeTxts]

structure ServiceTxt.Stored (txt : ServiceTxt) : Prop where
  key_ne : txt.key ≠ []
  key : 0 ∉ txt.key
  value : 0 ∉ txt.value.getD []

namespace ServiceTxt.Stored

variable {txt : ServiceTxt}

theorem bytes_eq (h : txt.Stored) : txt.bytes = txt.key ++ equalSign :: txt.value.getD [] := by
  rw [bytes, cstr_eq_self h.key, cstr_eq_self h.value]

theorem length_eq (h : txt.Stored) : txt.length = txt.bytes.length := by
  rw [h.bytes_eq, ServiceTxt.length, strlen, strlen, cstr_eq_self h.key, cstr_eq_self h.value]
  simp only [length_append, length_cons]
  omega

theorem two_le (h : txt.Stored) : 2 ≤ txt.bytes.length := by
  have hpos := length_pos_of_ne_nil h.key_ne
  rw [h.bytes_eq]
  simp only [length_append, length_cons]
  omega

end ServiceTxt.Stored

theorem writeTxts_cons {txt : ServiceTxt} (h : txt.Stored) (rest : List ServiceTxt) :
    writeTxts (txt :: rest) =
      ofNat txt.bytes.length :: (txt.bytes ++ writeTxts rest) := by
  rw [writeTxts, h.length_eq]

theorem readItems_written {txt : ServiceTxt} (h : txt.Stored) (hkey : equalSign ∉ txt.key)
    (hlen : txt.bytes.length ≤ 255) (rest : List ServiceTxt) (txts : List (Nat × ServiceTxt)) :
    ∃ got, got.pair = txt.pair ∧ readItems behind (writeTxts (txt :: rest)) txts =
      readItems behind (writeTxts rest) (((txt.bytes ++ writeTxts rest).length, got) :: txts) := by
  have hbyte : (ofNat txt.bytes.length).toNat = txt.bytes.length :=
    UInt8.toNat_ofNat_of_lt' (show txt.bytes.length < 256 by omega)
  have hne : ofNat txt.bytes.length ≠ 0 := fun hzero => by
    have htwo := h.two_le
    rw [hzero] at hbyte
    have : (0 : UInt8).toNat = 0 := rfl
    omega
  have hown : ownItem txt.bytes = .pair txt.key (txt.value.getD []) := by
    rw [h.bytes_eq, ownItem_append hkey, if_neg (not_or.mpr ⟨h.key_ne, h.key⟩),
      cstr_eq_self h.value]
  obtain ⟨got, hitem, hpair⟩ := readItem_pair hbyte.symm hown (writeTxts rest ++ behind)
  refine ⟨got, hpair, ?_⟩
  rw [writeTxts_cons h, readItems_cons hne, append_assoc, hitem, bind_some, hbyte,
    drop_left]

theorem fits_of_readItems {txt : ServiceTxt} (h : txt.Stored) {rest : List ServiceTxt}
    (hplace : ∀ e ∈ txts, (writeTxts (txt :: rest)).length ≤ e.1)
    (heq : (readItems behind (writeTxts (txt :: rest)) txts).map pairs =
      some (placed (txt :: rest) (pairs txts))) :
    equalSign ∉ txt.key ∧ txt.bytes.length ≤ 255 := by
  obtain ⟨new, hnew, hnewPlace⟩ :=
    placed_new rest (((txt.bytes ++ writeTxts rest).length, txt.pair) :: pairs txts)
  obtain ⟨got, hgot, hsame⟩ := Option.map_eq_some_iff.mp heq
  rw [placed, hnew] at hsame
  rw [writeTxts_cons h] at hgot hplace
  have hmem : ((txt.bytes ++ writeTxts rest).length, txt.pair) ∈ pairs got := by
    rw [hsame]
    simp
  obtain ⟨e, he, hplaced⟩ := mem_map.mp hmem
  obtain ⟨hplaced, hpair⟩ := Prod.mk.inj hplaced
  by_cases hzero : ofNat txt.bytes.length = 0
  · rw [hzero, readItems_zero] at hgot
    have hlt := ((readItems_new hgot).2.2 e he).resolve_left not_mem_nil
    omega
  · rw [readItems_cons hzero] at hgot
    obtain ⟨txt', hitem, hgot⟩ := bind_eq_some_iff.mp hgot
    have hbyte := (ofNat txt.bytes.length).toNat_lt
    generalize (ofNat txt.bytes.length).toNat = b at hgot hbyte
    obtain ⟨-, hlost, hall⟩ := readItems_new hgot
    have hdrop : ((txt.bytes ++ writeTxts rest).drop b).length =
        txt.bytes.length + (writeTxts rest).length - b := by
      rw [length_drop, length_append]
    have hlength := @List.length_append _ txt.bytes (writeTxts rest)
    have htxts : ∀ e' ∈ txts, (txt.bytes ++ writeTxts rest).length < e'.1 := fun e' he' =>
      hplace e' he'
    have hfirst : e = ((txt.bytes ++ writeTxts rest).length, txt') := by
      rcases hall e he with hin | hlt
      · rcases mem_cons.mp hin with rfl | hin
        · rfl
        · have hlt := htxts e hin
          omega
      · omega
    subst hfirst
    have hnone : ∀ i ∈ items ((txt.bytes ++ writeTxts rest).drop b), i.1 ≠ 0 := by
      intro i hi hempty
      have hlt := hlost ⟨i, hi, hempty⟩ _ he
      change (txt.bytes ++ writeTxts rest).length < _ at hlt
      omega
    refine ⟨(Prod.mk.inj hpair).1 ▸ readItem_key hitem, ?_⟩
    by_contra hlong
    cases hcons : (txt.bytes ++ writeTxts rest).drop b with
    | nil =>
      grind
    | cons c more =>
      -- the walk goes on inside the text, and what it reads there has no place
      rw [hcons] at hgot hnone hdrop
      rw [items_cons, forall_mem_cons] at hnone
      rw [readItems_cons hnone.1] at hgot
      obtain ⟨inside, -, hgot⟩ := bind_eq_some_iff.mp hgot
      obtain ⟨later, rfl⟩ := (readItems_new hgot).1 hnone.2
      have hinside : (more.length, inside.pair) ∈
          new ++ ((txt.bytes ++ writeTxts rest).length, txt.pair) :: pairs txts := by
        rw [← hsame]
        simp [pairs]
      rw [length_cons] at hdrop
      rcases mem_append.mp hinside with hin | hin
      · have hlt : more.length < (writeTxts rest).length := hnewPlace _ hin
        omega
      · rcases mem_cons.mp hin with hin | hin
        · have heq := (Prod.mk.inj hin).1
          omega
        · obtain ⟨e', he', hplaced'⟩ := mem_map.mp hin
          have hlt := htxts e' he'
          have heq := (Prod.mk.inj hplaced').1
          omega

/-- **What writing takes**, from any place of the walk on. -/
theorem readItems_written_iff {stored : List ServiceTxt} (h : ∀ txt ∈ stored, txt.Stored)
    {txts : List (Nat × ServiceTxt)} (hplace : ∀ e ∈ txts, (writeTxts stored).length ≤ e.1) :
    (readItems behind (writeTxts stored) txts).map pairs = some (placed stored (pairs txts)) ↔
      ∀ txt ∈ stored, equalSign ∉ txt.key ∧ txt.bytes.length ≤ 255 := by
  induction stored generalizing txts with
  | nil => simp [writeTxts, placed]
  | cons txt rest ih =>
    obtain ⟨hfirst, hrest⟩ := forall_mem_cons.mp h
    rw [forall_mem_cons]
    have hnext : ∀ (hkey : equalSign ∉ txt.key) (hlen : txt.bytes.length ≤ 255),
        (readItems behind (writeTxts (txt :: rest)) txts).map pairs =
          some (placed (txt :: rest) (pairs txts)) ↔
        ∀ txt ∈ rest, equalSign ∉ txt.key ∧ txt.bytes.length ≤ 255 := by
      intro hkey hlen
      obtain ⟨got, hpair, hread⟩ := @readItems_written behind _ hfirst hkey hlen rest txts
      have hshort : (writeTxts rest).length ≤ (txt.bytes ++ writeTxts rest).length := by
        rw [length_append]
        omega
      rw [hread, placed, ← hpair]
      refine ih hrest fun e he => ?_
      rcases mem_cons.mp he with rfl | he
      · exact hshort
      · have hle := hplace e he
        rw [writeTxts_cons hfirst, length_cons] at hle
        omega
    constructor
    · intro heq
      obtain ⟨hkey, hlen⟩ := fits_of_readItems hfirst hplace heq
      exact ⟨⟨hkey, hlen⟩, (hnext hkey hlen).mp heq⟩
    · grind

/-! ## The items of a service -/

/-- What `_addServiceTxt` keeps: stored items, short of the limit. -/
structure Accepted (txts : List ServiceTxt) : Prop where
  stored : ∀ txt ∈ txts, txt.Stored
  short : (writeTxts txts).length < txtMaxLength

theorem writeTxts_length_cons {txt : ServiceTxt} (h : txt.Stored) (rest : List ServiceTxt) :
    (writeTxts (txt :: rest)).length = 1 + txt.length + (writeTxts rest).length := by
  rw [writeTxts_cons h, h.length_eq]
  simp only [length_cons, length_append]
  omega

theorem txtsLength_eq {txts : List ServiceTxt} (h : ∀ txt ∈ txts, txt.Stored) {n : Nat}
    (hshort : n + (writeTxts txts).length < 65536) :
    txts.foldl (fun n txt => (n + 1 + txt.length) % 65536) n = n + (writeTxts txts).length := by
  induction txts generalizing n with
  | nil => rfl
  | cons txt rest ih =>
    obtain ⟨hfirst, hrest⟩ := forall_mem_cons.mp h
    have hlength := writeTxts_length_cons hfirst rest
    have hmod : (n + 1 + txt.length) % 65536 = n + 1 + txt.length := Nat.mod_eq_of_lt (by omega)
    rw [foldl_cons, hmod, ih hrest (by omega)]
    omega

theorem Accepted.txtsLength_eq {txts : List ServiceTxt} (h : Accepted txts) :
    txtsLength txts = (writeTxts txts).length := by
  have hshort := h.short
  unfold txtMaxLength at hshort
  rw [txtsLength, Mdns.txtsLength_eq h.stored (by omega), Nat.zero_add]

theorem writeTxts_set {txts : List ServiceTxt} (h : ∀ txt ∈ txts, txt.Stored) {i : Nat}
    (hi : i < txts.length) {new : ServiceTxt} (hnew : new.Stored) :
    (writeTxts (txts.set i new)).length + (txts.getD i ⟨[], none, false⟩).length =
      (writeTxts txts).length + new.length := by
  induction txts generalizing i with
  | nil => simp at hi
  | cons txt rest ih =>
    obtain ⟨hfirst, hrest⟩ := forall_mem_cons.mp h
    have hlength := writeTxts_length_cons hfirst rest
    cases i with
    | zero =>
      have hlength' := writeTxts_length_cons hnew rest
      simp only [set_cons_zero, getD_cons_zero]
      omega
    | succ i =>
      have hset := ih hrest (Nat.lt_of_succ_lt_succ hi)
      have hlength' := writeTxts_length_cons hfirst (rest.set i new)
      simp only [set_cons_succ, getD_cons_succ]
      omega

theorem addServiceTxt_accepted {txts : List ServiceTxt} (h : Accepted txts)
    (key value : Option (List UInt8)) (temp : Bool) :
    Accepted (addServiceTxt txts key value temp) := by
  have hvalue : ∀ v : Option (List UInt8), (0 : UInt8) ∉ (v.map cstr).getD [] := by
    intro v
    cases v with
    | none => exact not_mem_nil
    | some v => exact zero_notMem_cstr v
  have hstrlen : ∀ v : Option (List UInt8), strlen ((v.map cstr).getD []) = strlen (v.getD []) := by
    intro v
    cases v with
    | none => rfl
    | some v => exact strlen_cstr v
  cases key with
  | none => exact h
  | some key =>
    unfold addServiceTxt
    by_cases hkey : strlen key = 0
    · simp only [if_pos hkey]
      exact h
    simp only [if_neg hkey, h.txtsLength_eq]
    cases hfind : txts.findIdx? (fun txt => decide (strcmp txt.key key = 0)) with
    | none =>
      dsimp only
      split
      · next hroom =>
          have hstored : ServiceTxt.Stored ⟨cstr key, value.map cstr, temp⟩ :=
            ⟨fun hnil => hkey (congrArg length hnil), zero_notMem_cstr key, hvalue value⟩
          refine ⟨forall_mem_cons.mpr ⟨hstored, h.stored⟩, ?_⟩
          rw [writeTxts_length_cons hstored, ServiceTxt.length, strlen_cstr, hstrlen]
          omega
      · exact h
    | some i =>
      dsimp only
      split
      · next hroom =>
          obtain ⟨hi, -⟩ := findIdx?_eq_some_iff_getElem.mp hfind
          have hold : (txts.getD i ⟨[], none, false⟩).Stored := by
            have hget : txts.getD i ⟨[], none, false⟩ = txts[i] := by simp [getD, hi]
            exact hget ▸ h.stored _ (getElem_mem hi)
          generalize hgetD : txts.getD i ⟨[], none, false⟩ = old at hold hroom
          have hset := fun new hnew => @writeTxts_set txts h.stored i hi new hnew
          rw [hgetD] at hset
          generalize hvalue' : (if strlen (value.getD []) = 0 then none else value.map cstr) =
            value'
          have hnew : (0 : UInt8) ∉ value'.getD [] ∧
              strlen (value'.getD []) = strlen (value.getD []) := by
            rw [← hvalue']
            split
            · next hzero => exact ⟨not_mem_nil, hzero.symm⟩
            · exact ⟨hvalue value, hstrlen value⟩
          have hstored : ServiceTxt.Stored { old with value := value', temp := temp } :=
            ⟨hold.key_ne, hold.key, hnew.1⟩
          have hlength := hset _ hstored
          have hshort := h.short
          refine ⟨fun txt htxt => ?_, ?_⟩
          · rcases mem_or_eq_of_mem_set htxt with hin | rfl
            · exact h.stored txt hin
            · exact hstored
          · unfold ServiceTxt.length at hlength
            dsimp only at hlength
            rw [hnew.2] at hlength
            omega
      · exact h

theorem addAll_accepted (calls : List AddTxt) : Accepted (addAll calls) := by
  have hfold : ∀ txts, Accepted txts → Accepted (calls.foldl
      (fun txts call => addServiceTxt txts call.key call.value call.temp) txts) := by
    induction calls with
    | nil => exact fun _ h => h
    | cons call rest ih =>
      exact fun txts h => ih _ (addServiceTxt_accepted h call.key call.value call.temp)
  exact hfold [] ⟨by simp, by decide⟩

theorem roundTrips_iff (behind : List UInt8) {txts : List ServiceTxt} (h : Accepted txts) :
    RoundTrips behind txts ↔ ∀ txt ∈ txts, equalSign ∉ txt.key ∧ txt.length ≤ 255 := by
  have hread : ∀ (rx : Rx) (more : List UInt8), rx.rest = writeTxts txts ++ more →
      (readRRAnswerTXT behind rx (txtsLength txts)).1 = readItems behind (writeTxts txts) [] := by
    intro rx more hrest
    rw [h.txtsLength_eq]
    cases txts with
    | nil => simp [readRRAnswerTXT, writeTxts]
    | cons txt rest =>
      have hne : (writeTxts (txt :: rest)).length ≠ 0 := by simp [writeTxts]
      have hle : (writeTxts (txt :: rest)).length ≤ rx.rest.length := by grind
      rw [readRRAnswerTXT_eq behind rx hne, Rx.readBuffer_fst rx hne, if_pos hle, hrest,
        take_left]
      rfl
  have hwritten := @readItems_written_iff behind txts h.stored [] (by simp)
  have hlength : (∀ txt ∈ txts, equalSign ∉ txt.key ∧ txt.bytes.length ≤ 255) ↔
      ∀ txt ∈ txts, equalSign ∉ txt.key ∧ txt.length ≤ 255 :=
    forall₂_congr fun txt htxt => by rw [(h.stored txt htxt).length_eq]
  rw [← hlength, ← hwritten]
  constructor
  · intro hround
    rw [← hread ⟨writeTxts txts, 0, Nat.zero_le _⟩ [] (by simp [Rx.rest])]
    exact hround _ [] (by simp [Rx.rest])
  · intro heq rx more hrest
    rw [hread rx more hrest]
    exact heq

end Mdns
