import Mathlib.Data.List.Nodup
import Mathlib.Data.List.Perm.Basic
import RalioFirmware.Mdns.Query

/-!
# Comparing the items of TXT records

A list of items stands for a map: a key has the value of the first item with it, which may be
none.  `compare` looks for each item of one list in the other, and the other way round, and takes
an item without a value for a difference, even to itself.  `txts_compare_iff` says when it tells
just whether two lists stand for the same map.
-/

namespace Mdns

open CString List

def ServiceTxt.keyText (txt : ServiceTxt) : List UInt8 := cstr txt.key

def ServiceTxt.entry (txt : ServiceTxt) : List UInt8 × Option (List UInt8) :=
  (txt.keyText, txt.value.map cstr)

/-- What a list says of a key: none where it is unknown, and some none where it has no value. -/
def txtMap (txts : List ServiceTxt) (key : List UInt8) : Option (Option (List UInt8)) :=
  (txts.find? fun txt => txt.keyText = key).map fun txt => txt.value.map cstr

def SameMap (as bs : List ServiceTxt) : Prop := ∀ key, txtMap as key = txtMap bs key

/-- Each item of the first list has a value, which is that of its key in the second. -/
def Within (as bs : List ServiceTxt) : Prop :=
  ∀ a ∈ as, ∃ v, a.value = some v ∧ txtMap bs a.keyText = some (some (cstr v))

def Distinct (txts : List ServiceTxt) : Prop := (txts.map ServiceTxt.keyText).Nodup

variable {as bs cs txts : List ServiceTxt} {key : List UInt8}

/-! ## What the code finds -/

theorem find_strcmp (txts : List ServiceTxt) (a : ServiceTxt) :
    (txts.find? fun b => decide (strcmp b.key a.key = 0)) =
      txts.find? fun b => decide (b.keyText = a.keyText) := by
  congr 1
  funext b
  rw [decide_eq_decide]
  exact strcmp_eq_zero_iff b.key a.key

theorem txtMap_eq_some {x : Option (List UInt8)} (h : txtMap txts key = some x) :
    ∃ a ∈ txts, a.keyText = key ∧ a.value.map cstr = x := by
  obtain ⟨a, hfind, hvalue⟩ := Option.map_eq_some_iff.mp h
  exact ⟨a, mem_of_find?_eq_some hfind, by simpa using find?_some hfind, hvalue⟩

theorem values_same (v w : List UInt8) :
    (strlen v = strlen w && strcmp v w = 0) = decide (cstr v = cstr w) := by
  rw [← Bool.decide_and, decide_eq_decide, strcmp_eq_zero_iff]
  exact ⟨And.right, fun h => ⟨congrArg length h, h⟩⟩

/-- **One direction of the comparison.** -/
theorem txtsIn_iff (as bs : List ServiceTxt) : txtsIn as bs = true ↔ Within as bs := by
  rw [txtsIn, all_eq_true]
  refine forall₂_congr fun a ha => ?_
  rw [find_strcmp, txtMap]
  cases bs.find? fun b => decide (b.keyText = a.keyText) with
  | none => simp
  | some b =>
    rw [Option.any_some, Option.map_some]
    cases ha : a.value with
    | none => simp
    | some v =>
      cases hb : b.value with
      | none => simp
      | some w =>
        dsimp only
        rw [values_same]
        simp [eq_comm]

/-! ## Maps -/

theorem SameMap.symm (h : SameMap as bs) : SameMap bs as := fun key => (h key).symm

theorem Within.known (h : Within as bs) {x : Option (List UInt8)} (hkey : txtMap as key = some x) :
    txtMap bs key = some x := by
  obtain ⟨a, ha, rfl, rfl⟩ := txtMap_eq_some hkey
  obtain ⟨v, hv, hmap⟩ := h a ha
  rw [hmap, hv, Option.map_some]

/-- **Two lists that are found in each other** stand for the same map. -/
theorem Within.sameMap (h : Within as bs) (h' : Within bs as) : SameMap as bs := by
  intro key
  cases has : txtMap as key with
  | some x => exact (h.known has).symm
  | none =>
    cases hbs : txtMap bs key with
    | none => rfl
    | some y =>
      rw [h'.known hbs] at has
      cases has

theorem SameMap.within_iff (h : SameMap as bs) : Within as bs ↔ Within as as := by
  refine forall₂_congr fun a _ => ?_
  rw [h]

/-- **The comparison**: of lists that stand for the same map, it takes those that are found in
themselves, if the lengths agree. -/
theorem txtsEq_iff (as bs : List ServiceTxt) : txtsEq as bs = true ↔
    SameMap as bs ∧ Within as as ∧ Within bs bs ∧ txtsLength as = txtsLength bs := by
  rw [txtsEq, Bool.and_eq_true, Bool.and_eq_true, decide_eq_true_eq, txtsIn_iff, txtsIn_iff]
  constructor
  · rintro ⟨⟨hlength, h⟩, h'⟩
    have hsame := h.sameMap h'
    exact ⟨hsame, hsame.within_iff.mp h, hsame.symm.within_iff.mp h', hlength⟩
  · rintro ⟨hsame, h, h', hlength⟩
    exact ⟨⟨hlength, hsame.within_iff.mpr h⟩, hsame.symm.within_iff.mpr h'⟩

/-! ## Lists without a key twice -/

theorem Distinct.txtMap_of_mem (h : Distinct txts) {a : ServiceTxt} (ha : a ∈ txts) :
    txtMap txts a.keyText = some (a.value.map cstr) := by
  induction txts with
  | nil => exact absurd ha not_mem_nil
  | cons txt rest ih =>
    obtain ⟨hnew, hrest⟩ := nodup_cons.mp h
    rcases mem_cons.mp ha with rfl | ha
    · simp [txtMap]
    · have hne : txt.keyText ≠ a.keyText := fun heq => by
        rw [heq] at hnew
        exact hnew (mem_map_of_mem ha)
      have hskip := ih hrest ha
      simpa [txtMap, find?_cons, hne] using hskip

theorem Distinct.within_iff (h : Distinct txts) :
    Within txts txts ↔ ∀ a ∈ txts, a.value.isSome := by
  refine forall₂_congr fun a ha => ?_
  rw [h.txtMap_of_mem ha, Option.isSome_iff_exists]
  constructor
  · rintro ⟨v, hv, -⟩
    exact ⟨v, hv⟩
  · rintro ⟨v, hv⟩
    exact ⟨v, hv, by rw [hv, Option.map_some]⟩

theorem Distinct.mem_entries_iff (h : Distinct txts) (x : Option (List UInt8)) :
    (key, x) ∈ txts.map ServiceTxt.entry ↔ txtMap txts key = some x := by
  constructor
  · intro hmem
    obtain ⟨a, ha, heq⟩ := mem_map.mp hmem
    obtain ⟨rfl, rfl⟩ := Prod.mk.inj heq
    exact h.txtMap_of_mem ha
  · intro hmap
    obtain ⟨a, ha, rfl, rfl⟩ := txtMap_eq_some hmap
    exact mem_map_of_mem ha

theorem SameMap.perm (h : SameMap as bs) (has : Distinct as) (hbs : Distinct bs) :
    (as.map ServiceTxt.entry).Perm (bs.map ServiceTxt.entry) := by
  have hnodup : ∀ {txts}, Distinct txts → (txts.map ServiceTxt.entry).Nodup := fun htxts => by
    refine List.Nodup.of_map Prod.fst ?_
    rw [map_map]
    exact htxts
  refine (perm_ext_iff_of_nodup (hnodup has) (hnodup hbs)).mpr fun e => ?_
  obtain ⟨key, x⟩ := e
  rw [has.mem_entries_iff, hbs.mem_entries_iff, h]

def addLength (n : Nat) (e : List UInt8 × Option (List UInt8)) : Nat :=
  (n + 1 + (e.1.length + 1 + (e.2.getD []).length)) % 65536

instance addLengthComm : RightCommutative addLength :=
  ⟨fun n d e => by unfold addLength; omega⟩

theorem txtsLength_entries (txts : List ServiceTxt) :
    txtsLength txts = (txts.map ServiceTxt.entry).foldl addLength 0 := by
  rw [txtsLength, foldl_map]
  congr 1
  funext n txt
  have hvalue : ((txt.value.map cstr).getD []).length = strlen (txt.value.getD []) := by
    cases txt.value with
    | none => rfl
    | some v => rfl
  rw [addLength, ServiceTxt.entry, hvalue]
  rfl

theorem SameMap.length_eq (h : SameMap as bs) (has : Distinct as) (hbs : Distinct bs) :
    txtsLength as = txtsLength bs := by
  rw [txtsLength_entries, txtsLength_entries]
  exact (h.perm has hbs).foldl_eq 0

theorem Distinct.sameMap_perm (h : Distinct as) (hperm : as.Perm cs) : SameMap as cs := by
  have hcs : Distinct cs := (hperm.map ServiceTxt.keyText).nodup_iff.mp h
  intro key
  refine Option.ext fun x => ?_
  rw [← h.mem_entries_iff, ← hcs.mem_entries_iff]
  exact (hperm.map ServiceTxt.entry).mem_iff

/-- **The order does not matter** where no key occurs twice. -/
theorem txtsEq_perm (h : Distinct as) (hperm : as.Perm cs) (bs : List ServiceTxt) :
    txtsEq cs bs = txtsEq as bs := by
  have hsame := h.sameMap_perm hperm
  have hcs : Distinct cs := (hperm.map ServiceTxt.keyText).nodup_iff.mp h
  rw [Bool.eq_iff_iff, txtsEq_iff, txtsEq_iff, hcs.within_iff, h.within_iff,
    hsame.length_eq h hcs]
  have hmaps : SameMap cs bs ↔ SameMap as bs := forall_congr' fun key => by rw [hsame]
  have hvalues : (∀ a ∈ cs, a.value.isSome) ↔ ∀ a ∈ as, a.value.isSome :=
    forall_congr' fun a => by rw [hperm.mem_iff]
  rw [hmaps, hvalues]

theorem Distinct.addServiceTxt (h : Distinct txts) (key value : Option (List UInt8))
    (temp : Bool) : Distinct (addServiceTxt txts key value temp) := by
  cases key with
  | none => exact h
  | some key =>
    unfold Mdns.addServiceTxt
    dsimp only
    split
    · exact h
    cases hfind : txts.findIdx? (fun txt => decide (strcmp txt.key key = 0)) with
    | none =>
      dsimp only
      split
      · refine nodup_cons.mpr ⟨fun hmem => ?_, h⟩
        obtain ⟨txt, htxt, heq⟩ := mem_map.mp hmem
        have hnot := findIdx?_eq_none_iff.mp hfind txt htxt
        have hne : ¬ strcmp txt.key key = 0 := by simpa using hnot
        exact hne ((strcmp_eq_zero_iff _ _).mpr (heq.trans (cstr_cstr key)))
      · exact h
    | some i =>
      dsimp only
      split
      · obtain ⟨hi, -⟩ := findIdx?_eq_some_iff_getElem.mp hfind
        have hget : txts.getD i ⟨[], none, false⟩ = txts[i] := by simp [getD, hi]
        rw [hget]
        generalize (if strlen (value.getD []) = 0 then none else value.map cstr) = new
        have hkeys : (txts.set i { txts[i] with value := new, temp := temp }).map
            ServiceTxt.keyText = txts.map ServiceTxt.keyText := by
          have hi' : i < (txts.map ServiceTxt.keyText).length := by simpa using hi
          have hsame : ServiceTxt.keyText { txts[i] with value := new, temp := temp } =
              (txts.map ServiceTxt.keyText)[i] := by
            rw [getElem_map]
            rfl
          rw [map_set, hsame, set_getElem_self]
        unfold Distinct
        rwa [hkeys]
      · exact h

/-- **No key is twice** in the items of a service. -/
theorem addAll_distinct (calls : List AddTxt) : Distinct (addAll calls) := by
  have hfold : ∀ txts, Distinct txts → Distinct (calls.foldl
      (fun txts call => addServiceTxt txts call.key call.value call.temp) txts) := by
    induction calls with
    | nil => exact fun _ h => h
    | cons call rest ih => exact fun txts h => ih _ (h.addServiceTxt call.key call.value call.temp)
  exact hfold [] nodup_nil

/-! ## When the comparison is one of maps -/

/-- The comparison tells whether two lists stand for the same map. -/
def ComparesMaps (as bs : List ServiceTxt) : Prop := txtsEq as bs = true ↔ SameMap as bs

/-- **The comparison is one of maps** just where two lists that stand for the same map are found
in themselves, and have lengths that agree: without a key twice, as insertion leaves them, just
where all items have a value.  Then it is reflexive and does not depend on the order; it is
always symmetric. -/
theorem txts_compare_iff (as bs : List ServiceTxt) :
    (ComparesMaps as bs ↔
      (SameMap as bs → Within as as ∧ Within bs bs ∧ txtsLength as = txtsLength bs)) ∧
    (Distinct as → Distinct bs →
      (ComparesMaps as bs ↔ (SameMap as bs → ∀ a ∈ as ++ bs, a.value.isSome))) ∧
    (txtsEq as as = true ↔ Within as as) ∧
    (Distinct as → (txtsEq as as = true ↔ ∀ a ∈ as, a.value.isSome)) ∧
    txtsEq as bs = txtsEq bs as ∧
    (∀ cs, Distinct as → as.Perm cs → txtsEq cs bs = txtsEq as bs) ∧
    ∀ calls, Distinct (addAll calls) := by
  have hall : ComparesMaps as bs ↔
      (SameMap as bs → Within as as ∧ Within bs bs ∧ txtsLength as = txtsLength bs) := by
    rw [ComparesMaps, txtsEq_iff]
    exact ⟨fun h hsame => (h.mpr hsame).2, fun h => ⟨And.left, fun hsame => ⟨hsame, h hsame⟩⟩⟩
  have hrefl : txtsEq as as = true ↔ Within as as := by
    rw [txtsEq_iff]
    exact ⟨fun h => h.2.1, fun h => ⟨fun _ => rfl, h, h, rfl⟩⟩
  refine ⟨hall, fun has hbs => ?_, hrefl, fun has => hrefl.trans has.within_iff, ?_,
    fun cs has hperm => txtsEq_perm has hperm bs, addAll_distinct⟩
  · rw [hall]
    refine forall_congr' fun hsame => ?_
    rw [has.within_iff, hbs.within_iff, forall_mem_append]
    exact ⟨fun h => ⟨h.1, h.2.1⟩, fun h => ⟨h.1, h.2, hsame.length_eq has hbs⟩⟩
  · rw [Bool.eq_iff_iff, txtsEq_iff, txtsEq_iff]
    exact ⟨fun h => ⟨h.1.symm, h.2.2.1, h.2.1, h.2.2.2.symm⟩,
      fun h => ⟨h.1.symm, h.2.2.1, h.2.1, h.2.2.2.symm⟩⟩

/-- An item without a value is not found in its own list. -/
theorem not_txts_compare :
    txtsEq (addAll [⟨some [97], none, false⟩]) (addAll [⟨some [97], none, false⟩]) = false ∧
      ¬ ComparesMaps (addAll [⟨some [97], none, false⟩]) (addAll [⟨some [97], none, false⟩]) := by
  have hfalse : txtsEq (addAll [⟨some [97], none, false⟩]) (addAll [⟨some [97], none, false⟩]) =
      false := by decide
  refine ⟨hfalse, fun h => ?_⟩
  rw [h.mpr fun _ => rfl] at hfalse
  cases hfalse

end Mdns
