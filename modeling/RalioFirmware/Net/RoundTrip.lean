import RalioFirmware.Net.AddressText
import RalioFirmware.Net.DottedQuad

/-!
# An address and its text

`printTo` leaves out one run of zero groups, the first: it is a `::` where groups stand on both
sides of it, and has forms of its own where it is at an end.
-/

namespace Net

open CString Http List

namespace IPAddress

/-! ## Groups that are printed -/

def printed (groups : List UInt16) : List (List UInt8) := groups.map fun g => printHex g.toNat

theorem printed_length (groups : List UInt16) : (printed groups).length = groups.length :=
  length_map _

theorem runValue_hex {run : List UInt8} (hrun : ∀ c ∈ run, isxdigit c = true) (acc : Nat) :
    runValue acc run = run.foldl (fun n d => 16 * n + (hexDigit d).getD 0) acc := by
  induction run generalizing acc with
  | nil => rfl
  | cons c run ih =>
    obtain ⟨d, hd⟩ := Option.isSome_iff_exists.mp (hrun c mem_cons_self)
    have hstep : acc * 16 + alnumValue (tolower c) = 16 * acc + (hexDigit c).getD 0 := by
      rw [(alnumValue_hexDigit c d hd).2, hd, Option.getD_some, Nat.mul_comm]
    show runValue (acc * 16 + alnumValue (tolower c)) run = _
    rw [ih (fun b hb => hrun b (mem_cons_of_mem c hb)), hstep]
    rfl

theorem runValue_printHex (n : Nat) : runValue 0 (printHex n) = n :=
  (runValue_hex (fun _ => isxdigit_printHex) 0).trans (hexValue_printHex n)

theorem isGroup_printHex (g : UInt16) : IsGroup (printHex g.toNat) where
  ne_nil := printHex_ne_nil _
  alnum := by
    intro c hc
    obtain ⟨d, hd⟩ := Option.isSome_iff_exists.mp (isxdigit_printHex hc)
    exact (alnumValue_hexDigit c d hd).1
  le := by
    have hlt := g.toNat_lt
    rw [runValue_printHex]
    omega

theorem isGroup_printed {groups : List UInt16} : ∀ run ∈ printed groups, IsGroup run := by
  intro run hrun
  obtain ⟨g, -, rfl⟩ := mem_map.mp hrun
  exact isGroup_printHex g

/-- **Groups that are printed** are read as they were. -/
theorem values_printed (groups : List UInt16) : values (printed groups) = groups := by
  rw [values, printed, map_map, map_map]
  refine (map_congr_left fun g _ => ?_).trans (map_id groups)
  show UInt16.ofNat (runValue 0 (printHex g.toNat)) = g
  rw [runValue_printHex, UInt16.ofNat_toNat]

/-! ## The loop of `printTo` -/

section

variable {groups rest : List UInt16} {i : Nat}

theorem printGroups_late {count0 : Int} (hcount : count0 < 0) (hend : i + groups.length = 8) :
    printGroups groups i count0 = join (printed groups) := by
  induction groups generalizing i with
  | nil => rfl
  | cons g groups ih =>
    rw [length_cons] at hend
    rw [printGroups]
    simp only [hcount, or_true, if_true, if_neg (show ¬ count0 > 0 by omega)]
    cases groups with
    | nil =>
      have hlast : i = 7 := by grind
      rw [if_neg (by omega)]
      exact (append_nil _).trans (append_nil _)
    | cons next groups =>
      rw [length_cons] at hend
      rw [if_pos (by omega), ih (by rw [length_cons]; omega), append_assoc]
      rfl

theorem printGroups_front (hgroups : ∀ g ∈ groups, g ≠ 0) (hlen : i + groups.length ≤ 7) :
    printGroups (groups ++ rest) i 0 =
      colons (printed groups) ++ printGroups rest (i + groups.length) 0 := by
  induction groups generalizing i with
  | nil => rfl
  | cons g groups ih =>
    have hg := hgroups g mem_cons_self
    rw [length_cons] at hlen
    have htail := @ih (i + 1) (fun h hh => hgroups h (mem_cons_of_mem g hh)) (by omega)
    have hplace : i + 1 + groups.length = i + (g :: groups).length := by
      rw [length_cons]
      omega
    rw [hplace] at htail
    rw [cons_append, printGroups]
    simp only [hg, ne_eq, not_false_eq_true, true_or, if_true,
      if_neg (show ¬ (0 : Int) > 0 by decide)]
    rw [if_pos (by omega), htail]
    simp [colons, printed]

theorem printGroups_zeros {k : Nat} (hk : 0 < k) (z : Nat) :
    printGroups (List.replicate z 0 ++ rest) i k =
      (if k < 7 ∧ 7 ≤ k + z then [58] else []) ++ printGroups rest (i + z) (k + z : Nat) := by
  induction z generalizing i k with
  | zero =>
    rw [if_neg (by omega)]
    rfl
  | succ z ih =>
    have htail := @ih (i + 1) (k + 1) (by omega)
    have hplace : i + 1 + z = i + (z + 1) := by omega
    have hcount : k + 1 + z = k + (z + 1) := by omega
    rw [hplace, hcount] at htail
    rw [replicate_succ, cons_append, printGroups]
    have hshown : ((0 : UInt16) ≠ 0 ∨ (k : Int) < 0) = False := eq_false (by simp)
    simp only [hshown, if_false]
    have hnext : ((k : Int) + 1) = ((k + 1 : Nat) : Int) := by omega
    rw [hnext, htail, nil_append, ← append_assoc]
    congr 1
    by_cases hseventh : k + 1 = 7
    · grind
    · grind

theorem printGroups_first (z : Nat) :
    printGroups (List.replicate (z + 1) 0 ++ rest) i 0 =
      (if i ≠ 7 then [58] else []) ++ ((if 6 ≤ z then [58] else []) ++
        printGroups rest (i + (z + 1)) (z + 1 : Nat)) := by
  have htail := @printGroups_zeros rest (i + 1) 1 (by decide) z
  have hplace : i + 1 + z = i + (z + 1) := by omega
  have hcount : 1 + z = z + 1 := by omega
  rw [hplace, hcount] at htail
  rw [replicate_succ, cons_append, printGroups]
  simp only [ne_eq, not_true_eq_false, false_or, if_neg (show ¬ (0 : Int) < 0 by decide)]
  have hfirst : (0 : Int) + 1 = ((1 : Nat) : Int) := by decide
  have hseventh : (1 < 7 ∧ 7 ≤ z + 1) = (6 ≤ z) := propext (by omega)
  have hcolon : (i ≠ 7 ∧ ((1 : Nat) : Int) < 2 ∨ ((1 : Nat) : Int) = 7) = (i ≠ 7) :=
    propext (by omega)
  simp only [ne_eq] at hcolon
  rw [hfirst, htail, nil_append]
  simp only [hseventh, hcolon]

theorem printGroups_back {k : Nat} (hk : 0 < k) (hhead : groups.head? ≠ some 0)
    (hend : i + groups.length = 8) : printGroups groups i k = join (printed groups) := by
  cases groups with
  | nil => rfl
  | cons g groups =>
    have hg : g ≠ 0 := fun h => hhead (by rw [h]; rfl)
    rw [length_cons] at hend
    rw [printGroups]
    simp only [hg, ne_eq, not_false_eq_true, true_or, if_true,
      if_pos (show (k : Int) > 0 by omega)]
    cases groups with
    | nil =>
      have hlast : i = 7 := by grind
      rw [if_neg (by omega)]
      exact (append_nil _).trans (append_nil _)
    | cons next groups =>
      rw [length_cons] at hend
      rw [if_pos (by omega),
        printGroups_late (by decide) (by rw [length_cons]; omega), append_assoc]
      rfl

end

/-! ## Reading what is printed -/

theorem exists_zeros (groups : List UInt16) :
    ∃ z back, groups = List.replicate z 0 ++ back ∧ back.head? ≠ some 0 := by
  induction groups with
  | nil => exact ⟨0, [], rfl, by simp⟩
  | cons g groups ih =>
    by_cases hg : g = 0
    · obtain ⟨z, back, rfl, hback⟩ := ih
      exact ⟨z + 1, back, by rw [hg, replicate_succ]; rfl, hback⟩
    · exact ⟨0, g :: groups, rfl, by simpa using hg⟩

theorem exists_front (groups : List UInt16) :
    ∃ front z back, groups = front ++ List.replicate z 0 ++ back ∧ (∀ g ∈ front, g ≠ 0) ∧
      back.head? ≠ some 0 ∧ (z = 0 → back = []) := by
  induction groups with
  | nil => exact ⟨[], 0, [], rfl, by simp, by simp, fun _ => rfl⟩
  | cons g groups ih =>
    by_cases hg : g = 0
    · obtain ⟨z, back, hback, hhead⟩ := exists_zeros groups
      refine ⟨[], z + 1, back, ?_, by simp, hhead, fun h => absurd h (by omega)⟩
      rw [hg, hback, replicate_succ]
      rfl
    · obtain ⟨front, z, back, rfl, hfront, hhead, hnil⟩ := ih
      refine ⟨g :: front, z, back, rfl, ?_, hhead, hnil⟩
      intro h hh
      rcases mem_cons.mp hh with rfl | hmem
      · exact hg
      · exact hfront h hmem

theorem colons_join {runs : List (List UInt8)} (hne : runs ≠ []) :
    colons runs = join runs ++ [58] := by
  obtain rfl | ⟨init, last, rfl⟩ := nil_or_concat runs
  · exact absurd rfl hne
  · rw [join_concat]
    simp [colons]

section

variable {front back : List UInt16} {z : Nat}

theorem printGroups_text (hfront : ∀ g ∈ front, g ≠ 0) (hhead : back.head? ≠ some 0)
    (hlen : front.length + (z + 1) + back.length = 8) :
    printGroups (front ++ List.replicate (z + 1) 0 ++ back) 0 0 =
      colons (printed front) ++ ((if front.length ≠ 7 then [58] else []) ++
        ((if 6 ≤ z then [58] else []) ++ join (printed back))) := by
  have hback := @printGroups_back back (0 + front.length + (z + 1)) (z + 1) (by omega) hhead
    (by omega)
  rw [append_assoc, printGroups_front hfront (by omega), printGroups_first, hback,
    Nat.zero_add]

variable (b : IPAddress)

theorem fromString6_full {groups : List UInt16} (hgroups : ∀ g ∈ groups, g ≠ 0)
    (hlen : groups.length = 8) :
    IsRead b groups (fromString6 false (printGroups groups 0 0) 0 0 none b) := by
  obtain rfl | ⟨init, last, hconcat⟩ := eq_nil_or_concat groups
  · cases hlen
  rw [concat_eq_append] at hconcat
  subst hconcat
  rw [length_append, length_singleton] at hlen
  have hinit : init.length = 7 := by omega
  have hlast : printGroups [last] (0 + init.length) 0 = printHex last.toNat := by
    have hne := hgroups last (mem_append_right _ mem_cons_self)
    rw [hinit]
    simp [printGroups, hne]
  have hread := @fromString6_last b (printed init) (printHex last.toNat) 0 [] b.raw isGroup_printed
    (isGroup_printHex last).isLast rfl rfl (by rw [printed_length, hinit])
  have hvalues := values_printed (init ++ [last])
  rw [printGroups_front (fun g hg => hgroups g (mem_append_left _ hg)) (by omega), hlast]
  refine ⟨hread.ok, hread.type, hread.raw.trans ?_, hread.zone⟩
  rw [nil_append, ← map_singleton, ← map_append]
  refine Eq.trans ?_ hvalues
  simp [values, printed]

theorem fromString6_inner (hfront : ∀ g ∈ front, g ≠ 0) (hhead : back.head? ≠ some 0)
    (hne : front ≠ []) (hz : z < 6) (hseven : front.length ≠ 7)
    (hlen : front.length + (z + 1) + back.length = 8) :
    IsRead b (front ++ List.replicate (z + 1) 0 ++ back)
      (fromString6 false (printGroups (front ++ List.replicate (z + 1) 0 ++ back) 0 0) 0 0 none
        b) := by
  have hprinted : printed front ≠ [] := by
    rw [printed, ne_eq, map_eq_nil_iff]
    exact hne
  have hread := @fromString6_compressed b (printed front) (printed back) isGroup_printed
    isGroup_printed (by rw [printed_length, printed_length]; omega)
  have hcount : 8 - front.length - back.length = z + 1 := by omega
  rw [printed_length, printed_length, values_printed, values_printed, hcount] at hread
  rw [printGroups_text hfront hhead hlen, colons_join hprinted, if_pos hseven, if_neg (by omega),
    append_assoc (join _)]
  exact hread

theorem fromString6_trailing (hfront : ∀ g ∈ front, g ≠ 0) (hseven : front.length = 7) :
    IsRead b (front ++ List.replicate 1 0)
      (fromString6 false (printGroups (front ++ List.replicate 1 0) 0 0) 0 0 none b) := by
  have htext := @printGroups_text front [] 0 hfront (by simp) (by rw [hseven]; rfl)
  rw [append_nil, if_neg (not_not_intro hseven)] at htext
  have hread := @fromString6_last b (printed front) [] 0 [] b.raw isGroup_printed isLast_nil rfl rfl
    (by rw [printed_length, hseven])
  have hvalues := values_printed front
  rw [htext]
  refine ⟨hread.ok, hread.type, hread.raw.trans ?_, hread.zone⟩
  rw [map_append]
  exact congrArg (· ++ [0]) hvalues

theorem fromString6_alone (g : UInt16) (hg : g ≠ 0) :
    IsRead b ([g] ++ List.replicate 7 0)
      (fromString6 false (printGroups ([g] ++ List.replicate 7 0) 0 0) 0 0 none b) := by
  have htext := @printGroups_text [g] [] 6 (by simpa using hg) (by simp) rfl
  rw [append_nil] at htext
  obtain ⟨r, s, rest, hraw⟩ : ∃ r s rest, b.raw = r :: s :: rest := by
    have hsize := b.size
    match hb : b.raw with
    | [] => rw [hb] at hsize; cases hsize
    | [_] => rw [hb] at hsize; cases hsize
    | r :: s :: rest => exact ⟨r, s, rest, rfl⟩
  have hvalue := runValue_printHex g.toNat
  have hne : g.toNat ≠ 0 := fun h => hg (UInt16.toNat_inj.mp h)
  have hset : (((b.setGroup 0 g.toNat).setGroup 1 0)).raw = [g] ++ [0] ++ rest := by
    show (b.raw.set 0 (UInt16.ofNat g.toNat)).set 1 0 = _
    rw [hraw, UInt16.ofNat_toNat]
    rfl
  have hread := @fromString6_behind ((b.setGroup 0 g.toNat).setGroup 1 0) [] [] 2 1 [g] [0] rest
    (fun _ h => nomatch h) isLast_nil hset rfl rfl (by decide)
  have hcolons : colons (printed [g]) ++ ((if [g].length ≠ 7 then [58] else []) ++
      ((if 6 ≤ 6 then [58] else []) ++ join (printed []))) =
      printHex g.toNat ++ (58 :: 58 :: [58]) := by
    simp [colons, printed, join]
  rw [htext, hcolons, fromString6_group (isGroup_printHex g), fromString6_double (by decide),
      hvalue,
    if_neg hne, fromString6_colon (by simp) (by decide)]
  exact ⟨hread.ok, hread.type, hread.raw, hread.zone⟩

theorem fromString6_leading (hhead : back.head? ≠ some 0) (hseven : back.length = 7) :
    IsRead b (List.replicate 1 0 ++ back)
      (fromString6 false (printGroups (List.replicate 1 0 ++ back) 0 0) 0 0 none b) := by
  have htext := @printGroups_text [] back 0 (by simp) hhead (by rw [hseven]; rfl)
  obtain rfl | ⟨init, last, hconcat⟩ := eq_nil_or_concat back
  · cases hseven
  rw [concat_eq_append] at hconcat
  subst hconcat
  rw [length_append, length_singleton] at hseven
  obtain ⟨r, rest, hraw⟩ := exists_cons_of_ne_nil (show b.raw ≠ [] by
    intro hnil
    have hsize := b.size
    rw [hnil] at hsize
    cases hsize)
  have hset : (b.setGroup 0 0).raw = [0] ++ rest := by
    show b.raw.set 0 0 = _
    rw [hraw]
    rfl
  have hread := @fromString6_last (b.setGroup 0 0) (printed init) (printHex last.toNat) 1 [0] rest
    isGroup_printed (isGroup_printHex last).isLast hset rfl (by rw [printed_length]; omega)
  have hjoin : join (printed (init ++ [last])) = colons (printed init) ++ printHex last.toNat := by
    rw [printed, map_append, map_singleton, join_concat]
    rfl
  have hnext : (colons (printed init) ++ printHex last.toNat).head? ≠ some 58 := by
    cases init with
    | nil => cases hseven
    | cons g init =>
      have hgroup := (isGroup_printHex g)
      rw [printed, map_cons, colons, flatMap_cons, append_assoc, append_assoc]
      exact hgroup.head?
  have hvalues := values_printed (init ++ [last])
  have hshown : colons (printed []) ++ ((if ([] : List UInt16).length ≠ 7 then [58] else []) ++
      ((if 6 ≤ 0 then [58] else []) ++ join (printed (init ++ [last])))) =
      58 :: (colons (printed init) ++ printHex last.toNat) := by
    rw [hjoin]
    rfl
  rw [nil_append, hshown] at htext
  rw [htext, fromString6_colon hnext (by decide)]
  refine ⟨hread.ok, hread.type, hread.raw.trans ?_, hread.zone⟩
  show [0] ++ _ = [0] ++ _
  refine congrArg ([0] ++ ·) (Eq.trans ?_ hvalues)
  simp [values, printed]

theorem fromString6_single (g : UInt16) (hg : g ≠ 0) :
    IsRead b (List.replicate 7 0 ++ [g])
      (fromString6 false (printGroups (List.replicate 7 0 ++ [g]) 0 0) 0 0 none b) := by
  have htext := @printGroups_text [] [g] 6 (by simp) (by simpa using hg) rfl
  have hread := @fromString6_compressed b [] (printed [g]) (by simp) isGroup_printed
    (by simp [printed])
  rw [values_printed] at hread
  rw [nil_append] at htext
  rw [htext]
  exact hread

end

theorem fromString6_printed (b : IPAddress) {groups : List UInt16} (hlen : groups.length = 8)
    (hset : ∃ g ∈ groups, g ≠ 0)
    (hrun : groups.getD 0 0 = 0 → groups.getD 1 0 = 0 → ∀ i < 7, groups.getD i 0 = 0) :
    IsRead b groups (fromString6 false (printGroups groups 0 0) 0 0 none b) := by
  obtain ⟨front, z, back, rfl, hfront, hhead, hnil⟩ := exists_front groups
  rw [length_append, length_append, length_replicate] at hlen
  cases z with
  | zero =>
    have hnone := hnil rfl
    subst hnone
    rw [append_nil]
    exact fromString6_full b (by simpa using hfront) (by simpa using hlen)
  | succ z =>
    by_cases hne : front = []
    · subst hne
      rw [nil_append] at hset hrun ⊢
      cases z with
      | zero => exact fromString6_leading b hhead (by simp at hlen; omega)
      | succ z =>
        have hsix : z = 5 := by
          have hseven : ∀ i < 7, (replicate (z + 1 + 1) 0 ++ back).getD i 0 = 0 :=
            hrun rfl rfl
          have hback : back ≠ [] := by
            rintro rfl
            obtain ⟨g, hg, hne⟩ := hset
            rw [append_nil] at hg
            exact hne (eq_of_mem_replicate hg)
          obtain ⟨g, rest, rfl⟩ := exists_cons_of_ne_nil hback
          have hg : g ≠ 0 := fun h => hhead (by rw [h]; rfl)
          rw [length_nil, length_cons] at hlen
          by_contra hshort
          have hplace := hseven (z + 1 + 1) (by omega)
          rw [getD_eq_getElem?_getD,
            getElem?_append_right (by rw [length_replicate]), length_replicate,
            Nat.sub_self] at hplace
          exact hg hplace
        subst hsix
        obtain ⟨g, rfl⟩ := length_eq_one_iff.mp (show back.length = 1 by
          simp at hlen
          omega)
        exact fromString6_single b g fun h => hhead (by rw [h]; rfl)
    · have hpos : 0 < front.length := length_pos_of_ne_nil hne
      by_cases hseven : front.length = 7
      · have hz : z = 0 := by omega
        have hback : back = [] := eq_nil_of_length_eq_zero (by omega)
        subst hz hback
        rw [append_nil]
        exact fromString6_trailing b hfront hseven
      · by_cases hz : z < 6
        · exact fromString6_inner b hfront hhead hne hz hseven hlen
        · have hback : back = [] := eq_nil_of_length_eq_zero (by omega)
          have hz : z = 6 := by omega
          obtain ⟨g, rfl⟩ := length_eq_one_iff.mp (show front.length = 1 by omega)
          subst hz hback
          rw [append_nil]
          exact fromString6_alone b g (hfront g mem_cons_self)

/-! ## Both versions -/

theorem printHex_notMem (n : Nat) : (46 : UInt8) ∉ printHex n ∧ (0 : UInt8) ∉ printHex n :=
  ⟨fun h => absurd (isxdigit_printHex h) (by decide),
    fun h => absurd (isxdigit_printHex h) (by decide)⟩

theorem printDec_notMem (n : Nat) : (0 : UInt8) ∉ printDec n :=
  fun h => absurd (isdigit_printDec h) (by decide)

theorem printGroups_notMem {c : UInt8} (hcolon : c ≠ 58) (hhex : ∀ n, c ∉ printHex n)
    (groups : List UInt16) (i : Nat) (count0 : Int) : c ∉ printGroups groups i count0 := by
  induction groups generalizing i count0 with
  | nil => exact not_mem_nil
  | cons g groups ih =>
    rw [printGroups]
    intro hmem
    rcases mem_append.mp hmem with hmem | hmem
    · grind
    · exact ih _ _ hmem

theorem fromString4_toString {a : IPAddress} (b : IPAddress) (htype : a.type = .v4)
    (hset : a.isSet = true) :
    fromString b a.toString =
      (true, b.setQuad (a.octet 0) (a.octet 1) (a.octet 2) (a.octet 3)) := by
  have hzero : (0 : UInt8) ∉ a.toString := by
    rw [toString_quad htype hset]
    simp [quad, printDec_notMem]
  have hquad := fromString4_quad b (isOctet_printDec (octet_lt a 0))
      (isOctet_printDec (octet_lt a 1))
    (isOctet_printDec (octet_lt a 2)) (isOctet_printDec (octet_lt a 3))
  rw [decValue_printDec, decValue_printDec, decValue_printDec, decValue_printDec] at hquad
  rw [fromString, cstr_eq_self hzero, toString_quad htype hset, hquad]

theorem fromString6_toString {a : IPAddress} (b : IPAddress) (htype : a.type = .v6)
    (hset : a.isSet = true) :
    fromString b a.toString = fromString6 false (printGroups a.raw 0 0) 0 0 none b := by
  have htext : a.toString = printGroups a.raw 0 0 := by
    simp [toString, htype, hset]
  have hzero : (0 : UInt8) ∉ printGroups a.raw 0 0 :=
    printGroups_notMem (by decide) (fun n => (printHex_notMem n).2) _ _ _
  have hdot : (46 : UInt8) ∉ printGroups a.raw 0 0 :=
    printGroups_notMem (by decide) (fun n => (printHex_notMem n).1) _ _ _
  rw [fromString, htext, cstr_eq_self hzero, fromString4_notMem hdot (by decide)]

/-- **An address and its text.**  An address that is set is read back from its text into any
object, but for an IPv6 address that begins with two to six zeros; the text has no zone. -/
theorem fromString_toString (a b : IPAddress) (htype : a.type ≠ .any) (hset : a.isSet = true)
    (hzone : a.type = .v6 → b.zone = a.zone)
    (hrun : a.type = .v6 → a.group 0 = 0 → a.group 1 = 0 → ∀ i < 7, a.group i = 0) :
    (fromString b a.toString).1 = true ∧ equals (fromString b a.toString).2 a = true := by
  cases hversion : a.type with
  | any => exact absurd hversion htype
  | v4 =>
    have hread := fromString4_toString b hversion hset
    obtain ⟨hfirst, hsecond⟩ := group_setQuad b (octet_lt a 0) (octet_lt a 1) (octet_lt a 2)
      (octet_lt a 3)
    have htype4 : (b.setQuad (a.octet 0) (a.octet 1) (a.octet 2) (a.octet 3)).type = .v4 := rfl
    have hgroups := group_octets a 0
    have hgroups1 := group_octets a 1
    rw [hread]
    simp [equals, htype4, hversion, hfirst, hsecond, hgroups, hgroups1]
  | v6 =>
    have hnonzero : ∃ g ∈ a.raw, g ≠ 0 := by
      by_contra hall
      have hany : a.isAny = true := by
        simp only [isAny, hversion, if_true, all_eq_true, decide_eq_true_eq]
        intro g hg
        by_contra hg0
        exact hall ⟨g, hg, hg0⟩
      rw [isSet, hany] at hset
      cases hset
    have hread := fromString6_printed b a.size hnonzero (hrun hversion)
    rw [fromString6_toString b hversion hset]
    refine ⟨hread.ok, ?_⟩
    simp [equals, hread.type, hread.raw, hread.zone, hversion, hzone hversion]

/-- `fe80::1:2`, which is read into an address that is not set. -/
theorem fromString_toString_linkLocal :
    (fromString unset (toString ⟨.v6, [0xfe80, 0, 0, 0, 0, 0, 1, 2], 0, rfl⟩)).1 = true ∧
      equals (fromString unset (toString ⟨.v6, [0xfe80, 0, 0, 0, 0, 0, 1, 2], 0, rfl⟩)).2
        ⟨.v6, [0xfe80, 0, 0, 0, 0, 0, 1, 2], 0, rfl⟩ = true :=
  fromString_toString _ _ (by decide) (by decide) (fun _ => rfl) (fun _ h => absurd h (by decide))

/-- An address with nothing but zeros is printed as one that is not set. -/
theorem fromString_unset_false :
    ¬ ∀ a b : IPAddress, a.type ≠ .any →
      (fromString b a.toString).1 = true ∧ equals (fromString b a.toString).2 a = true := by
  intro h
  obtain ⟨hread, -⟩ := h ⟨.v4, replicate 8 0, 0, rfl⟩ unset (by decide)
  revert hread
  decide

end IPAddress

end Net
