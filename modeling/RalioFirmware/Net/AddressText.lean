import RalioFirmware.Net.IPAddress

/-!
# Texts of addresses

`fromString6` reads a text by its runs of letters and digits: such a run comes to one number, and
what stands behind it decides where the number goes.  The groups behind a `::` are moved to the end
when the text is over.
-/

namespace Net

open CString Http List

namespace IPAddress

/-! ## Characters -/

theorem of_bytes {p : UInt8 → Prop} (h : ∀ n < 256, p (UInt8.ofNat n)) (c : UInt8) : p c := by
  have hc := h c.toNat c.toNat_lt
  rwa [UInt8.ofNat_toNat] at hc

theorem isalnum_tolower : ∀ c : UInt8, isalnum (tolower c) = isalnum c :=
  of_bytes (by decide +kernel)

theorem alnumValue_hexDigit :
    ∀ c : UInt8, ∀ d, hexDigit c = some d → isalnum c = true ∧ alnumValue (tolower c) = d := by
  have hall : ∀ c : UInt8, (hexDigit c).isSome = true →
      isalnum c = true ∧ hexDigit c = some (alnumValue (tolower c)) :=
    of_bytes (by decide +kernel)
  intro c d hd
  obtain ⟨halnum, hvalue⟩ := hall c (by rw [hd]; rfl)
  exact ⟨halnum, Option.some.inj (hvalue.symm.trans hd)⟩

theorem tolower_colon : tolower 58 = 58 ∧ isalnum 58 = false := by decide

/-! ## Runs of letters and digits -/

/-- The number that a run of letters and digits comes to, from another one on. -/
def runValue (acc : Nat) (run : List UInt8) : Nat :=
  run.foldl (fun acc c => acc * 16 + alnumValue (tolower c)) acc

theorem le_runValue (acc : Nat) (run : List UInt8) : acc ≤ runValue acc run := by
  induction run generalizing acc with
  | nil => exact Nat.le_refl acc
  | cons c run ih =>
    have hstep : acc ≤ acc * 16 + alnumValue (tolower c) := by omega
    exact Nat.le_trans hstep (ih _)

section

variable {acc dots : Nat} {doubledots : Option Nat} {a : IPAddress} {run rest : List UInt8}

/-- **A run is read** as one number, or is too large. -/
theorem fromString6_run (hrun : ∀ c ∈ run, isalnum c = true) (hacc : acc ≤ 65535) :
    fromString6 false (run ++ rest) acc dots doubledots a =
      if runValue acc run ≤ 65535 then fromString6 false rest (runValue acc run) dots doubledots a
      else (false, a) := by
  induction run generalizing acc with
  | nil =>
    show fromString6 false rest acc dots doubledots a = if acc ≤ 65535 then _ else _
    rw [if_pos hacc]
    rfl
  | cons c run ih =>
    have hc : isalnum (tolower c) = true := by
      rw [isalnum_tolower]
      exact hrun c mem_cons_self
    have hmono := le_runValue (acc * 16 + alnumValue (tolower c)) run
    have hvalue : runValue acc (c :: run) = runValue (acc * 16 + alnumValue (tolower c)) run := rfl
    rw [cons_append, fromString6, hvalue]
    simp only [Bool.false_eq_true, if_false, hc, if_true]
    by_cases hlarge : acc * 16 + alnumValue (tolower c) > 65535
    · rw [if_pos hlarge, if_neg (by omega)]
    · rw [if_neg hlarge]
      exact ih (fun b hb => hrun b (mem_cons_of_mem c hb)) (by omega)

theorem fromString6_colon (hnext : rest.head? ≠ some 58) (hdots : dots ≠ 7) :
    fromString6 false (58 :: rest) acc dots doubledots a =
      fromString6 false rest 0 (dots + 1) doubledots (a.setGroup dots acc) := by
  have hdouble : (rest.head? = some 58) = False := eq_false hnext
  rw [fromString6]
  simp only [tolower_colon.1, tolower_colon.2, Bool.false_eq_true, if_false, hdouble, false_and,
    if_true, hdots, decide_false]

theorem fromString6_double (hdots : dots ≠ 7) :
    fromString6 false (58 :: 58 :: rest) acc dots none a =
      fromString6 false rest 0 (dots + 1) (some (dots + if acc = 0 then 0 else 1))
        (a.setGroup dots acc) := by
  rw [fromString6]
  simp only [tolower_colon.1, tolower_colon.2, Bool.false_eq_true, if_false, head?_cons,
    Option.isSome_none, and_false, if_true, hdots, decide_true]
  rw [fromString6]
  rfl

/-! ## Groups -/

def store (a : IPAddress) (dots : Nat) : List Nat → IPAddress
  | [] => a
  | acc :: rest => store (a.setGroup dots acc) (dots + 1) rest

def colons (runs : List (List UInt8)) : List UInt8 := runs.flatMap fun run => run ++ [58]

/-- A group of a text: a run that is not empty, for a number of sixteen bits. -/
structure IsGroup (run : List UInt8) : Prop where
  ne_nil : run ≠ []
  alnum : ∀ c ∈ run, isalnum c = true
  le : runValue 0 run ≤ 65535

theorem IsGroup.head? (h : IsGroup run) : (run ++ rest).head? ≠ some 58 := by
  cases hrun : run with
  | nil => exact absurd hrun h.ne_nil
  | cons c tail =>
    intro hcolon
    have hc := h.alnum c (by rw [hrun]; exact mem_cons_self)
    rw [cons_append, head?_cons, Option.some.injEq] at hcolon
    rw [hcolon, tolower_colon.2] at hc
    cases hc

theorem fromString6_group (h : IsGroup run) :
    fromString6 false (run ++ rest) 0 dots doubledots a =
      fromString6 false rest (runValue 0 run) dots doubledots a := by
  rw [fromString6_run h.alnum (Nat.zero_le _), if_pos h.le]

/-- **Groups with a colon behind each** are stored one after another. -/
theorem fromString6_colons {runs : List (List UInt8)} (hruns : ∀ run ∈ runs, IsGroup run)
    (hrest : rest.head? ≠ some 58) (hdots : dots + runs.length ≤ 7) :
    fromString6 false (colons runs ++ rest) 0 dots doubledots a =
      fromString6 false rest 0 (dots + runs.length) doubledots
        (a.store dots (runs.map (runValue 0))) := by
  induction runs generalizing dots a with
  | nil => rfl
  | cons run runs ih =>
    have hrun := hruns run mem_cons_self
    have htail : ∀ run ∈ runs, IsGroup run := fun r hr => hruns r (mem_cons_of_mem _ hr)
    rw [length_cons] at hdots
    have hnext : (colons runs ++ rest).head? ≠ some 58 := by
      cases runs with
      | nil => exact hrest
      | cons next runs =>
        have hgroup := htail next mem_cons_self
        rw [colons, flatMap_cons, append_assoc, append_assoc]
        exact hgroup.head?
    have htext : colons (run :: runs) ++ rest = run ++ (58 :: (colons runs ++ rest)) := by
      simp [colons]
    rw [htext, fromString6_group hrun, fromString6_colon hnext (by omega),
      ih htail (by omega), length_cons, map_cons, store]
    congr 1
    omega

end

/-! ## The groups in the end -/

section

variable {a : IPAddress} {front moved rest : List UInt16} {dots i : Nat}

theorem setGroup_raw (h : a.raw = front ++ rest) (hfront : front.length = dots)
    (hrest : rest ≠ []) (acc : Nat) :
    (a.setGroup dots acc).raw = front ++ UInt16.ofNat acc :: rest.tail := by
  obtain ⟨r, rest, rfl⟩ := exists_cons_of_ne_nil hrest
  show a.raw.set dots (UInt16.ofNat acc) = _
  rw [h, ← hfront, set_append_right _ _ (Nat.le_refl _), Nat.sub_self]
  rfl

theorem store_raw {groups : List Nat} (h : a.raw = front ++ rest) (hfront : front.length = dots)
    (hlen : groups.length ≤ rest.length) :
    (a.store dots groups).raw =
      front ++ groups.map UInt16.ofNat ++ rest.drop groups.length := by
  induction groups generalizing a front rest dots with
  | nil =>
    rw [store, h, map_nil, append_nil]
    rfl
  | cons acc groups ih =>
    rw [length_cons] at hlen
    have hne : rest ≠ [] := by
      rintro rfl
      cases hlen
    have hset := setGroup_raw h hfront hne acc
    have hsplit : (a.setGroup dots acc).raw = (front ++ [UInt16.ofNat acc]) ++ rest.tail := by
      grind
    rw [store, ih hsplit (by simp [hfront]) (by rw [length_tail]; omega), map_cons,
      append_assoc front, length_cons, ← drop_one, drop_drop]
    simp [Nat.add_comm]

theorem moveUp_getElem? {raw : List UInt16} (hraw : raw.length = 8) {n : Nat}
    (hn : 8 - dots + i + n ≤ 8) (j : Nat) :
    (moveUp dots i n raw)[j]? =
      if 8 - dots + i ≤ j ∧ j < 8 - dots + i + n then raw[j - (8 - dots)]? else raw[j]? := by
  induction n generalizing raw with
  | zero => rw [moveUp, if_neg (by omega)]
  | succ n ih =>
    rw [moveUp, ih (by rw [length_set, hraw]) (by omega)]
    have hsource : raw[i + n]? = some (raw.getD (i + n) 0) := by
      rw [getD_eq_getElem?_getD, getElem?_eq_getElem (by omega), Option.getD_some]
    by_cases hlast : j = 8 - dots + i + n
    · have hplace : 8 - dots + i + n - (8 - dots) = i + n := by omega
      subst hlast
      rw [if_neg (by omega), if_pos (by omega), getElem?_set_self (by omega), hplace,
        hsource]
    · grind

theorem clearFrom_getElem? {raw : List UInt16} {n : Nat} (hn : i + n ≤ raw.length) (j : Nat) :
    (clearFrom n i raw)[j]? = if i ≤ j ∧ j < i + n then some 0 else raw[j]? := by
  induction n generalizing i raw with
  | zero => rw [clearFrom, if_neg (by omega)]
  | succ n ih =>
    rw [clearFrom, ih (by rw [length_set]; omega)]
    by_cases hfirst : j = i
    · grind
    · grind

/-- **The zeros take the place of the `::`**, and the groups behind it are the last. -/
theorem expand_raw (h : a.raw = front ++ moved ++ rest) (hfront : front.length = i)
    (hmoved : front.length + moved.length = dots) :
    (a.expand dots i).raw = front ++ List.replicate (8 - dots) 0 ++ moved := by
  have hsize := a.size
  have hlength : front.length + moved.length + rest.length = 8 := by
    rw [← hsize, h, length_append, length_append]
  show clearFrom (8 - dots) i (moveUp dots i (dots - i) a.raw) = _
  refine ext_getElem? fun j => ?_
  rw [clearFrom_getElem? (by rw [moveUp_length]; omega), moveUp_getElem? hsize (by omega), h,
    append_assoc, append_assoc]
  by_cases hlow : j < i
  · rw [if_neg (by omega), if_neg (by omega), getElem?_append_left (by omega),
      getElem?_append_left (by omega)]
  · have hright : (front ++ (replicate (8 - dots) 0 ++ moved))[j]? =
        (replicate (8 - dots) 0 ++ moved)[j - front.length]? :=
      getElem?_append_right (by omega)
    rw [hright]
    by_cases hzero : j < i + (8 - dots)
    · rw [if_pos (by omega), getElem?_append_left (by rw [length_replicate]; omega),
        getElem?_replicate, if_pos (by omega)]
    · have hmoved : (replicate (8 - dots) (0 : UInt16) ++ moved)[j - front.length]? =
          moved[j - front.length - (8 - dots)]? := by
        rw [getElem?_append_right (by rw [length_replicate]; omega),
          length_replicate]
      rw [if_neg (by omega), hmoved]
      by_cases hin : j < 8
      · have hplace : j - (8 - dots) - front.length = j - front.length - (8 - dots) := by omega
        rw [if_pos (by omega), getElem?_append_right (by omega),
          getElem?_append_left (by omega), hplace]
      · rw [if_neg (by omega), getElem?_eq_none (by simp; omega),
          getElem?_eq_none (by omega)]

end

/-! ## Forms of a text -/

def join : List (List UInt8) → List UInt8
  | [] => []
  | [run] => run
  | run :: runs => run ++ 58 :: join runs

theorem join_concat (runs : List (List UInt8)) (last : List UInt8) :
    join (runs ++ [last]) = colons runs ++ last := by
  induction runs with
  | nil => rfl
  | cons run runs ih =>
    have hne : runs ++ [last] ≠ [] := by simp
    have hjoin : join (run :: (runs ++ [last])) = run ++ 58 :: join (runs ++ [last]) := by
      cases hruns : runs ++ [last] with
      | nil => exact absurd hruns hne
      | cons next rest => rfl
    rw [cons_append, hjoin, ih]
    simp [colons]

theorem store_concat (a : IPAddress) (dots : Nat) (groups : List Nat) (acc : Nat) :
    a.store dots (groups ++ [acc]) = (a.store dots groups).setGroup (dots + groups.length) acc := by
  induction groups generalizing a dots with
  | nil => rfl
  | cons group groups ih =>
    rw [cons_append, store, ih, store, length_cons]
    congr 1
    omega

theorem store_zone (a : IPAddress) (dots : Nat) (groups : List Nat) :
    (a.store dots groups).zone = a.zone := by
  induction groups generalizing a dots with
  | nil => rfl
  | cons group groups ih => exact ih _ _

structure IsRead (a : IPAddress) (groups : List UInt16) (r : Bool × IPAddress) : Prop where
  ok : r.1 = true
  type : r.2.type = .v6
  raw : r.2.raw = groups
  zone : r.2.zone = a.zone

section

variable {a : IPAddress} {runs front back : List (List UInt8)} {run last : List UInt8}
  {dots i : Nat}

theorem finish6_none (a : IPAddress) (acc : Nat) {groups : List UInt16} (rest : UInt16)
    (hraw : a.raw = groups ++ [rest]) :
    IsRead a (groups ++ [UInt16.ofNat acc]) (finish6 acc 7 none a) := by
  have hlen : groups.length = 7 := by
    have hsize := a.size
    rw [hraw, length_append, length_singleton] at hsize
    omega
  exact ⟨rfl, rfl, setGroup_raw hraw hlen (by simp) acc, rfl⟩

theorem finish6_some (a : IPAddress) (acc : Nat) {front moved rest : List UInt16}
    (hraw : a.raw = front ++ moved ++ rest) (hfront : front.length = i)
    (hmoved : front.length + moved.length = dots) (hdots : dots < 8) :
    IsRead a (front ++ List.replicate (7 - dots) 0 ++ (moved ++ [UInt16.ofNat acc]))
      (finish6 acc dots (some i) a) := by
  have hsize := a.size
  have hne : rest ≠ [] := by grind
  have hset := setGroup_raw hraw (by rw [length_append, hmoved]) hne acc
  have hsplit : (a.setGroup dots acc).raw = front ++ (moved ++ [UInt16.ofNat acc]) ++
      rest.tail := by
    rw [hset]
    simp
  have hlength : front.length + (moved ++ [UInt16.ofNat acc]).length = dots + 1 := by grind
  have hzeros : 7 - dots = 8 - (dots + 1) := by omega
  rw [hzeros]
  exact ⟨rfl, rfl, expand_raw hsplit hfront hlength, rfl⟩

structure IsLast (run : List UInt8) : Prop where
  alnum : ∀ c ∈ run, isalnum c = true
  le : runValue 0 run ≤ 65535

theorem IsGroup.isLast (h : IsGroup run) : IsLast run := ⟨h.alnum, h.le⟩

theorem isLast_nil : IsLast [] where
  alnum := fun _ hc => nomatch hc
  le := by decide

theorem IsLast.head? (h : IsLast last) : last.head? ≠ some 58 := by
  intro hcolon
  have hc := h.alnum 58 (mem_of_mem_head? hcolon)
  rw [tolower_colon.2] at hc
  cases hc

theorem fromString6_end {doubledots : Option Nat} (hruns : ∀ run ∈ runs, IsGroup run)
    (hlast : IsLast last) (hdots : dots + runs.length ≤ 7) :
    fromString6 false (colons runs ++ last) 0 dots doubledots a =
      finish6 (runValue 0 last) (dots + runs.length) doubledots
        (a.store dots (runs.map (runValue 0))) := by
  have hend := @fromString6_run 0 (dots + runs.length) doubledots
    (a.store dots (runs.map (runValue 0))) last [] hlast.alnum (Nat.zero_le _)
  rw [append_nil, if_pos hlast.le, fromString6] at hend
  rw [fromString6_colons hruns hlast.head? hdots, hend]

/-- **Groups up to the eighth.** -/
theorem fromString6_last {groups rest : List UInt16} (hruns : ∀ run ∈ runs, IsGroup run)
    (hlast : IsLast last) (hraw : a.raw = groups ++ rest) (hgroups : groups.length = dots)
    (hdots : dots + runs.length = 7) :
    IsRead a (groups ++ (runs.map (runValue 0) ++ [runValue 0 last]).map UInt16.ofNat)
      (fromString6 false (colons runs ++ last) 0 dots none a) := by
  have hsize := a.size
  rw [hraw, length_append] at hsize
  have hlen : (runs.map (runValue 0)).length = runs.length := length_map _
  obtain ⟨r, hr⟩ : ∃ r, rest.drop (runs.map (runValue 0)).length = [r] := by
    rw [← length_eq_one_iff, length_drop]
    omega
  have hstore := store_raw hraw hgroups (show (runs.map (runValue 0)).length ≤ _ by omega)
  rw [hr] at hstore
  rw [fromString6_end hruns hlast (by omega), hdots]
  have hread := finish6_none (a.store dots (runs.map (runValue 0))) (runValue 0 last) r hstore
  rw [map_append, ← append_assoc]
  exact ⟨hread.ok, hread.type, hread.raw, hread.zone.trans (store_zone _ _ _)⟩

/-- **Groups behind a `::`.** -/
theorem fromString6_behind {groups moved rest : List UInt16} (hruns : ∀ run ∈ runs, IsGroup run)
    (hlast : IsLast last) (hraw : a.raw = groups ++ moved ++ rest) (hgroups : groups.length = i)
    (hmoved : groups.length + moved.length = dots) (hdots : dots + runs.length ≤ 7) :
    IsRead a (groups ++ List.replicate (7 - (dots + runs.length)) 0 ++
        (moved ++ (runs.map (runValue 0) ++ [runValue 0 last]).map UInt16.ofNat))
      (fromString6 false (colons runs ++ last) 0 dots (some i) a) := by
  have hsize := a.size
  rw [hraw, length_append, length_append] at hsize
  have hlen : (runs.map (runValue 0)).length = runs.length := length_map _
  have hstore := store_raw hraw (by rw [length_append, hmoved])
    (show (runs.map (runValue 0)).length ≤ _ by omega)
  rw [append_assoc groups] at hstore
  rw [fromString6_end hruns hlast hdots]
  have hread := finish6_some (a.store dots (runs.map (runValue 0))) (runValue 0 last) hstore hgroups
    (show _ = dots + runs.length by
      rw [length_append, length_map, length_map]
      omega) (by omega)
  rw [map_append, ← append_assoc moved]
  exact ⟨hread.ok, hread.type, hread.raw, hread.zone.trans (store_zone _ _ _)⟩

/-! ## A text with a `::` -/

theorem zeros_append (m n : Nat) (back : List UInt16) :
    List.replicate m 0 ++ (List.replicate n 0 ++ back) = List.replicate (m + n) 0 ++ back := by
  rw [← append_assoc, replicate_append_replicate]

def values (runs : List (List UInt8)) : List UInt16 := (runs.map (runValue 0)).map UInt16.ofNat

theorem values_length (runs : List (List UInt8)) : (values runs).length = runs.length := by
  simp [values]

theorem values_concat (runs : List (List UInt8)) (last : List UInt8) :
    values (runs ++ [last]) = values runs ++ [UInt16.ofNat (runValue 0 last)] := by
  simp [values]

theorem nil_or_concat (runs : List (List UInt8)) :
    runs = [] ∨ ∃ init last, runs = init ++ [last] := by
  rcases eq_nil_or_concat runs with hnil | ⟨init, last, hconcat⟩
  · exact Or.inl hnil
  · exact Or.inr ⟨init, last, by rw [hconcat, concat_eq_append]⟩

theorem fromString6_back {groups rest : List UInt16} {p : Nat}
    (hback : ∀ run ∈ back, IsGroup run)
    (hraw : a.raw = groups ++ List.replicate p 0 ++ rest) (hgroups : groups.length = i)
    (hdots : i + p + back.length ≤ 8) (hpos : i + p ≤ 7) :
    IsRead a (groups ++ List.replicate (8 - i - back.length) 0 ++ values back)
      (fromString6 false (join back) 0 (i + p) (some i) a) := by
  have hmoved : groups.length + (replicate p (0 : UInt16)).length = i + p := by
    rw [length_replicate, hgroups]
  obtain rfl | ⟨init, last, rfl⟩ := nil_or_concat back
  · have hread := @fromString6_behind a [] [] (i + p) i groups (replicate p 0) rest
      (fun _ h => nomatch h) isLast_nil hraw hgroups hmoved hpos
    refine ⟨hread.ok, hread.type, hread.raw.trans ?_, hread.zone⟩
    have hlast : [UInt16.ofNat (runValue 0 [])] = replicate 1 0 ++ [] := rfl
    simp only [map_nil, nil_append, length_nil, map_cons, Nat.add_zero,
      Nat.sub_zero, values, append_assoc]
    rw [hlast, zeros_append, zeros_append]
    have hcount : 7 - (i + p) + p + 1 = 8 - i := by omega
    rw [hcount]
  · rw [length_append, length_singleton] at hdots ⊢
    have hlast := hback last (mem_append_right _ mem_cons_self)
    have hread := @fromString6_behind a init last (i + p) i groups (replicate p 0) rest
      (fun r hr => hback r (mem_append_left _ hr)) hlast.isLast hraw hgroups hmoved (by omega)
    rw [join_concat]
    refine ⟨hread.ok, hread.type, hread.raw.trans ?_, hread.zone⟩
    have hcount : 7 - (i + p + init.length) + p = 8 - i - (init.length + 1) := by omega
    rw [append_assoc groups, zeros_append, hcount, map_append, values_concat,
      append_assoc groups]
    rfl

theorem setGroup_store (a : IPAddress) (runs : List (List UInt8)) (last : List UInt8) :
    (a.store 0 (runs.map (runValue 0))).setGroup (0 + runs.length) (runValue 0 last) =
      a.store 0 ((runs ++ [last]).map (runValue 0)) := by
  rw [map_append, map_cons, map_nil, store_concat, length_map]

/-- **A text with a `::`**: the groups of both sides, and zeros between them. -/
theorem fromString6_compressed (hfront : ∀ run ∈ front, IsGroup run)
    (hback : ∀ run ∈ back, IsGroup run) (hlen : front.length + back.length ≤ 7) :
    IsRead a (values front ++ List.replicate (8 - front.length - back.length) 0 ++ values back)
      (fromString6 false (join front ++ 58 :: 58 :: join back) 0 0 none a) := by
  obtain rfl | ⟨init, last, rfl⟩ := nil_or_concat front
  · -- The `::` stores a zero of its own.
    obtain ⟨r, rest, hr⟩ := exists_cons_of_ne_nil (show a.raw ≠ [] by
      intro hnil
      have hsize := a.size
      rw [hnil] at hsize
      cases hsize)
    have hraw : (a.setGroup 0 0).raw = [] ++ replicate 1 0 ++ rest := by
      show a.raw.set 0 (UInt16.ofNat 0) = _
      rw [hr]
      rfl
    simp only [length_nil, Nat.zero_add, Nat.sub_zero] at hlen ⊢
    have hread := @fromString6_back (a.setGroup 0 0) back 0 [] rest 1 hback hraw rfl (by omega)
      (by decide)
    show IsRead a _ (fromString6 false (58 :: 58 :: join back) 0 0 none a)
    rw [fromString6_double (by decide)]
    exact ⟨hread.ok, hread.type, hread.raw, hread.zone⟩
  · have hlast := hfront last (mem_append_right _ mem_cons_self)
    have hinit : ∀ run ∈ init, IsGroup run := fun r hr => hfront r (mem_append_left _ hr)
    have hsize := a.size
    rw [length_append, length_singleton] at hlen ⊢
    have hstore : (a.store 0 ((init ++ [last]).map (runValue 0))).raw =
        values (init ++ [last]) ++ a.raw.drop (init.length + 1) := by
      have hraw := @store_raw a [] a.raw 0 ((init ++ [last]).map (runValue 0)) rfl rfl
        (by simp; omega)
      rw [hraw, nil_append, length_map, length_append, length_singleton]
      rfl
    have htext : join (init ++ [last]) ++ 58 :: 58 :: join back =
        colons init ++ (last ++ 58 :: 58 :: join back) := by
      rw [join_concat, append_assoc]
    rw [htext, fromString6_colons hinit hlast.head? (by omega), fromString6_group hlast,
      fromString6_double (by omega), setGroup_store]
    rw [values_concat, append_assoc] at hstore
    have hzone := store_zone a 0 ((init ++ [last]).map (runValue 0))
    by_cases hzero : runValue 0 last = 0
    · -- The last group in front counts among the zeros.
      have hraw : (a.store 0 ((init ++ [last]).map (runValue 0))).raw =
          values init ++ replicate 1 0 ++ a.raw.drop (init.length + 1) := by
        rw [hstore, hzero, append_assoc]
        rfl
      have hread := fromString6_back hback hraw (values_length init) (by omega) (by omega)
      rw [if_pos hzero]
      simp only [Nat.zero_add, Nat.add_zero]
      refine ⟨hread.ok, hread.type, hread.raw.trans ?_, hread.zone.trans hzone⟩
      have hlast0 : [UInt16.ofNat (runValue 0 last)] = replicate 1 0 := by
        rw [hzero]
        rfl
      have hcount : 8 - init.length - back.length = 1 + (8 - (init.length + 1) - back.length) := by
        omega
      rw [values_concat, hlast0, hcount, append_assoc, ← zeros_append]
      simp only [append_assoc]
    · have hraw : (a.store 0 ((init ++ [last]).map (runValue 0))).raw =
          values (init ++ [last]) ++ replicate 0 0 ++ a.raw.drop (init.length + 1) := by
        rw [hstore, values_concat, append_assoc, append_assoc]
        rfl
      have hread := fromString6_back hback hraw (values_length _)
        (by rw [length_append, length_singleton]; omega)
        (by rw [length_append, length_singleton]; omega)
      rw [length_append, length_singleton] at hread
      rw [if_neg hzero]
      simp only [Nat.zero_add, Nat.add_zero] at hread ⊢
      exact ⟨hread.ok, hread.type, hread.raw, hread.zone.trans hzone⟩

end

end IPAddress

end Net
