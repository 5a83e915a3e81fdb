import RalioFirmware.Http.ArgsBounds

/-!
# The pieces of a query

`_parseArguments` splits its text at `&` and `;` and each piece at its first
`=`.  It looks for all three from the same place on, so the next `=` may lie
behind the next separator.  An argument is stored for every piece with a key,
with or without a `=` behind it; a piece that begins with its `=` is passed
over when it is the last one, and holds the loop up when it is not.
-/

namespace Http

open CString List

/-! ## Pieces and pairs -/

/-- The pieces of a text between its separators.  Behind a NUL none is found. -/
def pieces : Text → List Text
  | [] => [[]]
  | b :: t =>
    if b = 0 then [b :: t]
    else if isSeparator b then [] :: pieces t
    else match pieces t with
      | [] => [[b]]
      | p :: ps => (b :: p) :: ps

/-- A piece with a key: it neither is empty nor begins with its `=`. -/
def hasKey : Text → Bool
  | [] => false
  | b :: _ => b ≠ 61

/-- The key and the value of a piece, up to its first `=` and behind it. -/
def pair (piece : Text) : RequestArgument :=
  match strchr 61 piece with
  | none => ⟨urlDecode piece, []⟩
  | some e => ⟨urlDecode (piece.take e), urlDecode (piece.drop (e + 1))⟩

def pairs (data : Text) : List RequestArgument := ((pieces data).filter hasKey).map pair

/-- A piece that is not the last one begins with its `=`. -/
def HoldsUp (data : Text) : Prop := ∃ p ∈ (pieces data).dropLast, p.head? = some 61

def separatorAt : Text → Option Nat
  | [] => none
  | b :: t =>
    if b = 0 then none else if isSeparator b then some 0 else (separatorAt t).map (· + 1)

def firstPiece (t : Text) : Text :=
  match separatorAt t with
  | none => t
  | some n => t.take n

variable {t : Text} {n : Nat}

theorem separatorAt_lt (hn : separatorAt t = some n) : n < t.length := by
  induction t generalizing n with
  | nil => cases hn
  | cons b t ih =>
    rw [separatorAt] at hn
    split at hn
    · cases hn
    · split at hn
      · obtain rfl := Option.some.inj hn
        exact Nat.succ_pos _
      · obtain ⟨m, hm, rfl⟩ := Option.map_eq_some_iff.mp hn
        exact Nat.succ_lt_succ (ih hm)

theorem pieces_ne_nil (t : Text) : pieces t ≠ [] := by
  cases t with
  | nil => simp [pieces]
  | cons b t =>
    rw [pieces]
    split
    · simp
    · split
      · simp
      · split <;> simp

theorem separator_ne_zero {b : UInt8} (hb : isSeparator b = true) : b ≠ 0 := by
  rintro rfl
  exact absurd hb (by decide)

theorem pieces_cut (t : Text) :
    (separatorAt t = none → pieces t = [t]) ∧
      ∀ n, separatorAt t = some n → pieces t = t.take n :: pieces (t.drop (n + 1)) := by
  induction t with
  | nil => exact ⟨fun _ => rfl, fun n h => by cases h⟩
  | cons b t ih =>
    rw [separatorAt, pieces]
    by_cases hzero : b = 0
    · grind
    rw [if_neg hzero, if_neg hzero]
    by_cases hsep : isSeparator b = true
    · rw [if_pos hsep, if_pos hsep]
      refine ⟨(fun h => by cases h), fun n h => ?_⟩
      obtain rfl := Option.some.inj h
      rfl
    rw [if_neg hsep, if_neg hsep]
    refine ⟨fun h => ?_, fun n h => ?_⟩
    · rw [ih.1 (Option.map_eq_none_iff.mp h)]
    · obtain ⟨m, hm, rfl⟩ := Option.map_eq_some_iff.mp h
      rw [ih.2 m hm]
      rfl

theorem pieces_skip (t : Text) :
    ∃ m, pieces t = List.replicate m [] ++ pieces (t.dropWhile isSeparator) := by
  induction t with
  | nil => exact ⟨0, rfl⟩
  | cons b t ih =>
    by_cases hsep : isSeparator b = true
    · obtain ⟨m, hm⟩ := ih
      refine ⟨m + 1, ?_⟩
      rw [pieces, if_neg (separator_ne_zero hsep), if_pos hsep, hm,
        dropWhile_cons_of_pos hsep]
      rfl
    · exact ⟨0, by rw [dropWhile_cons_of_neg hsep]; rfl⟩

theorem pairs_skip (t : Text) : pairs (t.dropWhile isSeparator) = pairs t := by
  obtain ⟨m, hm⟩ := pieces_skip t
  have hnone : (replicate m ([] : Text)).filter hasKey = [] :=
    filter_eq_nil_iff.mpr fun p hp => by
      rw [eq_of_mem_replicate hp]
      decide
  rw [pairs, pairs, hm, filter_append, hnone, nil_append]

theorem holdsUp_skip (t : Text) : HoldsUp (t.dropWhile isSeparator) ↔ HoldsUp t := by
  obtain ⟨m, hm⟩ := pieces_skip t
  rw [HoldsUp, HoldsUp, hm, dropLast_append_of_ne_nil (pieces_ne_nil _)]
  constructor
  · grind
  · grind

theorem pairs_cut (hn : separatorAt t = some n) :
    pairs t = (if hasKey (firstPiece t) then [pair (firstPiece t)] else []) ++
      pairs (t.drop (n + 1)) := by
  rw [pairs, (pieces_cut t).2 n hn, firstPiece, hn, filter_cons]
  split <;> rfl

theorem pairs_last (hn : separatorAt t = none) :
    pairs t = if hasKey (firstPiece t) then [pair (firstPiece t)] else [] := by
  rw [pairs, (pieces_cut t).1 hn, firstPiece, hn, filter_cons]
  split <;> rfl

theorem holdsUp_cut (hn : separatorAt t = some n) :
    HoldsUp t ↔ (firstPiece t).head? = some 61 ∨ HoldsUp (t.drop (n + 1)) := by
  rw [HoldsUp, (pieces_cut t).2 n hn, dropLast_cons_of_ne_nil (pieces_ne_nil _), firstPiece,
    hn, HoldsUp]
  simp only [mem_cons, exists_eq_or_imp]

theorem not_holdsUp_last (hn : separatorAt t = none) : ¬ HoldsUp t := by
  rw [HoldsUp, (pieces_cut t).1 hn]
  rintro ⟨p, hp, -⟩
  cases hp

/-! ## The searches -/

theorem separatorAt_eq (t : Text) : separatorAt t =
    match strchr 38 t, strchr 59 t with
    | none, b => b
    | some a, none => some a
    | some a, some b => some (min a b) := by
  induction t with
  | nil => rfl
  | cons b t ih =>
    rw [separatorAt, strchr, strchr]
    by_cases hzero : b = 0
    · subst hzero
      rfl
    by_cases hand : b = 38
    · subst hand
      cases strchr 59 t <;> simp [isSeparator]
    by_cases hsemi : b = 59
    · subst hsemi
      cases strchr 38 t <;> simp [isSeparator]
    rw [if_neg hzero, if_neg hand, if_neg hsemi, if_neg hzero, if_neg hzero,
      if_neg (by simp [isSeparator, hand, hsemi]), ih]
    cases strchr 38 t <;> cases strchr 59 t <;> simp [Nat.add_min_add_right]

theorem strchr_take {ch : UInt8} (hch : ch ≠ 0) (t : Text) (n : Nat) :
    strchr ch (t.take n) = (strchr ch t).filter (· < n) := by
  induction t generalizing n with
  | nil => simp [strchr, hch]
  | cons b t ih =>
    cases n with
    | zero =>
      rw [take_zero, strchr, if_neg hch, Option.filter_eq_none_iff.mpr]
      simp
    | succ n =>
      rw [take_succ_cons, strchr, strchr]
      by_cases hb : b = ch
      · grind
      by_cases hzero : b = 0
      · grind
      rw [if_neg hb, if_neg hzero, if_neg hb, if_neg hzero, ih]
      cases strchr ch t with
      | none => rfl
      | some i => by_cases hi : i < n <;> simp [Option.filter, hi]

theorem locate_separator (data : Text) (q : Nat) :
    (locate data q).next_index = indexAt q (separatorAt (data.drop q)) := by
  rw [separatorAt_eq]
  simp only [locate, indexOf_eq (show (38 : UInt8) ≠ 0 by decide),
    indexOf_eq (show (59 : UInt8) ≠ 0 by decide)]
  cases strchr 38 (data.drop q) with
  | none => rfl
  | some a =>
    cases strchr 59 (data.drop q) with
    | none => simp
    | some b =>
      by_cases hlt : b < a
      · simp [hlt, Nat.min_eq_right (Nat.le_of_lt hlt)]
      · simp [hlt, Nat.min_eq_left (Nat.not_lt.mp hlt)]

def keyLength (piece : Text) : Nat := (strchr 61 piece).getD piece.length

variable {q : Nat}

theorem locate_key (data : Text) (hq : q ≤ data.length) :
    (locate data q).key_end_pos = indexAt q (some (keyLength (firstPiece (data.drop q)))) := by
  have hlen : (data.length : Int) = indexAt q (some (data.drop q).length) := by
    rw [indexAt, length_drop]
    omega
  have hkey : (locate data q).key_end_pos =
      let next := (locate data q).next_index
      let e := data.indexOf 61 q
      let key := if e = -1 ∨ (e > next ∧ next ≠ -1) then next else e
      if key = -1 then (data.length : Int) else key := rfl
  rw [hkey, locate_separator, indexOf_eq (by decide), keyLength, firstPiece]
  dsimp only
  generalize data.drop q = t at hlen ⊢
  cases hs : separatorAt t with
  | none =>
    cases strchr 61 t with
    | none => simp [hlen]
    | some e => simp
  | some n =>
    have hn := separatorAt_lt hs
    simp only [strchr_take (show (61 : UInt8) ≠ 0 by decide), length_take]
    cases strchr 61 t with
    | none => simp [Nat.min_eq_left (Nat.le_of_lt hn)]
    | some e =>
      by_cases hlt : e < n
      · have hle : ¬ n < e := by omega
        simp [hlt, hle, Option.filter]
      · rcases Nat.eq_or_lt_of_not_lt hlt with rfl | hgt
        · simp [Option.filter, Nat.min_eq_left (Nat.le_of_lt hn)]
        · simp [hgt, hlt, Option.filter, Nat.min_eq_left (Nat.le_of_lt hn)]

theorem keyLength_pos (piece : Text) : 0 < keyLength piece ↔ hasKey piece = true := by
  cases piece with
  | nil => simp [keyLength, hasKey, strchr]
  | cons b t =>
    rw [keyLength, hasKey, strchr]
    by_cases hb : b = 61
    · simp [hb]
    · rw [if_neg hb]
      by_cases hzero : b = 0
      · simp [hzero]
      · rw [if_neg hzero]
        cases strchr 61 t <;> simp [hb]

theorem keyLength_le (piece : Text) : keyLength piece ≤ piece.length := by
  cases h : strchr 61 piece with
  | none => simp [keyLength, h]
  | some e => simpa [keyLength, h] using Nat.le_of_lt (strchr_lt (by decide) h)

theorem firstPiece_length_le (t : Text) : (firstPiece t).length ≤ t.length := by
  rw [firstPiece]
  split
  · exact Nat.le_refl _
  · exact length_take_le' _ _

theorem pair_key (piece : Text) : (pair piece).key = urlDecode (piece.take (keyLength piece)) := by
  rw [pair, keyLength]
  cases strchr 61 piece with
  | none => simp
  | some e => rfl

theorem pair_value (piece : Text) : (pair piece).value =
    match strchr 61 piece with
    | none => []
    | some e => urlDecode (piece.drop (e + 1)) := by
  rw [pair]
  cases strchr 61 piece <;> rfl

theorem locate_value (data : Text) (hlen : data.length < 4294967295)
    (hq : q ≤ data.length) :
    (storeArg data (locate data q) ⟨[], []⟩).value = (pair (firstPiece (data.drop q))).value := by
  have hequal : (locate data q).equal_index = indexAt q (strchr 61 (data.drop q)) :=
    indexOf_eq (by decide) data q
  have hend : data.length = q + (data.drop q).length := by
    rw [length_drop]
    omega
  rw [storeArg, locate_separator, hequal, pair_value, firstPiece]
  dsimp only
  cases hs : separatorAt (data.drop q) with
  | none =>
    cases he : strchr 61 (data.drop q) with
    | none => rfl
    | some e =>
      have hlt := strchr_lt (by decide) he
      have hlast : Text.unsigned (indexAt q none) = 4294967295 := rfl
      rw [if_pos ⟨indexAt_ne q e, .inr rfl⟩, indexAt_succ, unsigned_indexAt (by omega), hlast,
        substring_eq data (by omega), ← drop_drop,
        take_of_length_le (by rw [length_drop]; omega)]
  | some n =>
    have hn := separatorAt_lt hs
    dsimp only
    rw [strchr_take (by decide)]
    cases he : strchr 61 (data.drop q) with
    | none => rfl
    | some e =>
      have hfilter : Option.filter (fun i => decide (i < n)) (some e) =
          if e < n then some e else none := by simp [Option.filter]
      have hne : indexAt q (some n) ≠ -1 := indexAt_ne q n
      have hbefore : indexAt q (some e) < indexAt q (some n) - 1 ↔ e + 1 < n := by
        rw [indexAt, indexAt]
        omega
      by_cases hlt : e + 1 < n
      · rw [if_pos ⟨indexAt_ne q e, .inl (hbefore.mpr hlt)⟩,
          hfilter, if_pos (show e < n by omega), indexAt_succ,
          unsigned_indexAt (by omega), unsigned_indexAt (by omega),
          substring_eq data (by omega), ← drop_drop,
          show q + n - (q + (e + 1)) = n - (e + 1) by omega]
        dsimp only
        rw [drop_take]
      · rw [if_neg fun h => h.2.elim (fun h => hlt (hbefore.mp h)) hne]
        by_cases hlast : e + 1 = n
        · subst hlast
          rw [hfilter, if_pos (Nat.lt_succ_self e)]
          dsimp only
          rw [drop_eq_nil_of_le (length_take_le _ _)]
          rfl
        · rw [hfilter, if_neg (show ¬ e < n by omega)]

theorem locate_pair (data : Text) (hlen : data.length < 4294967295)
    (hq : q ≤ data.length) :
    storeArg data (locate data q) ⟨[], []⟩ = pair (firstPiece (data.drop q)) := by
  have hvalue := locate_value data hlen hq
  suffices hkey : (storeArg data (locate data q) ⟨[], []⟩).key =
      (pair (firstPiece (data.drop q))).key by
    generalize storeArg data (locate data q) ⟨[], []⟩ = a at hkey hvalue
    generalize pair (firstPiece (data.drop q)) = b at hkey hvalue
    cases a
    cases b
    cases hkey
    cases hvalue
    rfl
  have hpiece := firstPiece_length_le (data.drop q)
  have hkey := keyLength_le (firstPiece (data.drop q))
  rw [length_drop] at hpiece
  rw [pair_key, storeArg]
  dsimp only
  rw [locate_key data hq, unsigned_indexAt (by omega)]
  show urlDecode (data.substring q _) = _
  rw [substring_eq data (by omega), Nat.add_sub_cancel_left]
  generalize keyLength (firstPiece (data.drop q)) = k at hkey ⊢
  rw [firstPiece] at hkey ⊢
  split
  · rfl
  · grind

/-! ## The rounds -/

variable {pos : Nat}

theorem skipEmpty_drop (data : Text) (hpos : pos ≤ data.length)
    (hn : data.length ≤ n + pos) :
    skipEmpty data n pos ≤ data.length ∧
      data.drop (skipEmpty data n pos) = (data.drop pos).dropWhile isSeparator := by
  induction n generalizing pos with
  | zero =>
    obtain rfl : pos = data.length := by omega
    exact ⟨Nat.le_refl _, by simp [skipEmpty]⟩
  | succ n ih =>
    rw [skipEmpty]
    rcases Nat.lt_or_eq_of_le hpos with hlt | rfl
    · have hchar : data.charAt pos = data[pos] := by
        rw [Text.charAt, getD_eq_getElem?_getD, getElem?_eq_getElem hlt,
          Option.getD_some]
      rw [hchar, drop_eq_getElem_cons hlt]
      by_cases hsep : isSeparator data[pos] = true
      · rw [if_pos hsep, dropWhile_cons_of_pos hsep]
        split
        · exact ⟨hlt, by rw [drop_eq_nil_of_le (by assumption)]; rfl⟩
        · exact ih hlt (by omega)
      · rw [if_neg hsep, dropWhile_cons_of_neg hsep, drop_eq_getElem_cons hlt]
        exact ⟨hpos, rfl⟩
    · have hchar : data.charAt data.length = 0 := by simp [Text.charAt]
      rw [hchar, if_neg (by decide)]
      exact ⟨Nat.le_refl _, by simp⟩

theorem parseLoop_round {A : Type} (handler : Place → Nat → A → Except Halt A) (data : Text)
    (fuel : Nat) (hpos : pos ≤ data.length) (k : Nat) (as : A) :
    ∃ q ≤ data.length, data.drop q = (data.drop pos).dropWhile isSeparator ∧ pos ≤ q ∧
      parseLoop handler data (fuel + 1) pos k as =
        if hasKey (firstPiece (data.drop q)) then
          match handler (locate data q) k as with
          | .error e => .error e
          | .ok as =>
            match separatorAt (data.drop q) with
            | none => .ok (k + 1, as)
            | some n => parseLoop handler data fuel (q + n + 1) (k + 1) as
        else
          match separatorAt (data.drop q) with
          | none => .ok (k, as)
          | some _ => .error .loops := by
  obtain ⟨hq, hdrop⟩ := skipEmpty_drop data hpos (Nat.le_add_right _ _)
  refine ⟨_, hq, hdrop, le_skipEmpty _ _ _, ?_⟩
  rw [parseLoop_succ _ _ _ _ _ rfl]
  generalize skipEmpty data data.length pos = q at hq
  have hpos : ((locate data q).pos : Int) = indexAt q (some 0) := rfl
  rw [hpos, locate_key data hq, locate_separator]
  have hkey : indexAt q (some 0) < indexAt q (some (keyLength (firstPiece (data.drop q)))) ↔
      hasKey (firstPiece (data.drop q)) = true := by
    rw [indexAt_lt, keyLength_pos]
  by_cases h : hasKey (firstPiece (data.drop q)) = true
  · rw [if_pos (hkey.mpr h), if_pos h]
    cases handler (locate data q) k as with
    | error e => rfl
    | ok as =>
      cases separatorAt (data.drop q) with
      | none => rfl
      | some n => exact if_neg (indexAt_ne q n)
  · rw [if_neg (mt hkey.mp h), if_neg h]
    cases separatorAt (data.drop q) with
    | none => rfl
    | some n => exact if_neg (indexAt_ne q n)

theorem firstPiece_head {t : Text} {n : Nat} (hn : separatorAt (t.dropWhile isSeparator) = some n)
    (hkey : hasKey (firstPiece (t.dropWhile isSeparator)) = false) :
    (firstPiece (t.dropWhile isSeparator)).head? = some 61 := by
  have hhead : ∀ b ∈ (t.dropWhile isSeparator).head?, isSeparator b = false := by
    intro b hb
    have := head?_dropWhile_not isSeparator t
    rw [Option.mem_def.mp hb] at this
    simpa using this
  revert hhead hn hkey
  generalize t.dropWhile isSeparator = u
  intro hn hkey hhead
  cases u with
  | nil => cases hn
  | cons b u =>
    have hb := hhead b rfl
    rw [firstPiece, hn] at hkey ⊢
    cases n with
    | zero =>
      rw [separatorAt, hb] at hn
      split at hn <;> simp at hn
    | succ n => simpa [hasKey] using hkey

/-- The handler adds an argument behind those that are stored already, while
there is room. -/
def Stores {A : Type} (handler : Place → Nat → A → Except Halt A) (data : Text)
    (made : List RequestArgument → A) (room : Nat) : Prop :=
  ∀ (done : List RequestArgument) (q : Nat), done.length < room → q ≤ data.length →
    handler (locate data q) done.length (made done) =
      .ok (made (done ++ [pair (firstPiece (data.drop q))]))

/-- **The loop** stores the arguments of what is left of the text, or is held
up in it. -/
theorem parseLoop_run {A : Type} {handler : Place → Nat → A → Except Halt A} {data : Text}
    {made : List RequestArgument → A} {room : Nat} (hstores : Stores handler data made room)
    {fuel pos : Nat} (hpos : pos ≤ data.length) (hfuel : data.length < fuel + pos)
    {done : List RequestArgument} (hroom : done.length + (pairs (data.drop pos)).length ≤ room) :
    (¬ HoldsUp (data.drop pos) → parseLoop handler data fuel pos done.length (made done) =
      .ok (done.length + (pairs (data.drop pos)).length, made (done ++ pairs (data.drop pos)))) ∧
    (HoldsUp (data.drop pos) →
      parseLoop handler data fuel pos done.length (made done) = .error .loops) := by
  induction fuel generalizing pos done with
  | zero => omega
  | succ fuel ih =>
    obtain ⟨q, hq, hdrop, hle, hround⟩ :=
      parseLoop_round handler data fuel hpos done.length (made done)
    have hpairs := pairs_skip (data.drop pos)
    have hholds := holdsUp_skip (data.drop pos)
    have hhead := fun n hn hkey => @firstPiece_head (data.drop pos) n hn hkey
    rw [← hdrop] at hpairs hholds hhead
    rw [hround, ← hpairs, ← hholds]
    rw [← hpairs] at hroom
    cases hs : separatorAt (data.drop q) with
    | none =>
      refine ⟨fun _ => ?_, fun h => absurd h (not_holdsUp_last hs)⟩
      rw [pairs_last hs] at hroom ⊢
      by_cases hkey : hasKey (firstPiece (data.drop q)) = true
      · rw [if_pos hkey] at hroom ⊢
        rw [if_pos hkey, hstores done q hroom hq]
        rfl
      · grind
    | some n =>
      have hn := separatorAt_lt hs
      have hrest : data.drop (q + n + 1) = (data.drop q).drop (n + 1) := by
        rw [drop_drop, Nat.add_assoc]
      rw [length_drop] at hn
      rw [holdsUp_cut hs, ← hrest]
      rw [pairs_cut hs, ← hrest] at hroom ⊢
      by_cases hkey : hasKey (firstPiece (data.drop q)) = true
      · have hne : (firstPiece (data.drop q)).head? ≠ some 61 := by
          intro hhead
          obtain ⟨t, ht⟩ := head?_eq_some_iff.mp hhead
          rw [ht] at hkey
          exact absurd hkey (by simp [hasKey])
        rw [if_pos hkey] at hroom ⊢
        rw [length_append, length_singleton] at hroom
        rw [if_pos hkey, hstores done q (by omega) hq]
        have hnext := @ih (q + n + 1) (by omega) (by omega)
          (done ++ [pair (firstPiece (data.drop q))])
          (by rw [length_append, length_singleton]; omega)
        simp only [length_append, length_singleton, append_assoc,
          Nat.add_assoc, hne, false_or] at hnext ⊢
        exact hnext
      · rw [if_neg hkey]
        have hup := hhead n hs (by simpa using hkey)
        exact ⟨fun h => absurd (.inl hup) h, fun _ => rfl⟩

theorem stores_null (data : Text) (room : Nat) : Stores nullArgHandler data (fun _ => ()) room :=
  fun _ _ _ _ => rfl

/-- What the array holds once the arguments `done` are stored, of `n`. -/
def filled (n : Nat) (done : List RequestArgument) : Option (List RequestArgument) :=
  some (done ++ List.replicate (n + 1 - done.length) ⟨[], []⟩)

theorem stores_filled {data : Text} (hlen : data.length < 4294967295) (n : Nat) :
    Stores (storeArgHandler data) data (filled n) n := by
  intro done q hdone hq
  obtain ⟨m, hm⟩ : ∃ m, n + 1 - done.length = m + 1 := ⟨n - done.length, by omega⟩
  have hnext : n + 1 - (done ++ [pair (firstPiece (data.drop q))]).length = m := by grind
  rw [filled, filled, hnext, hm, replicate_succ, storeArgHandler,
    load_of_lt (by simp), getElem_append_right (Nat.le_refl _)]
  simp only [bind, Except.bind, Nat.sub_self, getElem_cons_zero, locate_pair data hlen hq]
  rw [store_of_lt (by simp), set_append_right _ _ (Nat.le_refl _), Nat.sub_self,
    set_cons_zero, append_assoc]
  rfl

/-- **The arguments of a text.**  Both passes find the arguments of the pieces
with a key; the second one stores them in their order. -/
theorem parseArguments_pairs (s : Server) {data : Text} (hlen : data.length ≤ 65535)
    (hup : ¬ HoldsUp data) :
    parseArgumentsPrivate nullArgHandler data () = .ok ((pairs data).length, ()) ∧
    parseArgumentsPrivate (storeArgHandler data) data (newArgs ((pairs data).length + 1)) =
      .ok ((pairs data).length, some (pairs data ++ [⟨[], []⟩])) ∧
    s.parseArguments data = .ok { s with
      currentArgs := some (pairs data ++ [⟨[], []⟩])
      currentArgCount := (pairs data).length } := by
  have hcount : parseArgumentsPrivate nullArgHandler data () = .ok ((pairs data).length, ()) := by
    have hrun := (@parseLoop_run _ _ data _ (pairs data).length (stores_null data _)
      (data.length + 1) 0 (Nat.zero_le _) (Nat.lt_succ_self _) [] (by simp)).1 hup
    simpa [parseArgumentsPrivate] using hrun
  have hfill : parseArgumentsPrivate (storeArgHandler data) data
      (newArgs ((pairs data).length + 1)) =
      .ok ((pairs data).length, some (pairs data ++ [⟨[], []⟩])) := by
    have hrun := (@parseLoop_run _ _ data _ _ (stores_filled (by omega) (pairs data).length)
      (data.length + 1) 0 (Nat.zero_le _) (Nat.lt_succ_self _) [] (by simp)).1 hup
    have hfilled : filled (pairs data).length (pairs data) =
        some (pairs data ++ [⟨[], []⟩]) := by simp [filled]
    have hnew : filled (pairs data).length [] = newArgs ((pairs data).length + 1) := rfl
    simpa [parseArgumentsPrivate, hfilled, hnew] using hrun
  refine ⟨hcount, hfill, ?_⟩
  rw [Server.parseArguments, hcount]
  simp only [bind, Except.bind, hfill, pure, Except.pure]

/-- A piece without `=`, one with a `=` in its value, and a keyless one at the
end. -/
theorem parseArguments_pairs_sample : ∃ s, Server.init.parseArguments (text "a&b=c=d;;=e") =
    .ok s ∧ s.currentArgs = some [⟨text "a", []⟩, ⟨text "b", text "c=d"⟩, ⟨[], []⟩] := by
  refine ⟨_, (parseArguments_pairs .init (by decide) ?_).2.2, by decide⟩
  rintro ⟨p, hp, hhead⟩
  have hpieces : (pieces (text "a&b=c=d;;=e")).dropLast = [text "a", text "b=c=d", []] := by decide
  rw [hpieces] at hp
  revert p
  decide

/-- A piece without `=` is stored as well. -/
theorem not_parseArguments_pairs : ¬ ∀ (s : Server) (data : Text), data.length ≤ 65535 →
    ∃ s', s.parseArguments data = .ok s' ∧ s'.currentArgs =
      some (((pieces data).filter fun p => p.contains 61).map pair ++ [⟨[], []⟩]) := by
  intro h
  obtain ⟨s', hparse, hargs⟩ := h .init (text "a") (by decide)
  obtain rfl := Except.ok.inj hparse
  exact absurd hargs (by decide)

end Http
