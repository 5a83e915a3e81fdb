import Mathlib.Data.List.Basic
import Mathlib.Data.List.TakeWhile

/-!
# Strings that end at a NUL

A C string is a pointer; here it is the memory from the pointer on.  The
functions of `<string.h>` look no further than the first NUL, so what they come
to depends on the bytes in front of it only.  The end of a memory that has no NUL
counts as one.
-/

namespace CString

open List

/-- The bytes in front of the first NUL. -/
def cstr (mem : List UInt8) : List UInt8 := mem.takeWhile fun b => b ≠ 0

def strlen (mem : List UInt8) : Nat := (cstr mem).length

def strcmp : List UInt8 → List UInt8 → Int
  | [], [] => 0
  | a :: _, [] => a.toNat
  | [], b :: _ => -(b.toNat : Int)
  | a :: as, b :: bs =>
    if a ≠ b then (a.toNat : Int) - b.toNat else if a = 0 then 0 else strcmp as bs

/-- `strchr`, as the offset of what it finds. -/
def strchr (ch : UInt8) : List UInt8 → Option Nat
  | [] => if ch = 0 then some 0 else none
  | b :: rest => if b = ch then some 0 else if b = 0 then none else (strchr ch rest).map (· + 1)

/-- `strstr`, as the offset of what it finds; the needle without its NUL. -/
def strstr (needle : List UInt8) : List UInt8 → Option Nat
  | [] => if needle = [] then some 0 else none
  | b :: rest =>
    if needle.isPrefixOf (cstr (b :: rest)) then some 0
    else if b = 0 then none
    else (strstr needle rest).map (· + 1)

def isspace (b : UInt8) : Bool := b = 32 || (9 ≤ b && b ≤ 13)

def isdigit (b : UInt8) : Bool := 48 ≤ b && b ≤ 57

def tolower (b : UInt8) : UInt8 := if 65 ≤ b ∧ b ≤ 90 then b + 32 else b

def toupper (b : UInt8) : UInt8 := if 97 ≤ b ∧ b ≤ 122 then b - 32 else b

/-- The number that leading digits stand for. -/
def magnitude (mem : List UInt8) : Nat :=
  (mem.takeWhile isdigit).foldl (fun n d => 10 * n + (d.toNat - 48)) 0

/-- `atol` for a `long` of 32 bits. -/
def atol (mem : List UInt8) : Int :=
  match mem.dropWhile isspace with
  | [] => 0
  | b :: rest =>
    if b = 45 then max (-(magnitude rest : Int)) (-2147483648)
    else if b = 43 then min (magnitude rest : Int) 2147483647
    else min (magnitude (b :: rest) : Int) 2147483647

/-- A loop `for (; *p; p++) *p = f(*p)`. -/
def mapCstr (f : UInt8 → UInt8) : List UInt8 → List UInt8
  | [] => []
  | b :: rest => if b = 0 then b :: rest else f b :: mapCstr f rest

/-! ## Up to the NUL -/

@[simp] theorem cstr_nil : cstr [] = [] := rfl

@[simp] theorem cstr_zero (rest : List UInt8) : cstr (0 :: rest) = [] := by simp [cstr]

variable {b : UInt8}

theorem cstr_cons (hb : b ≠ 0) (rest : List UInt8) :
    cstr (b :: rest) = b :: cstr rest := by simp [cstr, hb]

theorem zero_notMem_cstr (mem : List UInt8) : (0 : UInt8) ∉ cstr mem := by
  intro h
  have := mem_takeWhile_imp h
  simp at this

variable {mem : List UInt8}

theorem cstr_eq_self (h : (0 : UInt8) ∉ mem) : cstr mem = mem := by
  refine takeWhile_eq_self_iff.mpr fun b hb => ?_
  exact decide_eq_true fun hzero => h (hzero ▸ hb)

@[simp] theorem cstr_cstr (mem : List UInt8) : cstr (cstr mem) = cstr mem :=
  cstr_eq_self (zero_notMem_cstr mem)

theorem cstr_start (mem : List UInt8) : cstr mem <+: mem := List.takeWhile_prefix _

variable {n : Nat}

theorem cstr_of_terminated (h : mem[n]? = some 0) :
    cstr mem = cstr (mem.take n) := by
  induction mem generalizing n with
  | nil => simp at h
  | cons b rest ih =>
    cases n with
    | zero =>
      obtain rfl : b = 0 := by simpa using h
      simp
    | succ n =>
      rw [take_succ_cons]
      by_cases hb : b = 0
      · subst hb
        simp
      · rw [cstr_cons hb, cstr_cons hb, ih (by simpa using h)]

theorem cstr_length_le (h : mem[n]? = some 0) :
    (cstr mem).length ≤ n := by
  rw [cstr_of_terminated h]
  refine Nat.le_trans (cstr_start _).length_le ?_
  rw [length_take]
  exact Nat.min_le_left _ _

variable {front : List UInt8}

theorem cstr_append (h : (0 : UInt8) ∉ front) (back : List UInt8) :
    cstr (front ++ back) = front ++ cstr back := by
  refine takeWhile_append_of_pos fun b hb => ?_
  exact decide_eq_true fun hzero => h (hzero ▸ hb)

theorem take_cstr_append (front back : List UInt8) :
    (cstr (front ++ back)).take front.length = cstr front := by
  induction front with
  | nil => simp
  | cons b front ih =>
    by_cases hb : b = 0
    · subst hb
      simp
    · rw [cons_append, cstr_cons hb, cstr_cons hb, length_cons, take_succ_cons, ih]

variable {i : Nat}

theorem cstr_drop (h : i ≤ (cstr mem).length) :
    cstr (mem.drop i) = (cstr mem).drop i := by
  induction mem generalizing i with
  | nil => simp
  | cons b rest ih =>
    cases i with
    | zero => rfl
    | succ i =>
      by_cases hb : b = 0
      · subst hb
        simp at h
      · rw [cstr_cons hb] at h ⊢
        exact ih (Nat.le_of_succ_le_succ h)

theorem take_cstr (h : n ≤ (cstr mem).length) :
    mem.take n = (cstr mem).take n := by
  obtain ⟨rest, hrest⟩ := cstr_start mem
  conv_lhs => rw [← hrest]
  exact take_append_of_le_length h

theorem le_cstr_length (hn : n ≤ mem.length)
    (h : (0 : UInt8) ∉ mem.take n) : n ≤ (cstr mem).length := by
  induction mem generalizing n with
  | nil => simpa using hn
  | cons b rest ih =>
    cases n with
    | zero => exact Nat.zero_le _
    | succ n =>
      rw [take_succ_cons, mem_cons, not_or] at h
      rw [cstr_cons (Ne.symm h.1)]
      exact Nat.succ_le_succ (ih (Nat.le_of_succ_le_succ hn) h.2)

/-! ## Functions of the string -/

theorem strlen_cstr (mem : List UInt8) : strlen (cstr mem) = strlen mem := by
  unfold strlen
  rw [cstr_cstr]

theorem strcmp_cstr (as bs : List UInt8) : strcmp as bs = strcmp (cstr as) (cstr bs) := by
  induction as generalizing bs with
  | nil =>
    cases bs with
    | nil => rfl
    | cons b bs =>
      by_cases hb : b = 0
      · subst hb
        simp [strcmp]
      · rw [cstr_cons hb]
        simp [strcmp]
  | cons a as ih =>
    by_cases ha : a = 0
    · subst ha
      cases bs with
      | nil => simp [strcmp]
      | cons b bs =>
        by_cases hb : b = 0
        · subst hb
          simp [strcmp]
        · rw [cstr_cons hb]
          simp [strcmp, Ne.symm hb]
    · rw [cstr_cons ha]
      cases bs with
      | nil => simp [strcmp]
      | cons b bs =>
        by_cases hb : b = 0
        · subst hb
          simp [strcmp, ha]
        · rw [cstr_cons hb]
          simp only [strcmp, ih bs]

theorem strchr_cstr (ch : UInt8) (mem : List UInt8) : strchr ch mem = strchr ch (cstr mem) := by
  induction mem with
  | nil => rfl
  | cons b rest ih =>
    by_cases hb : b = 0
    · subst hb
      by_cases hch : ch = 0
      · subst hch
        simp [strchr]
      · simp [strchr, hch, Ne.symm hch]
    · rw [cstr_cons hb]
      simp only [strchr, if_neg hb, ih]

variable {ch : UInt8}

theorem strchr_lt (hch : ch ≠ 0)
    (h : strchr ch mem = some i) : i < mem.length := by
  induction mem generalizing i with
  | nil =>
    rw [strchr, if_neg hch] at h
    cases h
  | cons b rest ih =>
    rw [strchr] at h
    split at h
    · obtain rfl := Option.some.inj h
      exact Nat.succ_pos _
    · split at h
      · cases h
      · obtain ⟨j, hj, rfl⟩ := Option.map_eq_some_iff.mp h
        exact Nat.succ_lt_succ (ih hj)

/-- **What is found is the first one**, with no NUL in front of it. -/
theorem strchr_eq_some (hch : ch ≠ 0) :
    strchr ch mem = some i ↔
      ∃ front back, mem = front ++ ch :: back ∧ front.length = i ∧ ch ∉ front ∧ 0 ∉ front := by
  induction mem generalizing i with
  | nil => simp [strchr, hch]
  | cons b rest ih =>
    by_cases hb : b = ch
    · subst hb
      constructor
      · intro h
        simp only [strchr, ↓reduceIte, Option.some.injEq] at h
        exact ⟨[], rest, by simp, h, by simp, by simp⟩
      · rintro ⟨front, back, hmem, rfl, hfront, -⟩
        cases front with
        | nil => simp [strchr]
        | cons c front =>
          obtain rfl : b = c := (cons.inj hmem).1
          exact absurd mem_cons_self hfront
    · by_cases h0 : b = 0
      · subst h0
        have hne : ¬(0 : UInt8) = ch := hb
        simp only [strchr, if_neg hne, ↓reduceIte, reduceCtorEq, false_iff]
        rintro ⟨front, back, hmem, -, -, hzero⟩
        cases front with
        | nil => exact hne (cons.inj hmem).1
        | cons c front => exact hzero ((cons.inj hmem).1 ▸ mem_cons_self)
      · simp only [strchr, if_neg hb, if_neg h0, Option.map_eq_some_iff]
        constructor
        · rintro ⟨j, hj, rfl⟩
          obtain ⟨front, back, rfl, rfl, hfront, hzero⟩ := ih.mp hj
          exact ⟨b :: front, back, rfl, rfl, by simp [hfront, Ne.symm hb],
            by simp [hzero, Ne.symm h0]⟩
        · rintro ⟨front, back, hmem, rfl, hfront, hzero⟩
          cases front with
          | nil => exact absurd (cons.inj hmem).1 hb
          | cons c front =>
            obtain ⟨rfl, rfl⟩ := cons.inj hmem
            exact ⟨front.length, ih.mpr ⟨front, back, rfl, rfl,
              fun h => hfront (mem_cons_of_mem _ h),
              fun h => hzero (mem_cons_of_mem _ h)⟩, rfl⟩

theorem strchr_nul (hch : ch ≠ 0) (hfront : ch ∉ front)
    (back : List UInt8) : strchr ch (front ++ 0 :: back) = none := by
  induction front with
  | nil => simp [strchr, Ne.symm hch]
  | cons b front ih =>
    obtain ⟨hb, hfront⟩ := not_or.mp (mem_cons.not.mp hfront)
    rw [cons_append, strchr, if_neg (Ne.symm hb), ih hfront]
    split <;> rfl

theorem strstr_cstr (needle mem : List UInt8) : strstr needle mem = strstr needle (cstr mem) := by
  induction mem with
  | nil => rfl
  | cons b rest ih =>
    by_cases hb : b = 0
    · subst hb
      cases needle <;> simp [strstr]
    · rw [cstr_cons hb]
      have hcstr : cstr (b :: cstr rest) = b :: cstr rest := by rw [cstr_cons hb, cstr_cstr]
      simp only [strstr, if_neg hb, cstr_cons hb, cstr_cstr, ih]

variable {p : UInt8 → Bool}

theorem takeWhile_cstr (hp : p 0 = false) (mem : List UInt8) :
    (cstr mem).takeWhile p = mem.takeWhile p := by
  induction mem with
  | nil => rfl
  | cons b rest ih =>
    by_cases hb : b = 0
    · subst hb
      simp [hp]
    · rw [cstr_cons hb, takeWhile_cons, takeWhile_cons, ih]

theorem dropWhile_cstr (hp : p 0 = false) (mem : List UInt8) :
    (cstr mem).dropWhile p = cstr (mem.dropWhile p) := by
  induction mem with
  | nil => rfl
  | cons b rest ih =>
    by_cases hb : b = 0
    · subst hb
      simp [hp]
    · rw [cstr_cons hb, dropWhile_cons, dropWhile_cons, ih]
      split
      · rfl
      · rw [cstr_cons hb]

theorem magnitude_cstr (mem : List UInt8) : magnitude mem = magnitude (cstr mem) := by
  unfold magnitude
  rw [takeWhile_cstr rfl]

theorem atol_cstr (mem : List UInt8) : atol mem = atol (cstr mem) := by
  unfold atol
  rw [dropWhile_cstr rfl]
  cases mem.dropWhile isspace with
  | nil => rfl
  | cons b rest =>
    by_cases hb : b = 0
    · subst hb
      rfl
    · simp only [cstr_cons hb]
      rw [magnitude_cstr rest, magnitude_cstr (b :: rest), cstr_cons hb]

@[simp] theorem mapCstr_length (f : UInt8 → UInt8) (mem : List UInt8) :
    (mapCstr f mem).length = mem.length := by
  induction mem with
  | nil => rfl
  | cons b rest ih =>
    rw [mapCstr]
    split
    · rfl
    · rw [length_cons, length_cons, ih]

theorem mapCstr_nul {f : UInt8 → UInt8} (h : mem[n]? = some 0) :
    (mapCstr f mem)[n]? = some 0 := by
  induction mem generalizing n with
  | nil => simp at h
  | cons b rest ih =>
    rw [mapCstr]
    split
    · exact h
    · rename_i hb
      cases n with
      | zero => exact absurd (by simpa using h) hb
      | succ n => exact ih h

theorem strcmp_eq_zero {s t : List UInt8} (hzero : (0 : UInt8) ∉ s ∨ (0 : UInt8) ∉ t)
    (hlen : s.length = t.length) (h : strcmp s t = 0) : s = t := by
  induction s generalizing t with
  | nil => exact (length_eq_zero_iff.mp hlen.symm).symm
  | cons a s ih =>
    cases t with
    | nil => simp at hlen
    | cons b t =>
      rw [mem_cons, mem_cons, not_or, not_or] at hzero
      rw [strcmp] at h
      by_cases hab : a = b
      · have ha : a ≠ 0 := by grind
        rw [if_neg (by simp [hab]), if_neg ha] at h
        rw [hab, ih (hzero.imp And.right And.right) (by simpa using hlen) h]
      · rw [if_pos hab] at h
        have : a.toNat ≠ b.toNat := fun h => hab (UInt8.toNat_inj.mp h)
        omega

theorem strcmp_self (s : List UInt8) : strcmp s s = 0 := by
  induction s with
  | nil => rfl
  | cons a s ih =>
    rw [strcmp, if_neg (by simp)]
    split
    · rfl
    · exact ih

theorem strcmp_eq_zero_iff (s t : List UInt8) : strcmp s t = 0 ↔ cstr s = cstr t := by
  induction s generalizing t with
  | nil =>
    cases t with
    | nil => simp [strcmp]
    | cons b t =>
      by_cases hb : b = 0
      · subst hb
        simp [strcmp]
      · have hne : b.toNat ≠ 0 := fun h => hb (UInt8.toNat_inj.mp h)
        rw [strcmp, cstr_cons hb]
        simp [hne]
  | cons a s ih =>
    cases t with
    | nil =>
      by_cases ha : a = 0
      · subst ha
        simp [strcmp]
      · have hne : a.toNat ≠ 0 := fun h => ha (UInt8.toNat_inj.mp h)
        rw [strcmp, cstr_cons ha]
        simp [hne]
    | cons b t =>
      rw [strcmp]
      by_cases hab : a = b
      · subst hab
        rw [if_neg (not_not.mpr rfl)]
        by_cases ha : a = 0
        · subst ha
          simp
        · rw [if_neg ha, ih, cstr_cons ha, cstr_cons ha, cons.injEq, and_iff_right rfl]
      · have hne : a.toNat ≠ b.toNat := fun h => hab (UInt8.toNat_inj.mp h)
        rw [if_pos hab]
        refine iff_of_false (by omega) fun heq => ?_
        by_cases ha : a = 0
        · subst ha
          rw [cstr_zero, cstr_cons (Ne.symm hab)] at heq
          cases heq
        · by_cases hb : b = 0
          · subst hb
            rw [cstr_zero, cstr_cons ha] at heq
            cases heq
          · rw [cstr_cons ha, cstr_cons hb] at heq
            exact hab (cons.inj heq).1

/-! ## Digits -/

variable {d : UInt8}

theorem isspace_digit (h : isdigit d = true) : isspace d = false := by
  simp only [isdigit, isspace, Bool.and_eq_true, decide_eq_true_eq, UInt8.le_iff_toNat_le] at h ⊢
  simp only [Bool.or_eq_false_iff, decide_eq_false_iff_not, Bool.and_eq_false_iff]
  refine ⟨fun hblank => ?_, .inr fun hle => ?_⟩
  · rw [hblank] at h
    exact absurd h.1 (by decide)
  · have hthirteen : (13 : UInt8).toNat = 13 := rfl
    have hdigit : (48 : UInt8).toNat = 48 := rfl
    omega

theorem digit_ne_sign (h : isdigit d = true) : d ≠ 45 ∧ d ≠ 43 := by
  constructor
  · rintro rfl
    exact absurd h (by decide)
  · rintro rfl
    exact absurd h (by decide)

theorem atol_cons (hb : isspace b = false) (rest : List UInt8) :
    atol (b :: rest) =
      if b = 45 then max (-(magnitude rest : Int)) (-2147483648)
      else if b = 43 then min (magnitude rest : Int) 2147483647
      else min (magnitude (b :: rest) : Int) 2147483647 := by
  rw [atol, dropWhile_cons_of_neg (by rw [hb]; decide)]

/-! ## What `strstr` finds -/

/-- A needle stands at a place of the string. -/
def Occurs (needle mem : List UInt8) (i : Nat) : Prop :=
  i ≤ (cstr mem).length ∧ needle <+: (cstr mem).drop i

variable {needle : List UInt8}

theorem Occurs.length_le (h : Occurs needle mem i) :
    i + needle.length ≤ (cstr mem).length := by
  have hlen := h.2.length_le
  rw [length_drop] at hlen
  have := h.1
  omega

theorem occurs_succ {rest : List UInt8} (hb : b ≠ 0) :
    Occurs needle (b :: rest) (i + 1) ↔ Occurs needle rest i := by
  unfold Occurs
  rw [cstr_cons hb, length_cons, drop_succ_cons, Nat.add_le_add_iff_right]

/-- **What is found is the first place of the needle.** -/
theorem strstr_some (h : strstr needle mem = some i) :
    Occurs needle mem i ∧ ∀ j < i, ¬ Occurs needle mem j := by
  induction mem generalizing i with
  | nil =>
    unfold strstr at h
    split at h
    · rename_i hneedle
      subst hneedle
      obtain rfl := Option.some.inj h
      exact ⟨⟨Nat.zero_le _, List.nil_prefix⟩, fun j hj => absurd hj (Nat.not_lt_zero _)⟩
    · cases h
  | cons b rest ih =>
    unfold strstr at h
    split at h
    · rename_i hprefix
      obtain rfl := Option.some.inj h
      exact ⟨⟨Nat.zero_le _, List.isPrefixOf_iff_prefix.mp hprefix⟩,
        fun j hj => absurd hj (Nat.not_lt_zero _)⟩
    · rename_i hprefix
      split at h
      · cases h
      · rename_i hb
        obtain ⟨k, hk, rfl⟩ := Option.map_eq_some_iff.mp h
        obtain ⟨hoccurs, hfirst⟩ := ih hk
        refine ⟨(occurs_succ hb).mpr hoccurs, ?_⟩
        intro j hj hj'
        cases j with
        | zero => exact hprefix (List.isPrefixOf_iff_prefix.mpr hj'.2)
        | succ j => exact hfirst j (Nat.lt_of_succ_lt_succ hj) ((occurs_succ hb).mp hj')

theorem strstr_none (h : strstr needle mem = none) (j : Nat) :
    ¬ Occurs needle mem j := by
  induction mem generalizing j with
  | nil =>
    unfold strstr at h
    split at h
    · cases h
    · rename_i hneedle
      rintro ⟨-, hprefix⟩
      rw [cstr_nil, drop_nil] at hprefix
      exact hneedle (prefix_nil.mp hprefix)
  | cons b rest ih =>
    unfold strstr at h
    split at h
    · cases h
    · rename_i hprefix
      split at h
      · rename_i hb
        subst hb
        rintro ⟨hj, hneedle⟩
        rw [cstr_zero] at hj
        obtain rfl : j = 0 := Nat.le_zero.mp hj
        exact hprefix (List.isPrefixOf_iff_prefix.mpr hneedle)
      · rename_i hb
        intro hj
        cases j with
        | zero => exact hprefix (List.isPrefixOf_iff_prefix.mpr hj.2)
        | succ j =>
          exact ih (Option.map_eq_none_iff.mp h) j ((occurs_succ hb).mp hj)

theorem occurs_iff (hneedle : needle ≠ []) :
    Occurs needle mem i ↔
      (0 : UInt8) ∉ mem.take (i + needle.length) ∧ (mem.drop i).take needle.length = needle := by
  have hdrop : ∀ l : List UInt8,
      (l.take (i + needle.length)).drop i = (l.drop i).take needle.length := fun l => by
    rw [drop_take, Nat.add_sub_cancel_left]
  constructor
  · intro h
    have htake := take_cstr h.length_le
    refine ⟨fun hmem => ?_, ?_⟩
    · rw [htake] at hmem
      exact zero_notMem_cstr mem (mem_of_mem_take hmem)
    · rw [← hdrop, htake, hdrop]
      exact (prefix_iff_eq_take.mp h.2).symm
  · rintro ⟨hzero, hbytes⟩
    have hpos := length_pos_of_ne_nil hneedle
    have hlen := congrArg length hbytes
    rw [length_take, length_drop] at hlen
    have hle := le_cstr_length (show i + needle.length ≤ mem.length by omega) hzero
    refine ⟨by omega, prefix_iff_eq_take.mpr ?_⟩
    rw [← hdrop, ← take_cstr hle, hdrop, hbytes]

theorem Occurs.congr {mem' : List UInt8} (hneedle : needle ≠ [])
    (htake : mem.take (i + needle.length) = mem'.take (i + needle.length))
    (h : Occurs needle mem i) : Occurs needle mem' i := by
  obtain ⟨hzero, hbytes⟩ := (occurs_iff hneedle).mp h
  refine (occurs_iff hneedle).mpr ⟨htake ▸ hzero, ?_⟩
  have hdrop := congrArg (drop i) htake
  rw [drop_take, drop_take, Nat.add_sub_cancel_left] at hdrop
  rw [← hdrop, hbytes]

theorem strstr_self (mem : List UInt8) : strstr (cstr mem) mem = some 0 := by
  cases mem with
  | nil => rfl
  | cons b rest => rw [strstr, if_pos (List.isPrefixOf_iff_prefix.mpr (prefix_refl _))]

theorem strstr_nul (hneedle : needle ≠ []) (h : mem[0]? = some 0) :
    strstr needle mem = none := by
  cases mem with
  | nil => simp at h
  | cons b rest =>
    obtain rfl : b = 0 := by simpa using h
    rw [strstr, cstr_zero, if_neg, if_pos rfl]
    rw [List.isPrefixOf_iff_prefix, prefix_nil]
    exact hneedle

theorem occurs_drop {j : Nat} (h : i ≤ (cstr mem).length) :
    Occurs needle (mem.drop i) j ↔ Occurs needle mem (i + j) := by
  unfold Occurs
  rw [cstr_drop h, length_drop, drop_drop]
  constructor
  · rintro ⟨hj, hp⟩
    exact ⟨by omega, hp⟩
  · rintro ⟨hj, hp⟩
    exact ⟨by omega, hp⟩

end CString
