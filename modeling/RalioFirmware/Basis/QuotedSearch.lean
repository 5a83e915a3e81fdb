import RalioFirmware.Basis.CString

/-!
# Looking for a quoted name

A text is made of strings in quotation marks, with single separators between them.  A name is
looked for together with its quotation marks and the separator that makes it a name.  The search
goes over every other string, and over the separators, whatever stands behind them: `Skips` says
so of a piece of the text, and is closed under concatenation.
-/

namespace CString

open List

/-- Whatever stands behind a front, the needle is first found behind the front. -/
def Skips (needle front : List UInt8) : Prop :=
  ∀ rest, strstr needle (front ++ rest) = (strstr needle rest).map (· + front.length)

namespace Skips

variable {needle front front' : List UInt8}

theorem nil : Skips needle [] := by
  intro rest
  rw [nil_append]
  exact Option.map_id'.symm

theorem append (h : Skips needle front) (h' : Skips needle front') :
    Skips needle (front ++ front') := by
  intro rest
  rw [append_assoc, h, h', Option.map_map, length_append]
  congr 1
  funext i
  simp only [Function.comp_apply]
  omega

theorem cons_of_not_prefix {b : UInt8} (hb : b ≠ 0)
    (hmiss : ∀ rest, ¬ needle <+: b :: (front ++ rest)) (h : Skips needle front) :
    Skips needle (b :: front) := by
  intro rest
  have hprefix : ¬ needle.isPrefixOf (cstr (b :: (front ++ rest))) = true := by
    intro hp
    exact hmiss rest ((List.isPrefixOf_iff_prefix.mp hp).trans (cstr_start _))
  rw [cons_append, strstr, if_neg hprefix, if_neg hb, h rest, Option.map_map,
    length_cons]
  rfl

theorem of_notMem {q : UInt8} {needle : List UInt8} (hq : q ∉ front) (hzero : 0 ∉ front) :
    Skips (q :: needle) front := by
  induction front with
  | nil => exact nil
  | cons b front ih =>
    obtain ⟨hb, hq⟩ := not_or.mp (mem_cons.not.mp hq)
    obtain ⟨hb0, hzero⟩ := not_or.mp (mem_cons.not.mp hzero)
    refine cons_of_not_prefix (Ne.symm hb0) ?_ (ih hq hzero)
    intro rest hprefix
    exact hb (cons_prefix_cons.mp hprefix).1

end Skips

theorem strstr_here {needle : List UInt8} (hne : needle ≠ []) (hzero : 0 ∉ needle)
    (back : List UInt8) : strstr needle (needle ++ back) = some 0 := by
  obtain ⟨b, needle, rfl⟩ := exists_cons_of_ne_nil hne
  rw [cons_append, strstr, if_pos]
  rw [← cons_append, cstr_append hzero, List.isPrefixOf_iff_prefix]
  exact prefix_append _ _

/-! ## Quotation marks -/

/-- A string can be quoted: it has neither the quotation mark nor a NUL. -/
structure Plain (q : UInt8) (s : List UInt8) : Prop where
  quote_notMem : q ∉ s
  zero_notMem : 0 ∉ s

instance (q : UInt8) (s : List UInt8) : Decidable (Plain q s) :=
  decidable_of_iff (q ∉ s ∧ 0 ∉ s) ⟨fun h => ⟨h.1, h.2⟩, fun h => ⟨h.1, h.2⟩⟩

/-- The name that is looked for, with its quotation marks and its separator. -/
def quotedKey (q mark : UInt8) (name : List UInt8) : List UInt8 := q :: (name ++ [q, mark])

/-- A quoted string and the separator behind it. -/
def quotedItem (q : UInt8) (s : List UInt8) (separator : UInt8) : List UInt8 :=
  q :: (s ++ [q, separator])

section

variable {q mark separator : UInt8} {name s : List UInt8}

theorem eq_of_prefix_quote {t : List UInt8} (hname : q ∉ name) (hs : q ∉ s)
    (h : name ++ [q, mark] <+: s ++ q :: t) : name = s ∧ [mark] <+: t := by
  induction name generalizing s with
  | nil =>
    cases s with
    | nil => exact ⟨rfl, (cons_prefix_cons.mp h).2⟩
    | cons a s =>
      have hqa := (cons_prefix_cons.mp h).1
      exact absurd (hqa ▸ mem_cons_self) hs
  | cons c name ih =>
    cases s with
    | nil =>
      have hcq := (cons_prefix_cons.mp h).1
      exact absurd (hcq ▸ mem_cons_self) hname
    | cons a s =>
      obtain ⟨rfl, htail⟩ := cons_prefix_cons.mp h
      obtain ⟨rfl, hmark⟩ := ih (fun hc => hname (mem_cons_of_mem _ hc))
        (fun hc => hs (mem_cons_of_mem _ hc)) htail
      exact ⟨rfl, hmark⟩

/-- **The search goes over a quoted string** that is another one than the name, or is followed
by another separator.  The name must not start like the separator. -/
theorem skips_quotedItem (hq : q ≠ 0) (hname : q ∉ name) (hs : Plain q s)
    (hsep : separator ≠ 0) (hsepq : separator ≠ q) (hne : name ≠ [])
    (hhead : name.head? ≠ some separator) (hother : s ≠ name ∨ separator ≠ mark) :
    Skips (quotedKey q mark name) (quotedItem q s separator) := by
  obtain ⟨c, name, rfl⟩ := exists_cons_of_ne_nil hne
  have hlast : Skips (quotedKey q mark (c :: name)) [separator] := by
    refine Skips.of_notMem ?_ ?_
    · exact fun h => hsepq (mem_singleton.mp h).symm
    · exact fun h => hsep (mem_singleton.mp h).symm
  have hclose : Skips (quotedKey q mark (c :: name)) [q, separator] := by
    refine Skips.cons_of_not_prefix hq ?_ hlast
    intro rest hprefix
    have htail := (cons_prefix_cons.mp hprefix).2
    exact hhead (congrArg some (cons_prefix_cons.mp htail).1)
  refine Skips.cons_of_not_prefix hq ?_
    ((Skips.of_notMem hs.quote_notMem hs.zero_notMem).append hclose)
  intro rest hprefix
  have htail := (cons_prefix_cons.mp hprefix).2
  rw [append_assoc] at htail
  obtain ⟨heq, hmark⟩ := eq_of_prefix_quote hname hs.quote_notMem htail
  rcases hother with hdiff | hdiff
  · exact hdiff heq.symm
  · exact hdiff (cons_prefix_cons.mp hmark).1.symm

end

end CString
