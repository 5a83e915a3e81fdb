import RalioFirmware.Net.IPAddress

/-!
# Dotted quads

`fromString4` reads a text by its runs of digits, with a dot between each two.  A number that is
printed is a run that comes to it.
-/

namespace Net

open CString List

namespace IPAddress

/-! ## Runs of digits -/

/-- The number that a run of digits comes to, from another one on. -/
def decValue (acc : Nat) (run : List UInt8) : Nat :=
  run.foldl (fun acc c => acc * 10 + (c.toNat - 48)) acc

theorem le_decValue (acc : Nat) (run : List UInt8) : acc ≤ decValue acc run := by
  induction run generalizing acc with
  | nil => exact Nat.le_refl acc
  | cons c run ih =>
    have hstep : acc ≤ acc * 10 + (c.toNat - 48) := by omega
    exact Nat.le_trans hstep (ih _)

theorem isdigit_dot : isdigit 46 = false := by decide

section

variable {acc dots : Nat} {a : IPAddress} {run rest address : List UInt8}

/-- **A run of digits is read** as one number, or is too large. -/
theorem fromString4_run (hrun : ∀ c ∈ run, isdigit c = true) (hacc : acc ≤ 255) :
    fromString4 (run ++ rest) acc dots a =
      if decValue acc run ≤ 255 then fromString4 rest (decValue acc run) dots a
      else (false, a) := by
  induction run generalizing acc with
  | nil =>
    show fromString4 rest acc dots a = if acc ≤ 255 then _ else _
    rw [if_pos hacc]
    rfl
  | cons c run ih =>
    have hc := hrun c mem_cons_self
    have hbyte := c.toNat_lt
    have hmod : (acc * 10 + (c.toNat - 48)) % 65536 = acc * 10 + (c.toNat - 48) :=
      Nat.mod_eq_of_lt (by omega)
    have hmono := le_decValue (acc * 10 + (c.toNat - 48)) run
    have hvalue : decValue acc (c :: run) = decValue (acc * 10 + (c.toNat - 48)) run := rfl
    rw [cons_append, fromString4, if_pos hc, hvalue]
    simp only [hmod]
    by_cases hlarge : acc * 10 + (c.toNat - 48) > 255
    · rw [if_pos hlarge, if_neg (by omega)]
    · rw [if_neg hlarge]
      exact ih (fun b hb => hrun b (mem_cons_of_mem c hb)) (by omega)

theorem fromString4_dot (hdots : dots ≠ 3) :
    fromString4 (46 :: rest) acc dots a = fromString4 rest 0 (dots + 1) (a.setOctet dots acc) := by
  rw [fromString4, isdigit_dot]
  simp only [Bool.false_eq_true, if_false, if_true, hdots]

theorem fromString4_notMem (hdot : 46 ∉ address) (hdots : dots ≠ 3) :
    fromString4 address acc dots a = (false, a) := by
  induction address generalizing acc with
  | nil => rw [fromString4, if_pos hdots]
  | cons c address ih =>
    have hc : c ≠ 46 := fun h => hdot (h ▸ mem_cons_self)
    have htail : 46 ∉ address := fun h => hdot (mem_cons_of_mem c h)
    rw [fromString4, if_neg hc]
    by_cases hdigit : isdigit c = true
    · rw [if_pos hdigit]
      dsimp only
      split
      · rfl
      · exact ih htail
    · rw [if_neg hdigit]

/-- An octet of a text: a run of digits that is not empty, for at most 255. -/
structure IsOctet (run : List UInt8) : Prop where
  ne_nil : run ≠ []
  digit : ∀ c ∈ run, isdigit c = true
  le : decValue 0 run ≤ 255

theorem fromString4_octet (h : IsOctet run) :
    fromString4 (run ++ rest) 0 dots a = fromString4 rest (decValue 0 run) dots a := by
  rw [fromString4_run h.digit (Nat.zero_le _), if_pos h.le]

end

def quad (o p q r : List UInt8) : List UInt8 := o ++ 46 :: (p ++ 46 :: (q ++ 46 :: r))

def setQuad (a : IPAddress) (o p q r : Nat) : IPAddress :=
  ((((a.setOctet 0 o).setOctet 1 p).setOctet 2 q).setOctet 3 r).setV4

/-- **A dotted quad is read.** -/
theorem fromString4_quad (a : IPAddress) {o p q r : List UInt8} (ho : IsOctet o) (hp : IsOctet p)
    (hq : IsOctet q) (hr : IsOctet r) :
    fromString4 (quad o p q r) 0 0 a =
      (true, a.setQuad (decValue 0 o) (decValue 0 p) (decValue 0 q) (decValue 0 r)) := by
  have hend := @fromString4_octet 3
    (((a.setOctet 0 (decValue 0 o)).setOctet 1 (decValue 0 p)).setOctet 2 (decValue 0 q)) r [] hr
  rw [append_nil] at hend
  rw [quad, fromString4_octet ho, fromString4_dot (by decide), fromString4_octet hp,
    fromString4_dot (by decide), fromString4_octet hq, fromString4_dot (by decide), hend]
  rfl

/-! ## The octets in the memory -/

theorem group_set (a : IPAddress) {i : Nat} (hi : i < 8) (j : Nat) (g : UInt16) :
    (a.raw.set i g).getD j 0 = if i = j then g else a.group j := by
  rw [getD_eq_getElem?_getD, getElem?_set, a.size, group, getD_eq_getElem?_getD]
  by_cases hij : i = j
  · rw [if_pos hij, if_pos hi, if_pos hij, Option.getD_some]
  · rw [if_neg hij, if_neg hij]

theorem octet_lt (a : IPAddress) (i : Nat) : a.octet i < 256 := by
  have hgroup := (a.group (i / 2)).toNat_lt
  unfold octet
  split <;> omega

theorem group_octets (a : IPAddress) (i : Nat) :
    UInt16.ofNat (a.octet (2 * i) * 256 + a.octet (2 * i + 1)) = a.group i := by
  have hlow : 2 * i / 2 = i := by omega
  have hhigh : (2 * i + 1) / 2 = i := by omega
  rw [octet, octet, if_pos (by omega), if_neg (by omega), hlow, hhigh, Nat.div_add_mod',
    UInt16.ofNat_toNat]

theorem group_setOctet (a : IPAddress) {i o p : Nat} (hi : i < 8) (ho : o < 256) (hp : p < 256)
    (j : Nat) :
    ((a.setOctet (2 * i) o).setOctet (2 * i + 1) p).group j =
      if i = j then UInt16.ofNat (o * 256 + p) else a.group j := by
  have hlow : 2 * i / 2 = i := by omega
  have hhigh : (2 * i + 1) / 2 = i := by omega
  have hfirst : ∀ j, (a.setOctet (2 * i) o).group j =
      if i = j then UInt16.ofNat (o * 256 + a.octet (2 * i + 1)) else a.group j := by
    intro j
    have hset := group_set a hi j (UInt16.ofNat (o % 256 * 256 + a.octet (i * 2 + 1)))
    rw [Nat.mod_eq_of_lt ho, Nat.mul_comm i 2] at hset
    show (a.raw.set (2 * i / 2) _).getD j 0 = _
    rw [if_pos (by omega), hlow, Nat.mod_eq_of_lt ho, Nat.mul_comm i 2]
    exact hset
  have hbyte := octet_lt a (2 * i + 1)
  have hkept : (a.setOctet (2 * i) o).octet (2 * i) = o := by
    have hsize : o * 256 + a.octet (2 * i + 1) < UInt16.size := by
      show _ < 65536
      omega
    rw [octet, if_pos (by omega), hlow, hfirst i, if_pos rfl, UInt16.toNat_ofNat_of_lt' hsize]
    omega
  have hset := group_set (a.setOctet (2 * i) o) hi j (UInt16.ofNat (o * 256 + p))
  show ((a.setOctet (2 * i) o).raw.set ((2 * i + 1) / 2) _).getD j 0 = _
  rw [if_neg (by omega), hhigh, Nat.mul_comm i 2, hkept, Nat.mod_eq_of_lt hp, hset, hfirst j]
  by_cases hij : i = j
  · rw [if_pos hij, if_pos hij]
  · rw [if_neg hij, if_neg hij, if_neg hij]

theorem group_setQuad (a : IPAddress) {o p q r : Nat} (ho : o < 256) (hp : p < 256)
    (hq : q < 256) (hr : r < 256) :
    (a.setQuad o p q r).group 0 = UInt16.ofNat (o * 256 + p) ∧
      (a.setQuad o p q r).group 1 = UInt16.ofNat (q * 256 + r) := by
  have hfirst := group_setOctet a (show 0 < 8 by decide) ho hp 0
  have hpair := group_setOctet ((a.setOctet 0 o).setOctet 1 p) (show 1 < 8 by decide) hq hr
  have hzero := hpair 0
  rw [if_neg (by decide)] at hzero
  rw [if_pos rfl] at hfirst
  exact ⟨hzero.trans hfirst, (hpair 1).trans (if_pos rfl)⟩

/-! ## Decimals that are printed -/

theorem isdigit_ofNat {d : Nat} (hd : d < 10) :
    isdigit (UInt8.ofNat (48 + d)) = true ∧ (UInt8.ofNat (48 + d)).toNat - 48 = d := by
  revert d
  decide

theorem decValue_digits {ds : List Nat} (hds : ∀ d ∈ ds, d < 10) :
    decValue 0 (ds.reverse.map fun d => UInt8.ofNat (48 + d)) = Nat.ofDigits 10 ds := by
  induction ds with
  | nil => rfl
  | cons d ds ih =>
    have hvalue := (isdigit_ofNat (hds d mem_cons_self)).2
    have happend : decValue 0 ((ds.reverse.map fun d => UInt8.ofNat (48 + d)) ++
        [UInt8.ofNat (48 + d)]) =
        decValue 0 (ds.reverse.map fun d => UInt8.ofNat (48 + d)) * 10 +
          ((UInt8.ofNat (48 + d)).toNat - 48) :=
      foldl_append
    rw [reverse_cons, map_append, map_cons, map_nil, happend, hvalue,
      ih fun e he => hds e (mem_cons_of_mem d he), Nat.ofDigits_cons]
    omega

/-- **A decimal that is printed** is read as the number. -/
theorem decValue_printDec (n : Nat) : decValue 0 (printDec n) = n := by
  unfold printDec
  split
  · rename_i hzero
    rw [hzero]
    rfl
  · rw [decValue_digits fun d => Nat.digits_lt_base (by decide), Nat.ofDigits_digits]

theorem isdigit_printDec {n : Nat} {c : UInt8} (hc : c ∈ printDec n) : isdigit c = true := by
  unfold printDec at hc
  split at hc
  · rw [mem_singleton.mp hc]
    decide
  · obtain ⟨d, hd, rfl⟩ := mem_map.mp hc
    exact (isdigit_ofNat (Nat.digits_lt_base (by decide) (mem_reverse.mp hd))).1

theorem isOctet_printDec {n : Nat} (hn : n < 256) : IsOctet (printDec n) where
  ne_nil := by
    unfold printDec
    split
    · simp
    · rename_i hne
      simpa using Nat.digits_ne_nil_iff_ne_zero.mpr hne
  digit := fun _ => isdigit_printDec
  le := by
    rw [decValue_printDec]
    omega

theorem toString_quad {a : IPAddress} (htype : a.type = .v4) (hset : a.isSet = true) :
    a.toString =
      quad (printDec (a.octet 0)) (printDec (a.octet 1)) (printDec (a.octet 2))
        (printDec (a.octet 3)) := by
  simp [toString, quad, htype, hset]

end IPAddress

end Net
