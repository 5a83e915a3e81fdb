import RalioFirmware.Net.RoundTrip

/-!
# What `fromString` accepts

Both parsers store a group as soon as a separator is behind it, and neither asks whether the group
was empty; letters up to `z` count as digits.  They are strict where a text is valid, and where
they stop before the first separator.
-/

namespace Net

open CString Http List

namespace IPAddress

/-! ## Valid texts -/

structure IsHexGroup (run : List UInt8) : Prop where
  ne_nil : run ≠ []
  digit : ∀ c ∈ run, isxdigit c = true
  le : hexValue run ≤ 65535

def Valid4 (address : List UInt8) : Prop :=
  ∃ o p q r, IsOctet o ∧ IsOctet p ∧ IsOctet q ∧ IsOctet r ∧ address = quad o p q r

/-- Eight groups, or fewer and one `::`. -/
def Valid6 (address : List UInt8) : Prop :=
  (∃ groups : List (List UInt8), groups.length = 8 ∧ (∀ run ∈ groups, IsHexGroup run) ∧
    address = join groups) ∨
  ∃ front back : List (List UInt8), front.length + back.length ≤ 7 ∧
    (∀ run ∈ front ++ back, IsHexGroup run) ∧ address = join front ++ 58 :: 58 :: join back

def Valid (address : List UInt8) : Prop := Valid4 address ∨ Valid6 address

theorem IsHexGroup.isGroup {run : List UInt8} (h : IsHexGroup run) : IsGroup run where
  ne_nil := h.ne_nil
  alnum := by
    intro c hc
    obtain ⟨d, hd⟩ := Option.isSome_iff_exists.mp (h.digit c hc)
    exact (alnumValue_hexDigit c d hd).1
  le := by
    rw [runValue_hex h.digit]
    exact h.le

variable {c : UInt8} {runs : List (List UInt8)}

theorem mem_join (hc : c ∈ join runs) :
    c = 58 ∨ ∃ run ∈ runs, c ∈ run := by
  induction runs with
  | nil => cases hc
  | cons run runs ih =>
    cases runs with
    | nil => exact Or.inr ⟨run, mem_cons_self, hc⟩
    | cons next runs =>
      rcases mem_append.mp hc with hc | hc
      · exact Or.inr ⟨run, mem_cons_self, hc⟩
      rcases mem_cons.mp hc with hc | hc
      · exact Or.inl hc
      rcases ih hc with hcolon | ⟨run, hrun, hc⟩
      · exact Or.inl hcolon
      · exact Or.inr ⟨run, mem_cons_of_mem _ hrun, hc⟩

theorem dot_notMem_join (hruns : ∀ run ∈ runs, IsHexGroup run) :
    (46 : UInt8) ∉ join runs := by
  intro hdot
  rcases mem_join hdot with hcolon | ⟨run, hrun, hc⟩
  · exact absurd hcolon (by decide)
  · exact absurd ((hruns run hrun).digit 46 hc) (by decide)

theorem Valid6.dot_notMem {address : List UInt8} (h : Valid6 address) : (46 : UInt8) ∉ address := by
  rcases h with ⟨groups, -, hgroups, rfl⟩ | ⟨front, back, -, hgroups, rfl⟩
  · exact dot_notMem_join hgroups
  · have hfront := dot_notMem_join fun run hrun => hgroups run (mem_append_left _ hrun)
    have hback := dot_notMem_join fun run hrun => hgroups run (mem_append_right _ hrun)
    simp [hfront, hback]

theorem Valid6.accepted {address : List UInt8} (h : Valid6 address) (a : IPAddress) :
    (fromString6 false address 0 0 none a).1 = true := by
  rcases h with ⟨groups, hlen, hgroups, rfl⟩ | ⟨front, back, hlen, hgroups, rfl⟩
  · obtain rfl | ⟨init, last, rfl⟩ := nil_or_concat groups
    · cases hlen
    rw [length_append, length_singleton] at hlen
    have hinit : ∀ run ∈ init, IsGroup run := fun run hrun =>
      (hgroups run (mem_append_left _ hrun)).isGroup
    have hlast := (hgroups last (mem_append_right _ mem_cons_self)).isGroup
    rw [join_concat]
    exact (@fromString6_last a init last 0 [] a.raw hinit hlast.isLast rfl rfl (by omega)).ok
  · exact (fromString6_compressed
      (fun run hrun => (hgroups run (mem_append_left _ hrun)).isGroup)
      (fun run hrun => (hgroups run (mem_append_right _ hrun)).isGroup) hlen).ok

/-- **What is valid is accepted.** -/
theorem Valid.accepted {address : List UInt8} (h : Valid (cstr address)) (a : IPAddress) :
    (fromString a address).1 = true := by
  rcases h with ⟨o, p, q, r, ho, hp, hq, hr, haddress⟩ | h6
  · rw [fromString, haddress, fromString4_quad a ho hp hq hr]
  · rw [fromString, fromString4_notMem h6.dot_notMem (by decide)]
    exact h6.accepted a

/-! ## Groups that are stored -/

/-- A separator behind a first group that is not too large, though it may be empty. -/
def Stores (address : List UInt8) : Prop :=
  (decValue 0 (address.takeWhile isdigit) ≤ 255 ∧
    (address.dropWhile isdigit).head? = some 46) ∨
  (runValue 0 (address.takeWhile isalnum) ≤ 65535 ∧
    (address.dropWhile isalnum).head? = some 58)

theorem tolower_eq_colon : ∀ c : UInt8, tolower c = 58 → c = 58 := of_bytes (by decide +kernel)

section

variable {a : IPAddress} {address : List UInt8} {acc dots : Nat}

theorem fromString4_type (htype : a.type ≠ .any) :
    (fromString4 address acc dots a).2.type ≠ .any := by
  induction address generalizing acc dots a with
  | nil =>
    rw [fromString4]
    split
    · exact htype
    · exact AddrType.noConfusion
  | cons c address ih =>
    rw [fromString4]
    dsimp only
    split
    · split
      · exact htype
      · exact ih htype
    · split
      · split
        · exact htype
        · exact ih AddrType.noConfusion
      · exact htype

theorem finish6_type (doubledots : Option Nat) (htype : a.type ≠ .any) :
    (finish6 acc dots doubledots a).2.type ≠ .any := by
  rw [finish6]
  split
  · exact htype
  · cases doubledots with
    | none => exact AddrType.noConfusion
    | some i => exact AddrType.noConfusion

theorem fromString6_type {passed : Bool} {doubledots : Option Nat} (htype : a.type ≠ .any) :
    (fromString6 passed address acc dots doubledots a).2.type ≠ .any := by
  induction address generalizing passed acc dots doubledots a with
  | nil => exact finish6_type doubledots htype
  | cons c address ih =>
    rw [fromString6]
    dsimp only
    split
    · exact ih htype
    · split
      · split
        · exact htype
        · exact ih htype
      · split
        · split
          · exact htype
          · split
            · exact htype
            · exact ih AddrType.noConfusion
        · exact htype

theorem fromString_failed (hfail : (fromString a address).1 = false) :
    (fromString4 (cstr address) 0 0 a).1 = false ∧
      fromString a address =
        fromString6 false (cstr address) 0 0 none (fromString4 (cstr address) 0 0 a).2 := by
  rcases hfour : fromString4 (cstr address) 0 0 a with ⟨ok, b⟩
  cases ok with
  | true =>
    rw [fromString, hfour] at hfail
    cases hfail
  | false => exact ⟨rfl, by rw [fromString, hfour]⟩

variable {p : UInt8 → Bool}

theorem takeWhile_all (hc : c ∈ address.takeWhile p) : p c = true :=
  all_eq_true.mp all_takeWhile c hc

theorem exists_rest (h : (address.dropWhile p).head? = some c) :
    ∃ rest, address = address.takeWhile p ++ c :: rest := by
  obtain ⟨rest, hrest⟩ := head?_eq_some_iff.mp h
  exact ⟨rest, by rw [← hrest, takeWhile_append_dropWhile]⟩

/-- **A failure after the first separator** leaves another type than that of an address which is
not set. -/
theorem Stores.type (hstores : Stores (cstr address)) (hfail : (fromString a address).1 = false) :
    (fromString a address).2.type ≠ .any := by
  rw [(fromString_failed hfail).2]
  rcases hstores with ⟨hle, hdot⟩ | ⟨hle, hcolon⟩
  · obtain ⟨rest, hrest⟩ := exists_rest hdot
    refine fromString6_type ?_
    rw [hrest, fromString4_run (fun _ => takeWhile_all) (Nat.zero_le _), if_pos hle,
      fromString4_dot (by decide)]
    exact fromString4_type AddrType.noConfusion
  · obtain ⟨rest, hrest⟩ := exists_rest hcolon
    rw [hrest, fromString6_run (fun _ => takeWhile_all) (Nat.zero_le _), if_pos hle, fromString6]
    simp only [tolower_colon.1, tolower_colon.2, Bool.false_eq_true, if_false, if_true,
      Option.isSome_none, and_false]
    rw [if_neg (by decide)]
    exact fromString6_type AddrType.noConfusion

theorem fromString4_unstored (hstores : ¬ Stores address) :
    fromString4 address 0 0 a = (false, a) := by
  have hsplit := takeWhile_append_dropWhile (p := isdigit) (l := address)
  rw [← hsplit, fromString4_run (fun _ => takeWhile_all) (Nat.zero_le _)]
  split
  · rename_i hle
    cases hrest : address.dropWhile isdigit with
    | nil => rw [fromString4, if_pos (by decide)]
    | cons c rest =>
      have hdigit : isdigit c = false := by
        have hhead := head?_dropWhile_not isdigit address
        rw [hrest] at hhead
        simpa using hhead
      have hdot : c ≠ 46 := by
        rintro rfl
        exact hstores (Or.inl ⟨hle, by rw [hrest]; rfl⟩)
      rw [fromString4, hdigit, if_neg hdot]
      rfl
  · rfl

theorem fromString6_unstored (hstores : ¬ Stores address) :
    fromString6 false address 0 0 none a = (false, a) := by
  have hsplit := takeWhile_append_dropWhile (p := isalnum) (l := address)
  rw [← hsplit, fromString6_run (fun _ => takeWhile_all) (Nat.zero_le _)]
  split
  · rename_i hle
    cases hrest : address.dropWhile isalnum with
    | nil => rfl
    | cons c rest =>
      have halnum : isalnum (tolower c) = false := by
        have hhead := head?_dropWhile_not isalnum address
        rw [hrest] at hhead
        rw [isalnum_tolower]
        simpa using hhead
      have hcolon : tolower c ≠ 58 := by
        intro hc
        have h58 := tolower_eq_colon c hc
        subst h58
        exact hstores (Or.inr ⟨hle, by rw [hrest]; rfl⟩)
      rw [fromString6]
      simp only [Bool.false_eq_true, if_false, halnum, hcolon]
  · rfl

end

/-- **Strictness.**  `fromString` accepts a text exactly where it is valid and leaves the address
alone where it refuses it, if and only if the text is valid or nothing of it is stored. -/
theorem fromString_strict_iff (address : List UInt8) :
    (∀ a : IPAddress, ((fromString a address).1 = true ↔ Valid (cstr address)) ∧
      ((fromString a address).1 = false → (fromString a address).2 = a)) ↔
    Valid (cstr address) ∨ ¬ Stores (cstr address) := by
  constructor
  · intro hstrict
    by_cases hvalid : Valid (cstr address)
    · exact Or.inl hvalid
    · refine Or.inr fun hstores => ?_
      obtain ⟨haccept, hkept⟩ := hstrict unset
      have hfail : (fromString unset address).1 = false :=
        Bool.eq_false_iff.mpr fun h => hvalid (haccept.mp h)
      have htype := hstores.type hfail
      rw [hkept hfail] at htype
      exact htype rfl
  · intro hcondition a
    by_cases hvalid : Valid (cstr address)
    · have haccept := hvalid.accepted a
      exact ⟨iff_of_true haccept hvalid, fun h => absurd (haccept.symm.trans h) Bool.noConfusion⟩
    · have hstores := hcondition.resolve_left hvalid
      have hfail : fromString a address = (false, a) := by
        rw [fromString, fromString4_unstored hstores]
        exact fromString6_unstored hstores
      rw [hfail]
      exact ⟨iff_of_false Bool.noConfusion hvalid, fun _ => rfl⟩

/-- `1.` is refused, but its first octet is stored. -/
theorem fromString_strict_false :
    ¬ ∀ (address : List UInt8) (a : IPAddress),
      ((fromString a address).1 = true ↔ Valid (cstr address)) ∧
        ((fromString a address).1 = false → (fromString a address).2 = a) := by
  intro h
  have hkept := (h [49, 46] unset).2 (by decide)
  revert hkept
  decide

end IPAddress

end Net
