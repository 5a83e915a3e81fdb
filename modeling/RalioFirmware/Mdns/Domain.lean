import RalioFirmware.Basis.CString
import RalioFirmware.Mdns.Rx

/-!
# Reading domain names

A domain name is a list of labels, each behind its length; an empty one ends it.  Instead of
the rest of a name a packet may hold a pointer to a place where it stands.

`readRRDomain_bounds` is about every packet: the reader ends, it follows at most six pointers
and stays in its buffer, and after a name it stands behind what the name takes at the place
where it was read, not behind a place it jumped to.
-/

namespace Mdns

open List

/-- `MDNS_DOMAIN_MAXLENGTH`. -/
def domainMaxLength : Nat := 256

/-- `MDNS_DOMAIN_MAX_REDIRCTION`. -/
def domainMaxRedirection : Nat := 6

/-- The two top bits of a length are not set: no part of a pointer. -/
def isLabel (len : UInt8) : Bool := len &&& 0xC0 = 0

/-- What `_readRRDomain_Loop` comes to.  `name` is `m_acName` up to its length; `high` is the
end of the furthest write into it, and `jumps` counts the pointers that were followed. -/
structure DomainRead where
  ok : Bool
  rx : Rx
  name : List UInt8
  high : Nat
  jumps : Nat

/-- `_readRRDomain_Loop`: `budget` is how many pointers may still be followed, itself counted,
and `len` the length that was read last.  A read at the end of the packet leaves it as it is. -/
def readRRDomainLoop (budget : Nat) (rx : Rx) (name : List UInt8) (high : Nat) (len : UInt8) :
    DomainRead :=
  match budget with
  | 0 => ⟨false, rx, name, high, 0⟩
  | budget + 1 =>
    let len := rx.read8.1.getD len
    let rx1 := rx.read8.2
    if isLabel len = false then
      let low := rx1.read8.1.getD len
      let rx2 := rx1.read8.2
      let pos := (len &&& 0x3F).toNat * 256 + low.toNat
      if rx2.isValidOffset pos then
        let sub := readRRDomainLoop budget (rx2.seek pos) name high 0
        { sub with
          rx := if sub.ok then sub.rx.seek rx2.tell else sub.rx
          jumps := sub.jumps + (if budget = 0 then 0 else 1) }
      else ⟨false, rx2, name, high, 0⟩
    else if domainMaxLength > name.length + len.toNat then
      let name := name ++ [len]
      if _hlen : len = 0 then ⟨true, rx1, name, max high name.length, 0⟩
      else
        match _h : (rx1.readBuffer len.toNat).1 with
        | some bytes =>
          readRRDomainLoop (budget + 1) (rx1.readBuffer len.toNat).2 (name ++ bytes)
            (max high (name.length + len.toNat)) len
        | none =>
          ⟨false, (rx1.readBuffer len.toNat).2, name, max high (name.length + len.toNat), 0⟩
    else ⟨false, rx1, name, high, 0⟩
  termination_by (budget, rx.rest.length)
  decreasing_by
    · exact Prod.Lex.left _ _ (Nat.lt_succ_self _)
    · exact Prod.Lex.right _ (Rx.readBuffer_rest_lt _hlen _h)

def readRRDomain (rx : Rx) : DomainRead :=
  readRRDomainLoop (domainMaxRedirection + 1) rx [] 0 0

/-- How many bytes a name takes where it is read: its labels up to the empty one, or up to a
pointer of two bytes. -/
def nameEnd : List UInt8 → Nat
  | [] => 0
  | len :: rest =>
    if isLabel len = false then min 2 (1 + rest.length)
    else if len = 0 then 1
    else 1 + len.toNat + nameEnd (rest.drop len.toNat)
  termination_by rest => rest.length
  decreasing_by
    simp only [List.length_drop, List.length_cons]
    omega

/-! ## One round of the loop -/

section Rounds

variable {budget : Nat} {rx : Rx} {name : List UInt8} {high : Nat} {len b : UInt8}
  {bytes : List UInt8}

theorem Rx.seek_next (h : rx.rest = b :: bytes) :
    1 ≤ rx.rest.length ∧ (rx.seek (rx.offset + 1)).rest = bytes := by
  have hle : 1 ≤ rx.rest.length := by
    rw [h]
    exact Nat.succ_pos _
  exact ⟨hle, by rw [Rx.seek_rest hle, h]; rfl⟩

/-- A label is read behind its length. -/
theorem Rx.readBuffer_label (h : rx.rest = b :: bytes) (hne : b ≠ 0) :
    ((rx.seek (rx.offset + 1)).readBuffer b.toNat).1 =
        (if b.toNat ≤ bytes.length then some (bytes.take b.toNat) else none) ∧
      ((rx.seek (rx.offset + 1)).readBuffer b.toNat).2 = rx.seek (rx.offset + (1 + b.toNat)) := by
  obtain ⟨hle, hrest⟩ := Rx.seek_next h
  have hnat : b.toNat ≠ 0 := fun h0 => hne (UInt8.toNat_inj.mp h0)
  rw [Rx.readBuffer_fst _ hnat, hrest, Rx.readBuffer_snd, Rx.seek_add_offset hle, Nat.add_assoc]
  exact ⟨rfl, rfl⟩

theorem readRRDomainLoop_end (h : rx.rest = []) (hlen : isLabel len = true) :
    readRRDomainLoop (budget + 1) rx name high len =
      if domainMaxLength > name.length + len.toNat then
        if len = 0 then ⟨true, rx, name ++ [0], max high (name.length + 1), 0⟩
        else ⟨false, rx.seek (rx.offset + len.toNat), name ++ [len],
          max high (name.length + 1 + len.toNat), 0⟩
      else ⟨false, rx, name, high, 0⟩ := by
  rw [readRRDomainLoop, Rx.read8_nil h]
  simp only [Option.getD_none, hlen, Bool.true_eq_false, if_false]
  split
  · split
    · next hzero => simp [hzero]
    · next hne =>
        have hnat : len.toNat ≠ 0 := fun h0 => hne (UInt8.toNat_inj.mp h0)
        have hnone : (rx.readBuffer len.toNat).1 = none := by
          rw [Rx.readBuffer_fst rx hnat, if_neg (by rw [h, length_nil]; omega)]
        split
        · next heq =>
            rw [hnone] at heq
            cases heq
        · rw [Rx.readBuffer_snd, length_append]
          rfl
  · rfl

theorem readRRDomainLoop_pointer (h : rx.rest = b :: bytes) (hb : isLabel b = false) :
    readRRDomainLoop (budget + 1) rx name high len =
      let pos := (b &&& 0x3F).toNat * 256 + (bytes.headD b).toNat
      let place := rx.seek (rx.offset + min 2 (1 + bytes.length))
      let sub := readRRDomainLoop budget (rx.seek pos) name high 0
      if rx.isValidOffset pos then
        { sub with
          rx := if sub.ok then sub.rx.seek place.offset else sub.rx
          jumps := sub.jumps + (if budget = 0 then 0 else 1) }
      else ⟨false, place, name, high, 0⟩ := by
  obtain ⟨hle, hrest⟩ := Rx.seek_next h
  have hsecond : (rx.seek (rx.offset + 1)).read8.1.getD b = bytes.headD b ∧
      (rx.seek (rx.offset + 1)).read8.2 = rx.seek (rx.offset + min 2 (1 + bytes.length)) := by
    cases bytes with
    | nil =>
      rw [Rx.read8_nil hrest]
      exact ⟨rfl, rfl⟩
    | cons c bytes =>
      have hmin : min 2 (1 + (c :: bytes).length) = 2 := by
        rw [length_cons]
        omega
      rw [Rx.read8_cons hrest, Rx.seek_add_offset hle, hmin]
      exact ⟨rfl, rfl⟩
  rw [readRRDomainLoop, Rx.read8_cons h]
  simp only [Option.getD_some, hb, if_true, hsecond.1, hsecond.2]
  rfl

theorem readRRDomainLoop_zero (h : rx.rest = 0 :: bytes) (hname : name.length < domainMaxLength) :
    readRRDomainLoop (budget + 1) rx name high len =
      ⟨true, rx.seek (rx.offset + 1), name ++ [0], max high (name.length + 1), 0⟩ := by
  rw [readRRDomainLoop, Rx.read8_cons h]
  have hlabel : isLabel 0 = true := rfl
  simp only [Option.getD_some, hlabel, Bool.true_eq_false, if_false, UInt8.toNat_zero, Nat.add_zero,
    hname, if_true, dif_pos, length_append, length_singleton]

theorem readRRDomainLoop_label (h : rx.rest = b :: bytes) (hb : isLabel b = true) (hne : b ≠ 0)
    (hname : name.length + b.toNat < domainMaxLength) :
    readRRDomainLoop (budget + 1) rx name high len =
      if b.toNat ≤ bytes.length then
        readRRDomainLoop (budget + 1) (rx.seek (rx.offset + (1 + b.toNat)))
          (name ++ b :: bytes.take b.toNat) (max high (name.length + 1 + b.toNat)) b
      else ⟨false, rx.seek (rx.offset + (1 + b.toNat)), name ++ [b],
        max high (name.length + 1 + b.toNat), 0⟩ := by
  obtain ⟨hread, hseek⟩ := Rx.readBuffer_label h hne
  rw [readRRDomainLoop, Rx.read8_cons h]
  simp only [Option.getD_some, hb, Bool.true_eq_false, if_false, hname, if_true,
    dif_neg hne, length_append, length_singleton, hseek]
  split
  · next got hgot =>
      rw [hread] at hgot
      split at hgot
      · next hfull =>
          obtain rfl := Option.some.inj hgot
          rw [if_pos hfull, append_assoc]
          rfl
      · cases hgot
  · next hgot =>
      rw [hread] at hgot
      split at hgot
      · cases hgot
      · next hshort => rw [if_neg hshort]

theorem readRRDomainLoop_long (h : rx.rest = b :: bytes) (hb : isLabel b = true)
    (hname : ¬name.length + b.toNat < domainMaxLength) :
    readRRDomainLoop (budget + 1) rx name high len =
      ⟨false, rx.seek (rx.offset + 1), name, high, 0⟩ := by
  rw [readRRDomainLoop, Rx.read8_cons h]
  simp only [Option.getD_some, hb, Bool.true_eq_false, if_false, gt_iff_lt, hname]

end Rounds

/-! ## Every packet -/

structure Bounded (budget : Nat) (rx : Rx) (r : DomainRead) : Prop where
  jumps : r.jumps ≤ budget - 1
  high : r.high ≤ domainMaxLength
  name : r.name.length ≤ domainMaxLength
  buf : r.rx.buf = rx.buf
  after : r.ok = true → r.rx.offset = rx.offset + nameEnd rx.rest

theorem Bounded.of_failed {budget : Nat} {rx rx' : Rx} {name : List UInt8} {high : Nat}
    (hhigh : high ≤ domainMaxLength) (hname : name.length ≤ domainMaxLength)
    (hbuf : rx'.buf = rx.buf) : Bounded budget rx ⟨false, rx', name, high, 0⟩ :=
  ⟨Nat.zero_le _, hhigh, hname, hbuf, by simp⟩

theorem Bounded.pointer {budget : Nat} {rx : Rx} {name : List UInt8} {high : Nat} {len b : UInt8}
    {bytes : List UInt8} (hname : name.length ≤ domainMaxLength) (hhigh : high ≤ domainMaxLength)
    (hrest : rx.rest = b :: bytes) (hb : isLabel b = false)
    (hsub : ∀ rx' : Rx, Bounded budget rx' (readRRDomainLoop budget rx' name high 0)) :
    Bounded (budget + 1) rx (readRRDomainLoop (budget + 1) rx name high len) := by
  rw [readRRDomainLoop_pointer hrest hb]
  dsimp only
  have hend : (rx.seek (rx.offset + min 2 (1 + bytes.length))).offset =
      rx.offset + nameEnd rx.rest := by
    have hmin : min 2 (1 + bytes.length) ≤ rx.rest.length := by grind
    rw [Rx.seek_add_offset hmin, hrest, nameEnd, if_pos hb]
  split
  · specialize hsub (rx.seek ((b &&& 0x3F).toNat * 256 + (bytes.headD b).toNat))
    generalize readRRDomainLoop budget _ name high 0 = sub at hsub
    have hjumps := hsub.jumps
    refine ⟨?_, hsub.high, hsub.name, ?_, fun hok => ?_⟩
    · grind
    · show (if sub.ok = true then sub.rx.seek _ else sub.rx).buf = rx.buf
      rw [← Rx.seek_buf rx, ← hsub.buf]
      split <;> rfl
    · change sub.ok = true at hok
      show (if sub.ok = true then sub.rx.seek _ else sub.rx).offset = _
      have hplace : (rx.seek (rx.offset + min 2 (1 + bytes.length))).offset ≤
          sub.rx.buf.length := by
        rw [hsub.buf, Rx.seek_buf]
        exact Rx.offset_le _
      rw [if_pos hok, Rx.seek_offset hplace, hend]
  · exact Bounded.of_failed hhigh hname rfl

theorem Bounded.at_end {budget : Nat} {rx : Rx} {name : List UInt8} {high : Nat} {len : UInt8}
    (hname : name.length ≤ domainMaxLength) (hhigh : high ≤ domainMaxLength)
    (hrest : rx.rest = []) (hlen : isLabel len = true) :
    Bounded (budget + 1) rx (readRRDomainLoop (budget + 1) rx name high len) := by
  rw [readRRDomainLoop_end hrest hlen]
  split
  · next hroom =>
      have hadd : ∀ b : UInt8, (name ++ [b]).length = name.length + 1 := by simp
      split
      · have hend : rx.offset = rx.offset + nameEnd rx.rest := by
          rw [hrest, nameEnd]
          rfl
        refine ⟨Nat.zero_le _, ?_, ?_, rfl, fun _ => hend⟩
        · show max high (name.length + 1) ≤ domainMaxLength
          omega
        · grind
      · refine Bounded.of_failed ?_ ?_ rfl
        · omega
        · rw [hadd]
          omega
  · exact Bounded.of_failed hhigh hname rfl

theorem readRRDomainLoop_bounded (budget : Nat) {rx : Rx} {name : List UInt8} {high : Nat}
    {len : UInt8} (hname : name.length ≤ domainMaxLength) (hhigh : high ≤ domainMaxLength)
    (hlen : isLabel len = true) :
    Bounded budget rx (readRRDomainLoop budget rx name high len) := by
  induction budget generalizing rx name high len with
  | zero =>
    rw [readRRDomainLoop]
    exact Bounded.of_failed hhigh hname rfl
  | succ budget ihBudget =>
    induction hn : rx.rest.length using Nat.strong_induction_on generalizing rx name high len with
    | _ n ih =>
      subst hn
      cases hrest : rx.rest with
      | nil =>
        exact Bounded.at_end hname hhigh hrest hlen
      | cons b bytes =>
        have hle : 1 ≤ rx.rest.length := by grind
        have hadd : (name ++ [b]).length = name.length + 1 := by simp
        by_cases hb : isLabel b = false
        · refine Bounded.pointer hname hhigh hrest hb fun rx' => ?_
          exact ihBudget hname hhigh rfl
        · have hlabel : isLabel b = true := by simpa using hb
          by_cases hroom : name.length + b.toNat < domainMaxLength
          · by_cases hzero : b = 0
            · subst hzero
              have hroom' : name.length < domainMaxLength := by simpa using hroom
              rw [readRRDomainLoop_zero hrest hroom']
              refine ⟨Nat.zero_le _, ?_, ?_, rfl, fun _ => ?_⟩
              · grind
              · show (name ++ [0]).length ≤ domainMaxLength
                omega
              · show (rx.seek (rx.offset + 1)).offset = _
                rw [Rx.seek_add_offset hle, hrest, nameEnd, if_neg hb, if_pos rfl]
            · rw [readRRDomainLoop_label hrest hlabel hzero hroom]
              split
              · next hfull =>
                  have hmin : 1 + b.toNat ≤ rx.rest.length := by grind
                  have hshort : (rx.seek (rx.offset + (1 + b.toNat))).rest.length <
                      rx.rest.length := by
                    rw [Rx.seek_rest hmin, length_drop]
                    omega
                  have htext : (name ++ b :: bytes.take b.toNat).length =
                      name.length + 1 + b.toNat := by
                    rw [length_append, length_cons, length_take_of_le hfull]
                    omega
                  have hnext := @ih _ hshort (rx.seek (rx.offset + (1 + b.toNat)))
                    (name ++ b :: bytes.take b.toNat) (max high (name.length + 1 + b.toNat)) b
                    (by omega) (by omega) hlabel rfl
                  refine ⟨hnext.jumps, hnext.high, hnext.name, hnext.buf, fun hok => ?_⟩
                  rw [hnext.after hok, Rx.seek_add_offset hmin, Rx.seek_rest hmin, hrest,
                    nameEnd, if_neg hb, if_neg hzero, Nat.add_comm 1 b.toNat,
                    drop_succ_cons]
                  omega
              · refine Bounded.of_failed ?_ ?_ rfl
                · omega
                · omega
          · rw [readRRDomainLoop_long hrest hlabel hroom]
            exact Bounded.of_failed hhigh hname rfl

/-- **Reading a name**, from any place of any packet.  The reader follows at most six pointers,
writes inside its buffer, and after a name stands behind what the name takes at that place. -/
theorem readRRDomain_bounds (rx : Rx) :
    (readRRDomain rx).jumps ≤ domainMaxRedirection ∧ (readRRDomain rx).high ≤ domainMaxLength ∧
      (readRRDomain rx).rx.buf = rx.buf ∧
      ((readRRDomain rx).ok = true →
        (readRRDomain rx).rx.offset = rx.offset + nameEnd rx.rest) := by
  have h := @readRRDomainLoop_bounded (domainMaxRedirection + 1) rx [] 0 0 (Nat.zero_le _)
    (Nat.zero_le _) rfl
  exact ⟨h.jumps, h.high, h.buf, h.after⟩

/-! ## Names that were written -/

def encodeLabels (labels : List (List UInt8)) : List UInt8 :=
  labels.flatMap fun label => UInt8.ofNat label.length :: label

def Labels (labels : List (List UInt8)) : Prop :=
  ∀ label ∈ labels, label ≠ [] ∧ label.length ≤ 63

theorem encodeLabels_cons (label : List UInt8) (labels : List (List UInt8)) :
    encodeLabels (label :: labels) =
      UInt8.ofNat label.length :: (label ++ encodeLabels labels) := rfl

theorem isLabel_ofNat {n : Nat} (h : n ≤ 63) : isLabel (UInt8.ofNat n) = true := by
  revert n
  decide

/-- **A name in full is read as it stands.** -/
theorem readRRDomainLoop_encoded {budget : Nat} {labels : List (List UInt8)}
    (hlabels : Labels labels) {rx : Rx} {more : List UInt8}
    (hrest : rx.rest = encodeLabels labels ++ 0 :: more) {name : List UInt8} {high : Nat}
    {len : UInt8} (hroom : name.length + (encodeLabels labels).length < domainMaxLength) :
    (readRRDomainLoop (budget + 1) rx name high len).ok = true ∧
      (readRRDomainLoop (budget + 1) rx name high len).name =
        name ++ encodeLabels labels ++ [0] ∧
      (readRRDomainLoop (budget + 1) rx name high len).rx.offset =
        rx.offset + (encodeLabels labels).length + 1 := by
  induction labels generalizing rx name high len with
  | nil =>
    have hzero : rx.rest = 0 :: more := hrest
    have hle : 1 ≤ rx.rest.length := by
      rw [hzero]
      exact Nat.succ_pos _
    rw [readRRDomainLoop_zero hzero hroom]
    exact ⟨rfl, by simp [encodeLabels], Rx.seek_add_offset hle⟩
  | cons label labels ih =>
    obtain ⟨⟨hne, h63⟩, hlabels⟩ := forall_mem_cons.mp hlabels
    rw [encodeLabels_cons] at hrest hroom ⊢
    have hnat : (UInt8.ofNat label.length).toNat = label.length :=
      UInt8.toNat_ofNat_of_lt' (show label.length < 256 by omega)
    have hpos := length_pos_of_ne_nil hne
    have hbyte : UInt8.ofNat label.length ≠ 0 := fun hzero => by
      rw [hzero] at hnat
      exact Nat.ne_of_gt hpos hnat.symm
    simp only [length_cons, length_append] at hroom ⊢
    have hrest' : rx.rest = UInt8.ofNat label.length ::
        (label ++ (encodeLabels labels ++ 0 :: more)) := by
      rw [hrest]
      simp
    rw [readRRDomainLoop_label hrest' (isLabel_ofNat h63) hbyte (by omega), hnat,
      if_pos (by rw [length_append]; omega), take_left]
    have hlen : 1 + label.length ≤ rx.rest.length := by grind
    have hnext : (rx.seek (rx.offset + (1 + label.length))).rest =
        encodeLabels labels ++ 0 :: more := by
      rw [Rx.seek_rest hlen, hrest', Nat.add_comm, drop_succ_cons, drop_left]
    obtain ⟨hok, hname, hoffset⟩ := @ih hlabels _ hnext
      (name ++ UInt8.ofNat label.length :: label) (max high (name.length + 1 + label.length))
      (UInt8.ofNat label.length) (by rw [length_append, length_cons]; omega)
    refine ⟨hok, by rw [hname]; simp, ?_⟩
    rw [hoffset, Rx.seek_add_offset hlen]
    omega

/-- **A name behind a pointer is read there**, and the reader comes back. -/
theorem readRRDomain_pointer {labels : List (List UInt8)} (hlabels : Labels labels) {rx : Rx}
    {high low : UInt8} {more more' : List UInt8} (hrest : rx.rest = high :: low :: more)
    (hhigh : isLabel high = false) {pos : Nat}
    (hpos : (high &&& 0x3F).toNat * 256 + low.toNat = pos) (hle : pos ≤ rx.buf.length)
    (hplace : rx.buf.drop pos = encodeLabels labels ++ 0 :: more')
    (hroom : (encodeLabels labels).length < domainMaxLength) :
    (readRRDomain rx).ok = true ∧ (readRRDomain rx).name = encodeLabels labels ++ [0] ∧
      (readRRDomain rx).rx.offset = rx.offset + 2 := by
  have hvalid : rx.isValidOffset pos = true := decide_eq_true hle
  have hsub : (rx.seek pos).rest = encodeLabels labels ++ 0 :: more' := by
    rw [← hplace, Rx.rest, Rx.seek_offset hle]
    rfl
  obtain ⟨hok, hname, -⟩ := @readRRDomainLoop_encoded 5 labels hlabels _ _ hsub [] 0 0 (by simpa)
  have hread := @readRRDomainLoop_pointer 6 rx [] 0 0 high (low :: more) hrest hhigh
  dsimp only [headD_cons] at hread
  rw [hpos, if_pos hvalid] at hread
  have hsecond : min 2 (1 + (low :: more).length) = 2 := by
    rw [length_cons]
    omega
  have hend := (readRRDomain_bounds rx).2.2.2
  unfold readRRDomain domainMaxRedirection at hend ⊢
  rw [hread] at hend ⊢
  refine ⟨hok, by simpa using hname, ?_⟩
  rw [hend hok, hrest, nameEnd, if_pos hhigh, hsecond]

end Mdns
