import RalioFirmware.Mdns.Query

/-!
# The frames of records

Behind its name and ten more bytes a record has as many bytes of data as it says.  What
`_readRRAnswer` uses up is another matter: names in the data are read to their own end, and a
byte that is not there is taken for the one before it.  `readRRAnswer_framed_iff` says which
records are read inside their frames.
-/

namespace Mdns

open List
open Option (bind_eq_some_iff bind_some getD_some map_eq_some_iff some.inj)

/-! ## What is read of a name -/

/-- What each `_udpRead8` of `_readRRDomain_Loop` gives. -/
def domainBytes (budget : Nat) (rx : Rx) (name : List UInt8) (len : UInt8) :
    List (Option UInt8) :=
  match budget with
  | 0 => []
  | budget + 1 =>
    let len := rx.read8.1.getD len
    let rx1 := rx.read8.2
    rx.read8.1 ::
      if isLabel len = false then
        let low := rx1.read8.1.getD len
        let rx2 := rx1.read8.2
        let pos := (len &&& 0x3F).toNat * 256 + low.toNat
        rx1.read8.1 ::
          if rx2.isValidOffset pos then domainBytes budget (rx2.seek pos) name 0 else []
      else if domainMaxLength > name.length + len.toNat then
        let name := name ++ [len]
        if _hlen : len = 0 then []
        else
          match _h : (rx1.readBuffer len.toNat).1 with
          | some bytes =>
            domainBytes (budget + 1) (rx1.readBuffer len.toNat).2 (name ++ bytes) len
          | none => []
      else []
  termination_by (budget, rx.rest.length)
  decreasing_by
    · exact Prod.Lex.left _ _ (Nat.lt_succ_self _)
    · exact Prod.Lex.right _ (Rx.readBuffer_rest_lt _hlen _h)

/-- Every byte of the name at this place is read from inside the packet. -/
def ReadInside (rx : Rx) : Prop :=
  none ∉ domainBytes (domainMaxRedirection + 1) rx [] 0

/-- The labels up to the empty one, a pointer, or the end. -/
def nameStop : List UInt8 → List UInt8
  | [] => []
  | len :: rest =>
    if isLabel len = false ∨ len = 0 then len :: rest else nameStop (rest.drop len.toNat)
  termination_by rest => rest.length
  decreasing_by
    simp only [List.length_drop, List.length_cons]
    omega

/-- The labels from this place on end inside the packet, and so do those that the pointer behind
them leads to; a pointer has both of its bytes. -/
def endsInside (buf : List UInt8) : Nat → List UInt8 → Bool
  | 0, _ => false
  | budget + 1, rest =>
    match nameStop rest with
    | [] => false
    | [len] => isLabel len
    | len :: low :: _ =>
      isLabel len || endsInside buf budget (buf.drop ((len &&& 0x3F).toNat * 256 + low.toNat))

section Rounds

variable {budget : Nat} {rx : Rx} {name : List UInt8} {high : Nat} {len b : UInt8}
  {bytes : List UInt8}

theorem domainBytes_end (h : rx.rest = []) : none ∈ domainBytes (budget + 1) rx name len := by
  rw [domainBytes, Rx.read8_nil h]
  exact mem_cons_self

theorem domainBytes_zero (h : rx.rest = 0 :: bytes) :
    none ∉ domainBytes (budget + 1) rx name len := by
  rw [domainBytes, Rx.read8_cons h]
  have hlabel : isLabel 0 = true := rfl
  simp only [getD_some, hlabel, Bool.true_eq_false, if_false, dif_pos]
  split <;> simp

theorem domainBytes_pointer (h : rx.rest = b :: bytes) (hb : isLabel b = false) :
    none ∈ domainBytes (budget + 1) rx name len ↔ bytes = [] ∨
      rx.isValidOffset ((b &&& 0x3F).toNat * 256 + (bytes.headD b).toNat) ∧
        none ∈ domainBytes budget
          (rx.seek ((b &&& 0x3F).toNat * 256 + (bytes.headD b).toNat)) name 0 := by
  have hrest := (Rx.seek_next h).2
  rw [domainBytes, Rx.read8_cons h]
  simp only [getD_some, hb, if_true]
  cases bytes with
  | nil =>
    rw [Rx.read8_nil hrest]
    simp
  | cons c bytes =>
    rw [Rx.read8_cons hrest]
    have hseek : ∀ pos, ((rx.seek (rx.offset + 1)).seek ((rx.seek (rx.offset + 1)).offset + 1)).seek
        pos = rx.seek pos := fun _ => rfl
    have hvalid : ∀ pos, ((rx.seek (rx.offset + 1)).seek
        ((rx.seek (rx.offset + 1)).offset + 1)).isValidOffset pos = rx.isValidOffset pos :=
      fun _ => rfl
    simp only [getD_some, hseek, hvalid, headD_cons]
    generalize (b &&& 0x3F).toNat * 256 + c.toNat = pos
    split
    · next hpos => simp [hpos]
    · next hpos => simp [hpos]

theorem domainBytes_label (h : rx.rest = b :: bytes) (hb : isLabel b = true) (hne : b ≠ 0)
    (hname : name.length + b.toNat < domainMaxLength) (hfull : b.toNat ≤ bytes.length) :
    none ∈ domainBytes (budget + 1) rx name len ↔
      none ∈ domainBytes (budget + 1) (rx.seek (rx.offset + (1 + b.toNat)))
        (name ++ b :: bytes.take b.toNat) b := by
  obtain ⟨hread, hseek⟩ := Rx.readBuffer_label h hne
  rw [if_pos hfull] at hread
  rw [domainBytes, Rx.read8_cons h]
  simp only [getD_some, hb, Bool.true_eq_false, if_false, gt_iff_lt, hname, if_true,
    dif_neg hne, hseek]
  split
  · next got hgot =>
      rw [hread] at hgot
      obtain rfl := some.inj hgot
      rw [append_assoc]
      simp
  · next hgot =>
      rw [hread] at hgot
      cases hgot

end Rounds

/-- **A name that was read** was read inside the packet just if it ends there. -/
theorem domainBytes_iff {budget : Nat} {rx : Rx} {name : List UInt8} {high : Nat} {len : UInt8}
    (hlen : isLabel len = true) (hok : (readRRDomainLoop budget rx name high len).ok = true) :
    none ∉ domainBytes budget rx name len ↔ endsInside rx.buf budget rx.rest = true := by
  induction budget generalizing rx name high len with
  | zero =>
    rw [readRRDomainLoop] at hok
    cases hok
  | succ budget ihBudget =>
    induction hn : rx.rest.length using Nat.strong_induction_on generalizing rx name high len with
    | _ n ih =>
      subst hn
      cases hrest : rx.rest with
      | nil =>
        refine iff_of_false (fun h => h (domainBytes_end hrest)) ?_
        rw [endsInside, nameStop]
        exact Bool.false_ne_true
      | cons b bytes =>
        by_cases hb : isLabel b = false
        · -- the name goes on where the pointer leads to
          have hstop : nameStop (b :: bytes) = b :: bytes := by
            rw [nameStop, if_pos (.inl hb)]
          rw [readRRDomainLoop_pointer hrest hb] at hok
          dsimp only at hok
          rw [domainBytes_pointer hrest hb, endsInside, hstop]
          split at hok
          · next hvalid =>
              cases bytes with
              | nil => simp [hb]
              | cons low more =>
                rw [headD_cons] at hvalid hok
                have hsub := @ihBudget _ name high 0 rfl hok
                have hplace : (rx.seek ((b &&& 0x3F).toNat * 256 + low.toNat)).rest =
                    rx.buf.drop ((b &&& 0x3F).toNat * 256 + low.toNat) := by
                  show rx.buf.drop (rx.seek _).offset = _
                  rw [Rx.seek_offset (of_decide_eq_true hvalid)]
                rw [hplace] at hsub
                rw [headD_cons]
                simp only [reduceCtorEq, false_or, hvalid, true_and, hb, Bool.false_or]
                exact hsub
          · cases hok
        · have hlabel : isLabel b = true := by simpa using hb
          by_cases hzero : b = 0
          · subst hzero
            have hstop : nameStop (0 :: bytes) = 0 :: bytes := by
              rw [nameStop, if_pos (.inr rfl)]
            refine iff_of_true (domainBytes_zero hrest) ?_
            rw [endsInside, hstop]
            cases bytes with
            | nil => rfl
            | cons _ _ => rfl
          · by_cases hroom : name.length + b.toNat < domainMaxLength
            · rw [readRRDomainLoop_label hrest hlabel hzero hroom] at hok
              split at hok
              · next hfull =>
                  have hmin : 1 + b.toNat ≤ rx.rest.length := by grind
                  have hnext : (rx.seek (rx.offset + (1 + b.toNat))).rest =
                      bytes.drop b.toNat := by
                    rw [Rx.seek_rest hmin, hrest, Nat.add_comm, drop_succ_cons]
                  have hshort : (rx.seek (rx.offset + (1 + b.toNat))).rest.length <
                      rx.rest.length := by grind
                  have hsub := @ih _ hshort _ _ _ _ hlabel hok rfl
                  have hstop : nameStop (b :: bytes) = nameStop (bytes.drop b.toNat) := by
                    rw [nameStop, if_neg (not_or.mpr ⟨hb, hzero⟩)]
                  rw [domainBytes_label hrest hlabel hzero hroom hfull, hsub, hnext,
                    endsInside, endsInside, hstop]
                  rfl
              · cases hok
            · rw [readRRDomainLoop_long hrest hlabel hroom] at hok
              cases hok

/-! ## Frames -/

/-- The header of a record, its time to live, the length of its data, and where they start. -/
def rdataAt (rx : Rx) : Option (RRHeader × Nat × Nat × Rx) :=
  (readRRHeader rx).bind fun header => (header.2.number 4).bind fun ttl =>
    (ttl.2.number 2).map fun rdLength => (header.1, ttl.1, rdLength.1, rdLength.2)

def dataNames (rrType : Nat) (rx : Rx) : List Rx :=
  let kind := rrType &&& 0x7FFF
  if kind = rrTypePTR then [rx]
  else if kind = rrTypeSRV then [rx.seek (rx.offset + 6)]
  else []

/-- **What a frame is for.**  Behind the record stands what follows its data, and the names of
the record are read from inside the packet. -/
def Framed (rx rx' : Rx) : Prop :=
  ∀ header ttl rdLength place, rdataAt rx = some (header, ttl, rdLength, place) →
    rx'.offset = place.offset + rdLength ∧ ReadInside rx ∧
      ∀ name ∈ dataNames header.attributes.rrType place, ReadInside name

def EndsInside (rx : Rx) : Prop :=
  endsInside rx.buf (domainMaxRedirection + 1) rx.rest = true

def LengthFits (rrType rdLength : Nat) (place : Rx) : Prop :=
  let kind := rrType &&& 0x7FFF
  (kind = rrTypePTR → rdLength = nameEnd place.rest) ∧
    (kind = rrTypeSRV → rdLength = 6 + nameEnd (place.rest.drop 6))

def FrameFits (rx : Rx) : Prop :=
  EndsInside rx ∧ ∀ header ttl rdLength place, rdataAt rx = some (header, ttl, rdLength, place) →
    LengthFits header.attributes.rrType rdLength place ∧
      ∀ name ∈ dataNames header.attributes.rrType place, EndsInside name

/-! ## Records that are read -/

theorem Rx.number_some {rx rx' : Rx} {size value : Nat} (hsize : size ≠ 0)
    (h : rx.number size = some (value, rx')) :
    rx' = rx.seek (rx.offset + size) ∧ size ≤ rx.rest.length := by
  obtain ⟨bytes, hbytes, heq⟩ := map_eq_some_iff.mp h
  obtain ⟨-, rfl⟩ := Prod.mk.inj heq
  exact ⟨rx.readBuffer_snd size, (Rx.readBuffer_some hsize hbytes).1⟩

theorem readRRAnswer_eq (behind : List UInt8) (rx : Rx) : readRRAnswer behind rx =
    (rdataAt rx).bind fun p => (readRRData behind p.1.attributes.rrType p.2.2.1 p.2.2.2).map
      fun data => (⟨p.1, p.2.1, data.1⟩, data.2) := by
  unfold readRRAnswer rdataAt
  cases readRRHeader rx with
  | none => rfl
  | some header =>
    show ((header.2.number 4).bind _) = ((header.2.number 4).bind _).bind _
    cases header.2.number 4 with
    | none => rfl
    | some ttl =>
      show ((ttl.2.number 2).bind _) = ((ttl.2.number 2).map _).bind _
      cases ttl.2.number 2 <;> rfl

theorem rdataAt_domain {rx place : Rx} {header : RRHeader} {ttl rdLength : Nat}
    (h : rdataAt rx = some (header, ttl, rdLength, place)) : (readRRDomain rx).ok = true := by
  obtain ⟨read, hread, -⟩ := bind_eq_some_iff.mp h
  unfold readRRHeader at hread
  dsimp only at hread
  split at hread
  · next hok => exact hok
  · cases hread

theorem readInside_iff {rx : Rx} (h : (readRRDomain rx).ok = true) :
    ReadInside rx ↔ EndsInside rx :=
  domainBytes_iff rfl h

section Readers

variable {rdLength : Nat} {place rx' : Rx} {data : RRData}

theorem readBuffer_takes {size : Nat} {bytes : List UInt8} (hsize : size ≠ 0)
    (h : (place.readBuffer size).1 = some bytes) :
    (place.readBuffer size).2.offset = place.offset + size := by
  rw [Rx.readBuffer_snd, Rx.seek_add_offset (Rx.readBuffer_some hsize h).1]

theorem readRRAnswerA_takes (h : readRRAnswerA place rdLength = some (data, rx')) :
    rx'.offset = place.offset + rdLength := by
  unfold readRRAnswerA at h
  split at h
  · next hfour =>
      subst hfour
      obtain ⟨bytes, hbytes, h⟩ := bind_eq_some_iff.mp h
      dsimp only at h
      split at h
      · obtain ⟨-, rfl⟩ := Prod.mk.inj (some.inj h)
        exact readBuffer_takes (by decide) hbytes
      · cases h
  · cases h

theorem readRRAnswerTXT_takes {behind : List UInt8}
    (h : ((readRRAnswerTXT behind place rdLength).1.map fun txts =>
      (RRData.txt (txts.map Prod.snd), (readRRAnswerTXT behind place rdLength).2)) =
        some (data, rx')) : rx'.offset = place.offset + rdLength := by
  obtain ⟨txts, htxts, heq⟩ := map_eq_some_iff.mp h
  obtain ⟨-, rfl⟩ := Prod.mk.inj heq
  by_cases hzero : rdLength = 0
  · subst hzero
    rfl
  · rw [readRRAnswerTXT_eq _ _ hzero] at htxts ⊢
    obtain ⟨bytes, hbytes, -⟩ := bind_eq_some_iff.mp htxts
    exact readBuffer_takes hzero hbytes

theorem readRRAnswerGeneric_takes (h : readRRAnswerGeneric place rdLength = some (data, rx')) :
    rx'.offset = place.offset + rdLength := by
  unfold readRRAnswerGeneric at h
  split at h
  · next hzero =>
      obtain ⟨-, rfl⟩ := Prod.mk.inj (some.inj h)
      rw [hzero]
      rfl
  · next hzero =>
      obtain ⟨bytes, hbytes, heq⟩ := map_eq_some_iff.mp h
      obtain ⟨-, rfl⟩ := Prod.mk.inj heq
      exact readBuffer_takes hzero hbytes

theorem readRRAnswerPTR_takes (h : readRRAnswerPTR place rdLength = some (data, rx')) :
    rx'.offset = place.offset + nameEnd place.rest ∧ (readRRDomain place).ok = true := by
  unfold readRRAnswerPTR at h
  dsimp only at h
  split at h
  · next hand =>
      obtain ⟨-, rfl⟩ := Prod.mk.inj (some.inj h)
      exact ⟨(readRRDomain_bounds place).2.2.2 hand.2, hand.2⟩
  · cases h

theorem readRRAnswerSRV_takes (h : readRRAnswerSRV place rdLength = some (data, rx')) :
    rx'.offset = place.offset + (6 + nameEnd (place.rest.drop 6)) ∧
      (readRRDomain (place.seek (place.offset + 6))).ok = true := by
  unfold readRRAnswerSRV at h
  split at h
  · obtain ⟨priority, hpriority, h⟩ := bind_eq_some_iff.mp h
    obtain ⟨weight, hweight, h⟩ := bind_eq_some_iff.mp h
    obtain ⟨port, hport, h⟩ := bind_eq_some_iff.mp h
    obtain ⟨hat2, hle2⟩ := Rx.number_some (by decide) hpriority
    obtain ⟨hat4, hle4⟩ := Rx.number_some (by decide) hweight
    obtain ⟨hat6, hle6⟩ := Rx.number_some (by decide) hport
    have hrest2 : priority.2.rest = place.rest.drop 2 := hat2 ▸ Rx.seek_rest hle2
    have hrest4 : weight.2.rest = place.rest.drop 4 := by
      rw [hat4, Rx.seek_rest hle4, hrest2, drop_drop]
    rw [hrest4, length_drop] at hle6
    rw [hrest2, length_drop] at hle4
    have hle : 6 ≤ place.rest.length := by omega
    have hplace : port.2 = place.seek (place.offset + 6) := by
      have h2 : priority.2.offset = place.offset + 2 := hat2 ▸ Rx.seek_add_offset hle2
      have h4 : weight.2.offset = place.offset + 4 := by
        rw [hat4, Rx.seek_add_offset (by rw [hrest2, length_drop]; omega), h2]
      rw [hat6, h4, hat4, hat2]
      rfl
    dsimp only at h
    rw [hplace] at h
    split at h
    · next hok =>
        obtain ⟨-, rfl⟩ := Prod.mk.inj (some.inj h)
        refine ⟨?_, hok⟩
        rw [(readRRDomain_bounds _).2.2.2 hok, Rx.seek_add_offset hle, Rx.seek_rest hle]
        omega
    · cases h
  · cases h

end Readers

theorem readRRData_spec {behind : List UInt8} {rrType rdLength : Nat} {place rx' : Rx}
    {data : RRData} (h : readRRData behind rrType rdLength place = some (data, rx')) :
    (rx'.offset = place.offset + rdLength ↔ LengthFits rrType rdLength place) ∧
      ∀ name ∈ dataNames rrType place, (readRRDomain name).ok = true := by
  unfold readRRData at h
  unfold LengthFits dataNames
  dsimp only at h ⊢
  generalize rrType &&& 0x7FFF = kind at h ⊢
  -- the types whose data have no name
  have hplain : kind ≠ rrTypePTR → kind ≠ rrTypeSRV → rx'.offset = place.offset + rdLength →
      (rx'.offset = place.offset + rdLength ↔
        (kind = rrTypePTR → rdLength = nameEnd place.rest) ∧
          (kind = rrTypeSRV → rdLength = 6 + nameEnd (place.rest.drop 6))) ∧
      ∀ name ∈ (if kind = rrTypePTR then [place] else if kind = rrTypeSRV then
        [place.seek (place.offset + 6)] else []), (readRRDomain name).ok = true := by
    intro hptr hsrv hoffset
    refine ⟨iff_of_true hoffset ⟨fun h => absurd h hptr, fun h => absurd h hsrv⟩, ?_⟩
    rw [if_neg hptr, if_neg hsrv]
    exact fun _ hname => by cases hname
  split at h
  · next hkind =>
      subst hkind
      exact hplain (by decide) (by decide) (readRRAnswerA_takes h)
  · split at h
    · next hkind =>
        subst hkind
        obtain ⟨hoffset, hok⟩ := readRRAnswerPTR_takes h
        refine ⟨⟨fun heq => ⟨fun _ => by omega, fun hsrv => absurd hsrv (by decide)⟩,
          fun hfits => by rw [hoffset, hfits.1 rfl]⟩, ?_⟩
        rw [if_pos rfl]
        exact forall_mem_singleton.mpr hok
    · split at h
      · next hkind =>
          subst hkind
          exact hplain (by decide) (by decide) (readRRAnswerTXT_takes h)
      · split at h
        · next hptr _ hkind =>
            subst hkind
            obtain ⟨hoffset, hok⟩ := readRRAnswerSRV_takes h
            refine ⟨⟨fun heq => ⟨fun hptr' => absurd hptr' hptr, fun _ => by omega⟩,
              fun hfits => by rw [hoffset, hfits.2 rfl]⟩, ?_⟩
            rw [if_neg hptr, if_pos rfl]
            exact forall_mem_singleton.mpr hok
        · next hptr _ hsrv => exact hplain hptr hsrv (readRRAnswerGeneric_takes h)

def rootRecord (rdLength : UInt8) : Rx :=
  ⟨[0, 0, 12, 0, 1, 0, 0, 0, 9, 0, rdLength, 0, 0, 0, 0, 0], 0, Nat.zero_le _⟩

theorem rootRecord_domain (rdLength : UInt8) (place : Nat) (h : place = 0 ∨ place = 11) :
    readRRDomain ((rootRecord rdLength).seek place) =
      ⟨true, (rootRecord rdLength).seek (place + 1), [0], 1, 0⟩ := by
  rcases h with rfl | rfl
  · exact @readRRDomainLoop_zero 6 ((rootRecord rdLength).seek 0) [] 0 0 _ rfl (by decide)
  · exact @readRRDomainLoop_zero 6 ((rootRecord rdLength).seek 11) [] 0 0 _ rfl (by decide)

theorem rootRecord_data (rdLength : UInt8) : rdataAt (rootRecord rdLength) =
    some (⟨[0], ⟨12, 1⟩⟩, 9, 0 * 256 + rdLength.toNat, (rootRecord rdLength).seek 11) := by
  have hname := rootRecord_domain rdLength 0 (.inl rfl)
  have htype : ((rootRecord rdLength).seek 1).number 2 =
      some (12, (rootRecord rdLength).seek 3) := rfl
  have hclass : ((rootRecord rdLength).seek 3).number 2 =
      some (1, (rootRecord rdLength).seek 5) := rfl
  have httl : ((rootRecord rdLength).seek 5).number 4 =
      some (9, (rootRecord rdLength).seek 9) := rfl
  have hlength : ((rootRecord rdLength).seek 9).number 2 =
      some (0 * 256 + rdLength.toNat, (rootRecord rdLength).seek 11) := rfl
  unfold rdataAt readRRHeader
  change readRRDomain (rootRecord rdLength) = _ at hname
  rw [hname]
  dsimp only
  rw [if_pos rfl, htype, bind_some, hclass, Option.map_some, bind_some, httl,
    bind_some, hlength]
  rfl

theorem rootRecord_read {rdLength : UInt8} (h : rdLength ≠ 0) :
    readRRAnswer [] (rootRecord rdLength) =
      some (⟨⟨[0], ⟨12, 1⟩⟩, 9, .ptr [0]⟩, (rootRecord rdLength).seek 12) := by
  have hne : 0 * 256 + rdLength.toNat ≠ 0 := by
    have hnat : rdLength.toNat ≠ 0 := fun h0 => h (UInt8.toNat_inj.mp h0)
    omega
  have hptr : readRRAnswerPTR ((rootRecord rdLength).seek 11) (0 * 256 + rdLength.toNat) =
      some (.ptr [0], (rootRecord rdLength).seek 12) := by
    unfold readRRAnswerPTR
    rw [rootRecord_domain rdLength 11 (.inr rfl)]
    exact if_pos ⟨hne, rfl⟩
  have hkind : (12 &&& 0x7FFF) = rrTypePTR := by decide
  have hnotA : rrTypePTR ≠ rrTypeA := by decide
  rw [readRRAnswer_eq, rootRecord_data, bind_some]
  unfold readRRData
  dsimp only
  rw [hkind, if_neg hnotA, if_pos rfl, hptr]
  rfl

end Mdns
