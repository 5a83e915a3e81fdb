import RalioFirmware.Updater.Truthful

/-!
# What the MD5 covers

The first flush of a sketch replaces the mode byte of its header and puts
back what `magicFlashChipMode` made of it, which is one and the same byte for
every mode it does not know.  `digest_covers_iff` says when the digest that
`end` compares is that of the image all the same.
-/

open Word Bytes Nor Nor.Chip Esp List

namespace Updater

variable {F : SpiFlash} {env : EndEnv}

/-- The mode byte of an image survives the first flush on a chip in mode
`mode`: there is none, the core knows it, it is the unknown mode itself, or
it is not touched because the chip's mode is just as unknown. -/
def ModeSurvives (mode : UInt8) (image : List UInt8) : Prop :=
  image.length < 3 ∨ image.getD 2 0 ≤ 3 ∨ image.getD 2 0 = FM_UNKNOWN ∨ mode = FM_UNKNOWN

theorem magicFlashChipMode_eq_self_iff (byte : UInt8) :
    magicFlashChipMode byte = byte ↔ byte ≤ 3 ∨ byte = FM_UNKNOWN := by
  unfold magicFlashChipMode
  by_cases h : byte > 3
  · rw [if_pos h]
    have hle : ¬ byte ≤ 3 := UInt8.not_le.mpr h
    simp [hle, eq_comm]
  · grind

theorem unpatchMode_eq_self_iff (mode : UInt8) {image : List UInt8}
    (hmagic : image.getD 0 0 ≠ 0x1f) :
    unpatchMode mode image = image ↔ ModeSurvives mode image := by
  unfold unpatchMode ModeSurvives
  by_cases hmode : magicFlashChipMode (image.getD 2 0) = mode
  · rw [if_neg (fun h => h.2 hmode)]
    refine iff_of_true rfl ?_
    by_cases hb : image.getD 2 0 > 3
    · exact .inr (.inr (.inr (by rw [← hmode, magicFlashChipMode, if_pos hb])))
    · exact .inr (.inl (UInt8.not_lt.mp hb))
  · rw [if_pos ⟨hmagic, hmode⟩]
    by_cases hlen : image.length < 3
    · exact iff_of_true (set_eq_of_length_le (by omega)) (.inl hlen)
    · have hget : image.getD 2 0 = image[2] := by
        rw [getD_eq_getElem?_getD, getElem?_eq_getElem (by omega), Option.getD_some]
      have hset : image.set 2 (magicFlashChipMode (image.getD 2 0)) = image ↔
          magicFlashChipMode (image.getD 2 0) = image.getD 2 0 := by
        constructor
        · intro h
          have h2 : (image.set 2 (magicFlashChipMode (image.getD 2 0)))[2]? = image[2]? := by rw [h]
          rw [getElem?_set_self (by omega), getElem?_eq_getElem (by omega), ← hget] at h2
          exact Option.some.inj h2
        · intro h
          rw [h, hget, set_getElem_self]
      rw [hset, magicFlashChipMode_eq_self_iff]
      constructor
      · grind
      · rintro (h | h | h | h)
        · exact absurd h hlen
        · exact .inl h
        · exact .inr h
        · refine .inl (UInt8.not_lt.mp fun hb => hmode ?_)
          rw [h, magicFlashChipMode, if_pos hb]

theorem not_compareMd5_of_flush {evs : List Event} {address size : Nat}
    (h : evs <+: flushEvents address size) (input : List UInt8) : Event.compareMd5 input ∉ evs := by
  intro hmem
  have := h.subset hmem
  unfold flushEvents at this
  split at this <;> simp at this

theorem finish_compares {u v u₂ : Updater F} {r : Bool} {before evs : List Event}
    (hbefore : v.log = u.log ++ before) (hend : v.finish env = (r, u₂))
    (hlog : u₂.log = u.log ++ evs) {input : List UInt8} (hcmp : Event.compareMd5 input ∈ evs)
    (hnone : Event.compareMd5 input ∉ before) : input = v.md5 ∧ v.verifier = none := by
  obtain ⟨asked, hasked, hevs⟩ := (finish_checked env v).events
  rw [hend, hbefore, hlog, append_assoc] at hasked
  rw [append_cancel_left hasked] at hcmp
  exact hevs _ ((mem_append.mp hcmp).resolve_left hnone)

/-- **What the MD5 covers.**  Of a sketch, the digest that `end` compares is
that of the bytes written exactly when their mode byte survives the first
flush and `end` has not lost the last one. -/
theorem digest_covers_iff {L : Layout} {benv : BeginEnv} {size : Nat} (hsize : size < 4294967296)
    {u u₀ u₁ u₂ : Updater F} (hbegin : beginUpdate L benv size U_FLASH u = (true, u₀))
    {expected_md5 : Option (List Char)} {chunks : List (List UInt8)} {acc : List UInt8}
    (hwrite : writeAll chunks (u₀.announce expected_md5) = (acc, u₁))
    (hmagic : chunks.flatten.head? = some 0xE9) {even r : Bool}
    (hend : u₁.endUpdate env even = (r, u₂)) {evs : List Event} (hlog : u₂.log = u₁.log ++ evs)
    {input : List UInt8} (hcmp : Event.compareMd5 input ∈ evs) :
    input = chunks.flatten ↔
      ModeSurvives (u₀.announce expected_md5).chipMode chunks.flatten ∧
        ¬ (even = true ∧ 0 < u₁.bufferLen ∧ u₁.writeBuffer.1 = false) := by
  have hcommand : (u₀.announce expected_md5).command = U_FLASH := by
    obtain ⟨text, hann⟩ := announce_eq expected_md5 u₀
    rw [hann]
    exact (beginUpdate_readOnly hbegin).2.2.2.1
  have hb := (beginUpdate_begun hsize hbegin).announce expected_md5
  generalize u₀.announce expected_md5 = v at *
  have hquiet : u₂.log ≠ u₁.log := by
    intro h
    rw [hlog, append_right_eq_self] at h
    rw [h] at hcmp
    cases hcmp
  have hhash : v.toHash chunks.flatten = chunks.flatten ↔
      ModeSurvives v.chipMode chunks.flatten := by
    rw [toHash, if_pos ((hb.atHeader_iff).mpr hcommand)]
    refine unpatchMode_eq_self_iff _ ?_
    rw [getD_eq_getElem?_getD, ← head?_eq_getElem?, hmagic]
    decide
  rcases hb.accepted.writeAll hb hwrite with ⟨rfl, hacc⟩ | hdrop
  · rw [nil_append] at hacc
    generalize chunks.flatten = image at *
    have hflushed : ∀ w : Updater F, Flushed v image w → w.verifier = none → input = w.md5 →
        (input = image ↔ ModeSurvives v.chipMode image) := by
      intro w hw hver hin
      rw [hw.verifier] at hver
      rw [hin, hw.md5, hver, ← hhash]
      rfl
    by_cases h0 : image.length ≤ v.bufferSize ∧ image.length ≠ v.size
    · rw [hacc.end_noData hb h0] at hend
      obtain ⟨-, rfl⟩ := Prod.mk.inj hend
      exact absurd rfl hquiet
    · rw [hacc.end_eq hb h0] at hend
      cases even with
      | true =>
        rw [if_pos rfl] at hend
        by_cases hpos : 0 < u₁.bufferLen
        · obtain ⟨before, hprefix, hbefore⟩ :=
            writeBuffer_log (Prod.eta _ : (u₁.writeBuffer.1, u₁.writeBuffer.2) = _).symm
          have hflog : u₁.flushRemaining.log = u₁.log ++ before := by
            rw [Updater.flushRemaining, if_pos hpos, ← hbefore]
          obtain ⟨hin, hver⟩ := finish_compares hflog hend hlog hcmp
            (not_compareMd5_of_flush hprefix input)
          cases hok : u₁.writeBuffer.1 with
          | true =>
            rw [hflushed _ (hacc.flushRemaining hb fun _ => hok) hver hin]
            simp
          | false =>
            -- The digest is that of what had been flushed before.
            obtain ⟨c, lost, e, -, -, heq, -⟩ :=
              writeBuffer_false (Prod.ext hok rfl : u₁.writeBuffer = (false, u₁.writeBuffer.2))
            have hmd5 : u₁.flushRemaining.md5 = u₁.md5 := by
              rw [Updater.flushRemaining, if_pos hpos, heq]
              rfl
            have hver' : v.verifier = none := by
              rw [Updater.flushRemaining, if_pos hpos, heq] at hver
              exact hacc.verifier.symm.trans hver
            refine iff_of_false (fun himage => ?_) (by simp [hpos])
            have hlen := congrArg length himage
            have hbuf := hacc.bufferLen
            rw [hin, hmd5, hacc.md5, hver', Option.isNone_none, if_pos rfl, toHash_length,
              length_take] at hlen
            omega
        · have hrem := hacc.flushRemaining hb fun h => absurd h hpos
          have hflog : u₁.flushRemaining.log = u₁.log ++ [] := by
            rw [Updater.flushRemaining, if_neg hpos, append_nil]
          obtain ⟨hin, hver⟩ := finish_compares hflog hend hlog hcmp (by simp)
          rw [hflushed _ hrem hver hin]
          simp [hpos]
      | false =>
        rw [if_neg (by simp)] at hend
        split at hend
        · rename_i hlen
          obtain ⟨hin, hver⟩ := finish_compares (append_nil _).symm hend hlog hcmp (by simp)
          rw [hflushed _ (hacc.flushed hb hlen) hver hin]
          simp
        · obtain ⟨-, rfl⟩ := Prod.mk.inj hend
          exact absurd rfl hquiet
  · rw [endUpdate_dropped hdrop] at hend
    obtain ⟨-, rfl⟩ := Prod.mk.inj hend
    exact absurd rfl hquiet

/-- A sketch in a mode the core knows. -/
theorem digest_covers_sample :
    let begun := sampleBegun (fun _ => false) 5
    let written := writeAll [[0xE9, 1], [2, 0, 7]] (begun.announce (some (replicate 32 'a')))
    let ended := written.2.endUpdate sampleEnd false
    (begun.announce (some (replicate 32 'a'))).chipMode = 0 ∧
      ended.2.log = written.2.log ++ [.compareMd5 [0xE9, 1, 2, 0, 7]] ∧
      ModeSurvives (begun.announce (some (replicate 32 'a'))).chipMode [0xE9, 1, 2, 0, 7] := by
  intro begun written ended
  have hlog : ended.2.log = written.2.log ++ [.compareMd5 [0xE9, 1, 2, 0, 7]] := by decide +kernel
  have hwrite : writeAll [[0xE9, 1], [2, 0, 7]] (begun.announce (some (replicate 32 'a'))) =
      (written.1, written.2) := (Prod.eta _).symm
  have hend : written.2.endUpdate sampleEnd false = (ended.1, ended.2) := (Prod.eta _).symm
  have hcovers := digest_covers_iff (by decide) sampleBegun_eq hwrite (by decide) hend hlog
    (mem_singleton.mpr rfl)
  exact ⟨by decide +kernel, hlog, (hcovers.mp rfl).1⟩

/-- A sketch with mode byte 7 on a chip in mode 0: what is hashed has 0xFF
there. -/
theorem digest_not_covered :
    let begun := sampleBegun (fun _ => false) 5
    let written := writeAll [[0xE9, 1, 7, 0, 5]] (begun.announce (some (replicate 32 'a')))
    let ended := written.2.endUpdate sampleEnd false
    ¬ ∀ input, Event.compareMd5 input ∈ ended.2.log → input = [0xE9, 1, 7, 0, 5] := by
  intro begun written ended h
  have hcmp : Event.compareMd5 [0xE9, 1, 0xFF, 0, 5] ∈ ended.2.log := by decide +kernel
  exact absurd (h _ hcmp) (by decide)

end Updater
