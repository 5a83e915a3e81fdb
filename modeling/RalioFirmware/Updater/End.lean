import RalioFirmware.Updater.Run

/-!
# What `end` does

The checks of `end` only read the flash.  `finish_true` says what a
successful `end` has checked and what it leaves; the lemmas before it say the
same of the signature path, the MD5 path and `_verifyEnd`.
-/

open Word Bytes Nor Nor.Chip Esp

namespace Updater

variable {F : SpiFlash} {u u' : Updater F} {env : EndEnv}

variable {c c' : Chip F}

theorem flashReadWords_readOnly {address ptr size : Nat}
    {r : Option (List UInt8)} (h : flashReadWords address ptr size c = (r, c')) :
    ReadOnly c c' := by
  unfold flashReadWords at h
  split at h
  · obtain ⟨-, rfl⟩ := Prod.mk.inj h
    exact ReadOnly.refl c
  · exact (reads_of_read h).readOnly

theorem readSigLen_readOnly (u : Updater F) : ReadOnly u.chip u.readSigLen.2 := by
  unfold readSigLen
  dsimp only
  split <;> rename_i h <;> exact flashReadWords_readOnly h

theorem hashLoop_readOnly (startAddress binSize rounds offset : Nat) (buff : List UInt8)
    (c : Chip F) : ReadOnly c (hashLoop startAddress binSize rounds offset buff c).2 := by
  induction rounds generalizing offset buff c with
  | zero => exact ReadOnly.refl c
  | succ rounds ih =>
    unfold hashLoop
    split
    · dsimp only
      split <;> rename_i h <;> exact (flashReadWords_readOnly h).trans (ih _ _ _)
    · exact ReadOnly.refl c

theorem flashReadBytes_readOnly {address ptr size : Nat} {ok : Bool}
    {got : List UInt8} (hsize : size < 4294967296)
    (h : flashReadBytes address ptr size c = (ok, got, c')) : ReadOnly c c' :=
  Reads.readOnly (flashReadBytes_spec hsize h)

/-- The fields the checks of `end` read, and leave as they are. -/
structure EndKept (u u' : Updater F) : Prop where
  error : u'.error = u.error
  startAddress : u'.startAddress = u.startAddress
  command : u'.command = u.command
  rtc : u'.rtc = u.rtc
  md5 : u'.md5 = u.md5
  target_md5 : u'.target_md5 = u.target_md5
  verifier : u'.verifier = u.verifier
  readOnly : ReadOnly u.chip u'.chip

theorem EndKept.refl (u : Updater F) : EndKept u u :=
  ⟨rfl, rfl, rfl, rfl, rfl, rfl, rfl, ReadOnly.refl _⟩

variable {u'' : Updater F}

theorem EndKept.trans (h : EndKept u u') (h' : EndKept u' u'') :
    EndKept u u'' :=
  ⟨h'.error.trans h.error, h'.startAddress.trans h.startAddress, h'.command.trans h.command,
    h'.rtc.trans h.rtc, h'.md5.trans h.md5, h'.target_md5.trans h.target_md5,
    h'.verifier.trans h.verifier, h.readOnly.trans h'.readOnly⟩

theorem hashPayload_kept (env : EndEnv) (binSize : Nat) (u : Updater F) :
    EndKept u (u.hashPayload env binSize).2 ∧ (u.hashPayload env binSize).2.size = u.size :=
  ⟨⟨rfl, rfl, rfl, rfl, rfl, rfl, rfl, hashLoop_readOnly u.startAddress binSize (binSize / 128 + 1)
    0 env.buff u.chip⟩, rfl⟩

variable {v : Verifier} {sigLen : Nat}

theorem verifyHash_true {hashed : List UInt8} {binSize : Nat}
    (hlen : sigLen < 4294967296) (h : u.verifyHash env v hashed sigLen binSize = (true, u')) :
    EndKept u u' ∧ u'.size = u.size := by
  unfold verifyHash at h
  split at h
  · split at h
    · simp at h
    · rename_i block _
      generalize hread : flashReadBytes (u32 (u.startAddress + binSize)) block.ptr sigLen u.chip =
        r at h
      obtain ⟨ok, got, chip⟩ := r
      dsimp only at h
      split at h
      · obtain ⟨-, rfl⟩ := Prod.mk.inj h
        exact ⟨⟨rfl, rfl, rfl, rfl, rfl, rfl, rfl, flashReadBytes_readOnly hlen hread⟩, rfl⟩
      · simp at h
  · dsimp only at h
    split at h
    · obtain ⟨-, rfl⟩ := Prod.mk.inj h
      exact ⟨⟨rfl, rfl, rfl, rfl, rfl, rfl, rfl, ReadOnly.refl _⟩, rfl⟩
    · simp at h

def payloadSize (verifier : Option Verifier) (size : Nat) : Nat :=
  match verifier with
  | some v => if v.length > 0 then size - u32 (v.length + 4) else size
  | none => size

theorem checkSignature_true
    (h : u.checkSignature env v = (true, u')) :
    EndKept u u' ∧ u'.size = payloadSize (some v) u.size := by
  have hread := readSigLen_readOnly u
  unfold checkSignature at h
  dsimp only at h
  have hro : ReadOnly u.chip (if v.length > 0 then u.readSigLen else (0, u.chip)).2 := by
    split
    · exact hread
    · exact ReadOnly.refl _
  generalize (if v.length > 0 then u.readSigLen else (0, u.chip)) = r at h hro
  obtain ⟨sigLen, chip⟩ := r
  dsimp only at h hro
  split at h
  · simp at h
  · rename_i hsig
    obtain rfl : sigLen = v.length := by simpa using hsig
    split at h
    · simp at h
    · generalize hbin : (if v.length > 0 then u.size - u32 (v.length + 4) else u.size) =
        binSize at h
      have hu : EndKept u { u with chip := chip } := ⟨rfl, rfl, rfl, rfl, rfl, rfl, rfl, hro⟩
      generalize ({ u with chip := chip } : Updater F) = u₁ at h hu
      obtain ⟨hkept, -⟩ := hashPayload_kept env binSize u₁
      generalize u₁.hashPayload env binSize = r at h hkept
      obtain ⟨hashed, u₂⟩ := r
      dsimp only at h hkept
      split at h
      · simp at h
      · rename_i u₃ hv
        obtain ⟨-, rfl⟩ := Prod.mk.inj h
        have hkept₃ := (hu.trans hkept).trans (verifyHash_true v.length_lt hv).1
        exact ⟨⟨hkept₃.error, hkept₃.startAddress, hkept₃.command, hkept₃.rtc, hkept₃.md5,
          hkept₃.target_md5, hkept₃.verifier, hkept₃.readOnly⟩, hbin.symm⟩

theorem checkMd5_true (h : u.checkMd5 env = (true, u')) : EndKept u u' ∧ u'.size = u.size := by
  unfold checkMd5 at h
  split at h
  · dsimp only at h
    split at h
    · obtain ⟨-, rfl⟩ := Prod.mk.inj h
      exact ⟨⟨rfl, rfl, rfl, rfl, rfl, rfl, rfl, ReadOnly.refl _⟩, rfl⟩
    · simp at h
  · obtain ⟨-, rfl⟩ := Prod.mk.inj h
    exact ⟨EndKept.refl u, rfl⟩

theorem checkImage_true (h : u.checkImage env = (true, u')) :
    EndKept u u' ∧ u'.size = payloadSize u.verifier u.size := by
  unfold checkImage at h
  cases hv : u.verifier with
  | none =>
    rw [hv] at h
    exact checkMd5_true h
  | some v =>
    rw [hv] at h
    exact checkSignature_true h

theorem verifyEnd_true (h : u.verifyEnd = (true, u')) :
    EndKept u u' ∧ u'.size = u.size ∧
      (u.command = U_FLASH ∧ headerVerdict F (slice u.chip.cells u.startAddress 4) = none ∨
        u.command = U_FS) := by
  unfold verifyEnd at h
  split at h
  · rename_i hc
    split at h
    · simp at h
    · rename_i buf chip hread
      dsimp only at h
      split at h
      · simp at h
      · rename_i hverdict
        obtain ⟨-, rfl⟩ := Prod.mk.inj h
        refine ⟨⟨rfl, rfl, rfl, rfl, rfl, rfl, rfl, flashReadWords_readOnly hread⟩, rfl,
          .inl ⟨hc, ?_⟩⟩
        rw [flashReadWords, if_neg (by simp)] at hread
        rwa [(read_some hread).1] at hverdict
  · split at h
    · rename_i hc
      obtain ⟨-, rfl⟩ := Prod.mk.inj h
      exact ⟨EndKept.refl u, rfl, .inr hc⟩
    · simp at h

/-- What a successful `end` stages. -/
def stagedRtc (env : EndEnv) (u : Updater F) : Rtc :=
  if u.command = U_FLASH then
    ebootCommandWrite (copyCommand env u.startAddress (payloadSize u.verifier u.size)) u.rtc
  else u.rtc

/-- **A successful `end`** has only read the flash, has found an acceptable
header if the image is a sketch, and has staged start address and size. -/
theorem finish_true (h : u.finish env = (true, u')) :
    ReadOnly u.chip u'.chip ∧ u'.error = u.error ∧ u'.rtc = u.stagedRtc env ∧
      (u.command = U_FLASH ∧ headerVerdict F (slice u.chip.cells u.startAddress 4) = none ∨
        u.command = U_FS) := by
  rw [finish] at h
  generalize hcheck : u.checkImage env = r at h
  obtain ⟨ok, u₁⟩ := r
  cases ok with
  | false => simp at h
  | true =>
    obtain ⟨h₁, hsize₁⟩ := checkImage_true hcheck
    dsimp only at h
    generalize hver : u₁.verifyEnd = r at h
    obtain ⟨ok, u₂⟩ := r
    cases ok with
    | false => simp at h
    | true =>
      obtain ⟨h₂, hsize₂, hc⟩ := verifyEnd_true hver
      have hk := h₁.trans h₂
      dsimp only at h
      obtain ⟨-, rfl⟩ := Prod.mk.inj h
      rw [h₁.command, h₁.startAddress, h₁.readOnly.cells] at hc
      refine ⟨?_, ?_, ?_, hc⟩
      · split <;> exact hk.readOnly
      · split <;> exact hk.error
      · rw [stagedRtc, ← hk.command]
        split
        · show ebootCommandWrite (copyCommand env u₂.startAddress u₂.size) u₂.rtc = _
          rw [hk.startAddress, hsize₂, hsize₁, hk.rtc]
        · exact hk.rtc

/-! ## Every outcome of the checks -/

/-- What the checks of the image in `u` ask of their surroundings. -/
def Asked (u : Updater F) : Event → Prop
  | .hashAdd _ _ | .verify _ _ => True
  | .compareMd5 input => input = u.md5 ∧ u.verifier = none
  | .eraseSector _ | .flashWrite _ _ | .readBytes _ _ => False

/-- Whatever the checks find, they have only read the flash, they have
compared no digest but the one collected, and the error they may set is
neither of those set before them. -/
structure Checked (u u' : Updater F) : Prop where
  readOnly : ReadOnly u.chip u'.chip
  error : u'.error = .noData ∨ u'.error = .write → u'.error = u.error
  md5 : u'.md5 = u.md5
  verifier : u'.verifier = u.verifier
  events : ∃ evs, u'.log = u.log ++ evs ∧ ∀ e ∈ evs, Asked u e

theorem Checked.of_log {evs : List Event} (hc : ReadOnly u.chip c)
    (hevs : ∀ e ∈ evs, Asked u e) :
    Checked u { u with chip := c, log := u.log ++ evs } :=
  ⟨hc, fun _ => rfl, rfl, rfl, evs, rfl, hevs⟩

theorem Checked.of_chip (hc : ReadOnly u.chip c) : Checked u { u with chip := c } :=
  ⟨hc, fun _ => rfl, rfl, rfl, [], (List.append_nil _).symm, by simp⟩

theorem Checked.refl (u : Updater F) : Checked u u := .of_chip (ReadOnly.refl _)

theorem Checked.trans (h : Checked u u') (h' : Checked u' u'') :
    Checked u u'' := by
  obtain ⟨evs, hlog, hevs⟩ := h.events
  obtain ⟨evs', hlog', hevs'⟩ := h'.events
  refine ⟨h.readOnly.trans h'.readOnly, fun he => ?_, h'.md5.trans h.md5,
    h'.verifier.trans h.verifier, evs ++ evs', ?_, ?_⟩
  · have heq := h'.error he
    rw [heq] at he
    exact heq.trans (h.error he)
  · rw [hlog', hlog, List.append_assoc]
  · intro e he
    rcases List.mem_append.mp he with he | he
    · exact hevs e he
    · have := hevs' e he
      cases e <;> simp only [Asked, h.md5, h.verifier] at this ⊢
      exact this

theorem Checked.reset (h : Checked u u') : Checked u u'.reset :=
  ⟨h.readOnly, h.error, h.md5, h.verifier, h.events⟩

variable {e : UpdateError}

theorem Checked.setError (h : Checked u u') (hn : e ≠ .noData)
    (hw : e ≠ .write) : Checked u (u'.setError e) :=
  ⟨h.readOnly, fun he => he.elim (absurd · hn) (absurd · hw), h.md5, h.verifier, h.events⟩

theorem verifyHash_checked (env : EndEnv) (v : Verifier) (hashed : List UInt8)
    (binSize : Nat) (hlen : sigLen < 4294967296) (u : Updater F) :
    Checked u (u.verifyHash env v hashed sigLen binSize).2 := by
  unfold verifyHash
  split
  · split
    · exact (Checked.refl u).setError (by simp) (by simp)
    · rename_i block _
      generalize hread : flashReadBytes (u32 (u.startAddress + binSize)) block.ptr sigLen u.chip = r
      obtain ⟨ok, got, chip⟩ := r
      have hchecked : Checked u { u with
          chip := chip, log := u.log ++ [Event.verify hashed (memcpy block.bytes 0 got)] } :=
        .of_log (flashReadBytes_readOnly hlen hread) (by simp [Asked])
      dsimp only
      split
      · exact hchecked
      · exact hchecked.setError (by simp) (by simp)
  · have hchecked : Checked u { u with log := u.log ++ [Event.verify hashed []] } :=
      .of_log (ReadOnly.refl _) (by simp [Asked])
    dsimp only
    split
    · exact hchecked
    · exact hchecked.setError (by simp) (by simp)

theorem hashPayload_checked (env : EndEnv) (binSize : Nat) (u : Updater F) :
    Checked u (u.hashPayload env binSize).2 := by
  refine .of_log (hashLoop_readOnly u.startAddress binSize (binSize / 128 + 1) 0 env.buff u.chip)
    fun e he => ?_
  obtain ⟨piece, -, rfl⟩ := List.mem_map.mp he
  trivial

theorem checkSignature_checked (env : EndEnv) (v : Verifier) (u : Updater F) :
    Checked u (u.checkSignature env v).2 := by
  have hread := readSigLen_readOnly u
  unfold checkSignature
  dsimp only
  have hro : ReadOnly u.chip (if v.length > 0 then u.readSigLen else (0, u.chip)).2 := by
    split
    · exact hread
    · exact ReadOnly.refl _
  generalize (if v.length > 0 then u.readSigLen else (0, u.chip)) = r at hro
  obtain ⟨sigLen, chip⟩ := r
  have hu : Checked u { u with chip := chip } := .of_chip hro
  dsimp only
  split
  · exact (hu.setError (e := .sign) (by simp) (by simp)).reset
  · rename_i hsig
    obtain rfl : sigLen = v.length := by simpa using hsig
    split
    · exact (hu.setError (e := .sign) (by simp) (by simp)).reset
    · generalize (if v.length > 0 then u.size - u32 (v.length + 4) else u.size) = binSize
      generalize ({ u with chip := chip } : Updater F) = u₁ at hu ⊢
      have h₂ := hu.trans (hashPayload_checked env binSize u₁)
      generalize u₁.hashPayload env binSize = r at h₂ ⊢
      obtain ⟨hashed, u₂⟩ := r
      have h₃ := h₂.trans (verifyHash_checked env v hashed binSize v.length_lt u₂)
      dsimp only
      split <;> rename_i u₃ hv <;> rw [hv] at h₃
      · exact h₃.reset
      · exact ⟨h₃.readOnly, h₃.error, h₃.md5, h₃.verifier, h₃.events⟩

theorem checkMd5_checked (env : EndEnv) (hver : u.verifier = none) :
    Checked u (u.checkMd5 env).2 := by
  unfold checkMd5
  split
  · have hchecked : Checked u { u with log := u.log ++ [Event.compareMd5 u.md5] } :=
      .of_log (ReadOnly.refl _) (by simp [Asked, hver])
    dsimp only
    split
    · exact hchecked
    · exact hchecked.setError (by simp) (by simp)
  · exact Checked.refl u

theorem checkImage_checked (env : EndEnv) (u : Updater F) : Checked u (u.checkImage env).2 := by
  unfold checkImage
  split
  · exact checkSignature_checked env _ u
  · rename_i hver
    exact checkMd5_checked env hver

theorem headerVerdict_ne {buf : List UInt8} (h : headerVerdict F buf = some e) :
    e ≠ .noData ∧ e ≠ .write := by
  unfold headerVerdict at h
  repeat' split at h
  all_goals simp at h
  all_goals subst h; simp

theorem verifyEnd_checked (u : Updater F) : Checked u u.verifyEnd.2 := by
  unfold verifyEnd
  split
  · split
    · rename_i chip hread
      have hchecked : Checked u { u with chip := chip } := .of_chip (flashReadWords_readOnly hread)
      exact ⟨hchecked.readOnly, by simp [Updater.setError, Updater.reset], rfl, rfl,
        hchecked.events⟩
    · rename_i buf chip hread
      have hchecked : Checked u { u with chip := chip } := .of_chip (flashReadWords_readOnly hread)
      dsimp only
      split
      · rename_i e hverdict
        obtain ⟨hn, hw⟩ := headerVerdict_ne hverdict
        exact ⟨hchecked.readOnly, fun he => he.elim (absurd · hn) (absurd · hw), rfl, rfl,
          hchecked.events⟩
      · exact hchecked
  · split <;> exact Checked.refl u

theorem finish_checked (env : EndEnv) (u : Updater F) : Checked u (u.finish env).2 := by
  have h₁ := checkImage_checked env u
  unfold finish
  generalize u.checkImage env = r at h₁
  obtain ⟨ok, u₁⟩ := r
  cases ok with
  | false => exact h₁
  | true =>
    have h₂ := h₁.trans (verifyEnd_checked u₁)
    dsimp only
    generalize u₁.verifyEnd = r at h₂
    obtain ⟨ok, u₂⟩ := r
    cases ok with
    | false => exact h₂.reset
    | true =>
      dsimp only
      split <;> exact ⟨h₂.readOnly, h₂.error, h₂.md5, h₂.verifier, h₂.events⟩

/-! ## `end` after the writes -/

section

variable {u₀ : Updater F} {acc : List UInt8}

theorem endUpdate_dropped (h : Dropped u) (evenIfRemaining : Bool) :
    u.endUpdate env evenIfRemaining = (false, u.reset) := by
  rw [endUpdate, if_pos h.size]

variable {n : Nat}

theorem flushedLen_eq_zero_iff (hb : Begun u₀) :
    flushedLen u₀ n = 0 ↔ n ≤ u₀.bufferSize ∧ n ≠ u₀.size := by
  have hsize := hb.size_pos
  have hB : 0 < u₀.bufferSize := by rcases hb.bufferSize with h' | h' <;> omega
  rw [flushedLen]
  split
  · omega
  · rw [Nat.mul_eq_zero, Nat.div_eq_zero_iff]
    omega

theorem Staging.isFinished_iff (hb : Begun u₀) {f : Nat} (h : Staging u₀ acc f u) :
    u.isFinished ↔ f = u₀.size := by
  have hcur := h.current_lt hb
  have hstart := hb.start_lt
  have hsize := hb.size_lt
  rw [isFinished, h.current, h.startAddress, h.size, u32]
  omega

theorem flushedLen_eq_size_iff (hb : Begun u₀) (hle : n ≤ u₀.size) :
    flushedLen u₀ n = u₀.size ↔ n = u₀.size := by
  have hpos := hb.size_pos
  have := Nat.div_mul_le_self (n - 1) u₀.bufferSize
  rw [flushedLen]
  split <;> omega

theorem Staging.not_hasError (hb : Begun u₀) {f : Nat} (h : Staging u₀ acc f u) :
    ¬ u.hasError := fun he => he (h.error.trans hb.error)

theorem Accepted.end_noData (hb : Begun u₀) (h : Accepted u₀ acc u)
    (h0 : acc.length ≤ u₀.bufferSize ∧ acc.length ≠ u₀.size) (evenIfRemaining : Bool) :
    u.endUpdate env evenIfRemaining = (false, (u.setError .noData).reset) := by
  have hf := (flushedLen_eq_zero_iff hb).mpr h0
  have hsize := hb.size_pos
  rw [endUpdate, if_neg (by rw [h.size]; omega), if_pos ((h.progress hb).trans hf)]
  dsimp only
  rw [if_pos (.inl (by simp [hasError, setError, reset]))]

theorem Accepted.end_eq (hb : Begun u₀) (h : Accepted u₀ acc u)
    (h0 : ¬ (acc.length ≤ u₀.bufferSize ∧ acc.length ≠ u₀.size)) (evenIfRemaining : Bool) :
    u.endUpdate env evenIfRemaining =
      if evenIfRemaining then u.flushRemaining.finish env
      else if acc.length = u₀.size then u.finish env else (false, u.reset) := by
  have hf : ¬ u.progress = 0 := by
    rw [h.progress hb, flushedLen_eq_zero_iff hb]
    exact h0
  have hsize := hb.size_pos
  have hfin : u.isFinished ↔ acc.length = u₀.size := by
    rw [h.isFinished_iff hb, flushedLen_eq_size_iff hb h.fits]
  rw [endUpdate, if_neg (by rw [h.size]; omega), if_neg hf]
  dsimp only
  cases evenIfRemaining with
  | true => rw [if_neg (by simp [h.not_hasError hb]), if_pos rfl, if_pos rfl]
  | false =>
    by_cases hacc : acc.length = u₀.size
    · rw [if_neg (by simp [h.not_hasError hb, hfin, hacc]), if_neg (by simp), if_neg (by simp),
        if_pos hacc]
    · rw [if_pos (.inr ⟨by rwa [hfin], rfl⟩), if_neg (by simp), if_neg hacc]

/-- The state `end` checks, everything accepted being flushed: its size is
that of what was accepted. -/
structure Flushed (u₀ : Updater F) (acc : List UInt8) (u : Updater F) : Prop where
  error : u.error = .ok
  size : u.size = acc.length
  startAddress : u.startAddress = u₀.startAddress
  command : u.command = u₀.command
  target_md5 : u.target_md5 = u₀.target_md5
  verifier : u.verifier = u₀.verifier
  rtc : u.rtc = u₀.rtc
  md5 : u.md5 = if u₀.verifier.isNone then u₀.toHash acc else []
  cells : u.chip.cells = rewritten 4096 u₀.chip.cells u₀.startAddress (u₀.toProgram acc)
  within : acc = [] ∨ u₀.startAddress + acc.length ≤ F.capacity

theorem Staging.flushed (hb : Begun u₀) (h : Staging u₀ acc acc.length u)
    (hn : n = acc.length) : Flushed u₀ acc { u with size := n } where
  error := h.error.trans hb.error
  size := hn
  startAddress := h.startAddress
  command := h.command
  target_md5 := h.target_md5
  verifier := h.verifier
  rtc := h.rtc
  md5 := by rw [← List.take_length (l := acc)]; exact h.md5
  cells := by
    have := h.cells
    rwa [List.take_length] at this
  within := h.within.imp_left List.length_eq_zero_iff.mp

theorem Accepted.flushed (hb : Begun u₀) (h : Accepted u₀ acc u) (hacc : acc.length = u₀.size) :
    Flushed u₀ acc u := by
  have hf : flushedLen u₀ acc.length = acc.length := by rw [hacc, flushedLen_size]
  have hst := h.toStaging
  rw [hf] at hst
  exact hst.flushed hb (h.size.trans hacc.symm)

theorem Accepted.flushRemaining (hb : Begun u₀) (h : Accepted u₀ acc u)
    (hok : 0 < u.bufferLen → u.writeBuffer.1 = true) : Flushed u₀ acc u.flushRemaining := by
  have hlen := h.bufferLen
  rw [Updater.flushRemaining]
  split
  · rename_i hpos
    have hne : acc.length ≠ u₀.size := by
      intro hacc
      rw [hacc, flushedLen_size] at hlen
      omega
    have hst := (h.flush hb (flushedLen_mod hne)
      (Prod.ext (hok hpos) rfl : u.writeBuffer = (true, _))).2
    exact hst.flushed hb (hst.progress hb)
  · have hst := h.toStaging
    rw [show flushedLen u₀ acc.length = acc.length by omega] at hst
    exact hst.flushed hb (hst.progress hb)

end

end Updater
