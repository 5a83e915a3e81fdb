import RalioFirmware.Updater.Flush

/-!
# The state while an image is written

`Begun` is what a successful `begin` leaves.  `Staging u₀ acc f u` relates it
to every later state: the bytes `acc` have been accepted, the first `f` of
them are in flash and hashed, the others in the buffer.  A flush keeps it
(`Staging.flush`), so does the loop of `write` (`Staging.writeLoop`), and
after a whole `write` the flushed part is a function of the number of bytes
accepted (`Staging.write`).
-/

open Word Bytes Nor Nor.Chip Esp List

namespace Updater

variable {F : SpiFlash}

/-- What a successful `begin` leaves. -/
structure Begun (u : Updater F) : Prop where
  error : u.error = .ok
  bufferPtr : u.bufferPtr ≠ 0
  buffer : u.buffer.length = u.bufferSize
  bufferSize : u.bufferSize = 4096 ∨ u.bufferSize = 256
  bufferLen : u.bufferLen = 0
  size_pos : 0 < u.size
  size_lt : u.size < 4294967296
  start_aligned : u.startAddress % 4096 = 0
  start_lt : u.startAddress < 3221225472
  current : u.currentAddress = u.startAddress
  command : u.command = U_FLASH ∨ u.command = U_FS
  md5 : u.md5 = []

/-- What flushing `f` bytes through a buffer of `bufferSize` bytes asks of the
chip. -/
def flushLog (startAddress bufferSize f : Nat) : List Event :=
  (List.range ((f + bufferSize - 1) / bufferSize)).flatMap fun k =>
    flushEvents (startAddress + k * bufferSize) (min bufferSize (f - k * bufferSize))

/-- The fields that stay as they are until the update ends or is dropped. -/
structure Kept (u₀ u : Updater F) : Prop where
  error : u.error = u₀.error
  bufferPtr : u.bufferPtr = u₀.bufferPtr
  bufferSize : u.bufferSize = u₀.bufferSize
  size : u.size = u₀.size
  startAddress : u.startAddress = u₀.startAddress
  command : u.command = u₀.command
  target_md5 : u.target_md5 = u₀.target_md5
  verifier : u.verifier = u₀.verifier
  rtc : u.rtc = u₀.rtc
  sketchSize : u.sketchSize = u₀.sketchSize

/-- The update begun in `u₀` has accepted `acc` and flushed `f` bytes. -/
structure Staging (u₀ : Updater F) (acc : List UInt8) (f : Nat) (u : Updater F) : Prop
    extends Kept u₀ u where
  buffer_length : u.buffer.length = u₀.bufferSize
  buffered : u.buffered = acc.drop f
  bufferLen : f + u.bufferLen = acc.length
  bufferLen_le : u.bufferLen ≤ u₀.bufferSize
  current : u.currentAddress = u₀.startAddress + f
  within : f = 0 ∨ u₀.startAddress + f ≤ F.capacity
  md5 : u.md5 = if u₀.verifier.isNone then u₀.toHash (acc.take f) else []
  untouched : f = 0 → u.chip = u₀.chip
  cells : u.chip.cells =
    rewritten 4096 u₀.chip.cells u₀.startAddress (u₀.toProgram (acc.take f))
  log : u.log = u₀.log ++ flushLog u₀.startAddress u₀.bufferSize f

section

variable {u₀ u u' : Updater F} {acc : List UInt8} {f : Nat}

theorem Begun.staging (hb : Begun u₀) : Staging u₀ [] 0 u₀ where
  toKept := ⟨rfl, rfl, rfl, rfl, rfl, rfl, rfl, rfl, rfl, rfl⟩
  buffer_length := hb.buffer
  buffered := by simp [Updater.buffered, hb.bufferLen]
  bufferLen := by simp [hb.bufferLen]
  bufferLen_le := by simp [hb.bufferLen]
  current := by simp [hb.current]
  within := .inl rfl
  md5 := by
    have : u₀.toHash [] = [] := length_eq_zero_iff.mp (by simp)
    simp [hb.md5, this]
  untouched _ := rfl
  cells := by
    have : u₀.toProgram [] = [] := length_eq_zero_iff.mp (by simp)
    rw [take_nil, this, rewritten_nil (by decide)]
  log := by
    have : (0 + u₀.bufferSize - 1) / u₀.bufferSize = 0 := by
      rcases hb.bufferSize with h | h <;> rw [h]
    rw [flushLog, this, range_zero, flatMap_nil, append_nil]

theorem Begun.start_u32 (hb : Begun u₀) : u32 u₀.startAddress = u₀.startAddress :=
  u32_of_lt (by have := hb.start_lt; omega)

theorem Staging.current_lt (hb : Begun u₀) (h : Staging u₀ acc f u) :
    u₀.startAddress + f < 3221225472 := by
  have := hb.start_lt
  have := F.capacity_le
  rcases h.within with h | h <;> omega

theorem Staging.progress (hb : Begun u₀) (h : Staging u₀ acc f u) : u.progress = f := by
  have := h.current_lt hb
  rw [Updater.progress, h.current, h.startAddress, sub32_self_add _ _ (by omega)]

theorem Staging.atHeader_iff (hb : Begun u₀) (h : Staging u₀ acc f u) :
    u.atHeader ↔ f = 0 ∧ u₀.command = U_FLASH := by
  rw [atHeader, h.current, h.startAddress, h.command, hb.start_u32]
  constructor
  · rintro ⟨h₁, h₂⟩
    exact ⟨by omega, h₂⟩
  · rintro ⟨rfl, h₂⟩
    exact ⟨rfl, h₂⟩

theorem Begun.atHeader_iff (hb : Begun u₀) : u₀.atHeader ↔ u₀.command = U_FLASH := by
  have := hb.staging.atHeader_iff hb
  simpa using this

theorem Staging.take_append_buffered (h : Staging u₀ acc f u) :
    acc.take f ++ u.buffered = acc := by
  rw [h.buffered, take_append_drop]

theorem Staging.toProgram_append (hb : Begun u₀) (h : Staging u₀ acc f u)
    (hf : f % u₀.bufferSize = 0) :
    u₀.toProgram (acc.take f) ++ u.toProgram u.buffered = u₀.toProgram acc ∧
      u₀.toHash (acc.take f) ++ u.toHash u.buffered = u₀.toHash acc := by
  have hlen := h.bufferLen
  by_cases hf0 : f = 0
  · subst hf0
    have hmode : u.chipMode = u₀.chipMode := by
      simp only [chipMode, eraseIfAtSector, h.current, hb.current, h.untouched rfl, Nat.add_zero]
      split
      · rfl
      · simp only [h.untouched rfl]
    have hat : u.atHeader ↔ u₀.atHeader := by
      rw [h.atHeader_iff hb, hb.atHeader_iff]
      simp
    have hbuf : u.buffered = acc := by rw [h.buffered, drop_zero]
    have hnil : u₀.toProgram [] = [] ∧ u₀.toHash [] = [] :=
      ⟨length_eq_zero_iff.mp (by simp), length_eq_zero_iff.mp (by simp)⟩
    rw [take_zero, hnil.1, hnil.2, hbuf]
    simp only [nil_append, toProgram, toHash, hmode, hat, and_self]
  · have hlen3 : 3 ≤ (acc.take f).length := by
      rw [length_take]
      rcases hb.bufferSize with h' | h' <;> rw [h'] at hf <;> omega
    have hat : ¬ u.atHeader := by
      rw [h.atHeader_iff hb]
      simp [hf0]
    have hacc := h.take_append_buffered
    simp only [toProgram, toHash, if_neg hat]
    split
    · rw [← patchMode_append _ _ hlen3, ← unpatchMode_append _ _ hlen3, hacc]
      exact ⟨rfl, rfl⟩
    · exact ⟨hacc, hacc⟩

variable {n : Nat}

theorem flushLog_add {startAddress bufferSize : Nat} (hf : f % bufferSize = 0) (hn : 0 < n)
    (hle : n ≤ bufferSize) :
    flushLog startAddress bufferSize (f + n) =
      flushLog startAddress bufferSize f ++ flushEvents (startAddress + f) n := by
  have hB : 0 < bufferSize := by omega
  obtain ⟨k, rfl⟩ := Nat.dvd_of_mod_eq_zero hf
  have h₁ : (bufferSize * k + bufferSize - 1) / bufferSize = k := by
    rw [show bufferSize * k + bufferSize - 1 = bufferSize - 1 + bufferSize * k by omega,
      Nat.add_mul_div_left _ _ hB, Nat.div_eq_of_lt (by omega), Nat.zero_add]
  have h₂ : (bufferSize * k + n + bufferSize - 1) / bufferSize = k + 1 := by
    rw [show bufferSize * k + n + bufferSize - 1 = n - 1 + bufferSize * (k + 1) by
        rw [Nat.mul_succ]; omega,
      Nat.add_mul_div_left _ _ hB, Nat.div_eq_of_lt (by omega), Nat.zero_add]
  rw [flushLog, flushLog, h₁, h₂, range_succ, flatMap_append, flatMap_singleton]
  congr 1
  · -- The flushes before the new one took whole buffers.
    rw [flatMap_def, flatMap_def, map_congr_left]
    intro j hj
    have hj : j + 1 ≤ k := mem_range.mp hj
    have := Nat.mul_le_mul_left bufferSize hj
    rw [Nat.mul_succ] at this
    rw [Nat.mul_comm j, Nat.min_eq_left (by omega), Nat.min_eq_left (by omega)]
  · rw [Nat.mul_comm k, Nat.add_sub_cancel_left, Nat.min_eq_right hle]

/-- **A flush keeps `Staging`**: afterwards everything accepted is flushed. -/
theorem Staging.flush (hb : Begun u₀) (h : Staging u₀ acc f u) (hf : f % u₀.bufferSize = 0)
    (hw : u.writeBuffer = (true, u')) : f < acc.length ∧ Staging u₀ acc acc.length u' := by
  obtain ⟨hne, c₁, c₂, c₃, he, hro, hprog, rfl⟩ := writeBuffer_true hw
  have hlen := h.bufferLen
  have hle := h.bufferLen_le
  have hbuflen : u.buffered.length = u.bufferLen := by
    rw [h.buffered, length_drop]
    omega
  have hpos := length_pos_iff.mpr hne
  obtain ⟨hprogram, hhash⟩ := h.toProgram_append hb hf
  have hstart := hb.start_aligned
  have hcap : u₀.startAddress + acc.length ≤ F.capacity := by
    have := hprog.within (length_pos_iff.mp (by simpa using hpos))
    rw [toProgram_length, hbuflen, h.current] at this
    omega
  have hmax := F.capacity_le
  have htake : (u₀.toProgram (acc.take f)).length = f := by simp; omega
  have herase : if (u₀.toProgram (acc.take f)).length % 4096 = 0 then
      u.chip.erase ((u₀.startAddress + (u₀.toProgram (acc.take f)).length) / 4096) = (true, c₁)
      else c₁.cells = u.chip.cells := by
    rw [ErasesTo, h.current] at he
    rw [htake]
    split
    · rwa [if_pos (by omega)] at he
    · grind
  have hfit : (u₀.toProgram (acc.take f)).length % 4096 + (u.toProgram u.buffered).length ≤
      4096 := by
    rw [htake, toProgram_length, hbuflen]
    rcases hb.bufferSize with h' | h' <;> rw [h'] at hf hle <;> omega
  have hcells : c₃.cells = rewritten 4096 u₀.chip.cells u₀.startAddress
      (u₀.toProgram (acc.take f) ++ u.toProgram u.buffered) := by
    refine rewritten_append (k := u₀.startAddress / 4096) (by omega) ?_ hfit h.cells herase
      fun x => ?_
    · exact length_pos_iff.mp (by simpa using hpos)
    · rw [hprog.cells x, hro.cells, h.current, htake]
  refine ⟨by omega, ?_⟩
  exact {
    toKept := ⟨h.error, h.bufferPtr, h.bufferSize, h.size, h.startAddress, h.command,
      h.target_md5, h.verifier, h.rtc, h.sketchSize⟩
    buffer_length := (toHash_length _ _).trans h.buffer_length
    buffered := by simp [Updater.buffered]
    bufferLen := rfl
    bufferLen_le := Nat.zero_le _
    current := by
      show u32 (u.currentAddress + u.bufferLen) = _
      rw [h.current, u32_of_lt (by omega)]
      omega
    within := .inr hcap
    md5 := by
      show (if u.verifier.isNone then u.md5 ++ u.toHash u.buffered else u.md5) = _
      rw [h.verifier, take_length, ← hhash, h.md5]
      split <;> rfl
    untouched := by omega
    cells := by
      rw [take_length, ← hprogram]
      exact hcells
    log := by
      show u.log ++ flushEvents u.currentAddress u.bufferLen = _
      rw [h.log, append_assoc, h.current, ← flushLog_add hf (by omega) hle, hlen] }

theorem Staging.fill {bytes : List UInt8} (h : Staging u₀ acc f u)
    (hfit : u.bufferLen + bytes.length ≤ u₀.bufferSize) :
    Staging u₀ (acc ++ bytes) f (u.fill bytes) := by
  have hlen := h.bufferLen
  have hmem : u.bufferLen + bytes.length ≤ u.buffer.length := by rw [h.buffer_length]; exact hfit
  have htake : (acc ++ bytes).take f = acc.take f := take_append_of_le_length (by omega)
  exact {
    toKept := ⟨h.error, h.bufferPtr, h.bufferSize, h.size, h.startAddress, h.command,
      h.target_md5, h.verifier, h.rtc, h.sketchSize⟩
    buffer_length := (memcpy_length hmem).trans h.buffer_length
    buffered := by
      rw [drop_append_of_le_length (by omega), ← h.buffered]
      exact memcpy_take hmem
    bufferLen := by
      rw [length_append]
      show f + (u.bufferLen + bytes.length) = _
      omega
    bufferLen_le := hfit
    current := h.current
    within := h.within
    md5 := by rw [htake]; exact h.md5
    untouched := h.untouched
    cells := by rw [htake]; exact h.cells
    log := h.log }

structure Dropped (u : Updater F) : Prop where
  error : u.error ≠ .ok
  size : u.size = 0
  bufferLen : u.bufferLen = 0

variable {e : UpdateError}

theorem flushError_ne (he : e = .erase ∨ e = .write) : e ≠ .ok := by
  rcases he with rfl | rfl <;> simp

theorem setError_dropped (he : e ≠ .ok) (u : Updater F) :
    Dropped (u.setError e) := ⟨he, rfl, rfl⟩

theorem Staging.round (hb : Begun u₀) {bytes : List UInt8} {ok : Bool} (h : Staging u₀ acc f u)
    (hf : f % u₀.bufferSize = 0) (hfull : u.bufferLen + bytes.length = u₀.bufferSize)
    (hw : (u.fill bytes).writeBuffer = (ok, u')) :
    if ok then Staging u₀ (acc ++ bytes) (f + u₀.bufferSize) u' ∧ u'.bufferLen = 0
    else Dropped u' ∧ u.chip.faults < u'.chip.faults := by
  have hB : 0 < u₀.bufferSize := by rcases hb.bufferSize with h' | h' <;> omega
  have hfill : Staging u₀ (acc ++ bytes) f (u.fill bytes) := h.fill (by omega)
  have hlen : (u.fill bytes).bufferLen = u₀.bufferSize := hfull
  have hacc := hfill.bufferLen
  cases ok with
  | true =>
    obtain ⟨-, hst⟩ := hfill.flush hb hf hw
    have hempty := hst.bufferLen
    rw [← hacc, hlen] at hst hempty
    exact ⟨hst, by omega⟩
  | false =>
    obtain ⟨c, evs, e, he, -, rfl, -, hfault⟩ := writeBuffer_false hw
    refine ⟨setError_dropped (flushError_ne he) _, hfault ?_ ?_⟩
    · rw [hfill.bufferPtr]
      exact hb.bufferPtr
    · rw [hfill.buffered]
      exact length_pos_iff.mp (by rw [length_drop]; omega)

variable {rounds : Nat}

/-- **The loop of `write` keeps `Staging`.**  When it ends, what is left fits
the buffer; if it flushed at all, the buffer is empty and something is left
for it. -/
theorem Staging.writeLoop (hb : Begun u₀) {data left : List UInt8} {ok : Bool}
    (h : Staging u₀ acc f u) (hf : f % u₀.bufferSize = 0)
    (hr : data.length + (if u.bufferLen = u₀.bufferSize then 1 else 0) < rounds)
    (hw : Updater.writeLoop rounds data u = (ok, left, u')) :
    ∃ taken, data = taken ++ left ∧
      if ok then ∃ f', Staging u₀ (acc ++ taken) f' u' ∧ f' % u₀.bufferSize = 0 ∧
        u'.bufferLen + left.length ≤ u₀.bufferSize ∧
        (f' = f ∧ taken = [] ∨ u'.bufferLen = 0 ∧ left ≠ [])
      else left ≠ [] ∧ Dropped u' ∧ u.chip.faults < u'.chip.faults := by
  have hB : 0 < u₀.bufferSize := by rcases hb.bufferSize with h' | h' <;> omega
  induction rounds generalizing acc f u data with
  | zero => omega
  | succ rounds ih =>
    rw [Updater.writeLoop, h.bufferSize] at hw
    have hle := h.bufferLen_le
    by_cases hmore : u.bufferLen + data.length > u₀.bufferSize
    · rw [if_pos hmore] at hw
      generalize htoBuff : u₀.bufferSize - u.bufferLen = toBuff at hw
      dsimp only at hw
      have htaken : (data.take toBuff).length = toBuff := by rw [length_take]; omega
      have hdrop : (data.drop toBuff).length = data.length - toBuff := length_drop
      generalize hwb : (u.fill (data.take toBuff)).writeBuffer = r at hw
      obtain ⟨ok₁, u₁⟩ := r
      have hround := h.round hb hf (by omega) hwb
      have hmono := writeBuffer_faults_le hwb
      change u.chip.faults ≤ _ at hmono
      cases ok₁ with
      | false =>
        obtain ⟨rfl, rfl, rfl⟩ : false = ok ∧ data = left ∧ u₁ = u' := by simpa using hw
        exact ⟨[], rfl, length_pos_iff.mp (by omega), hround⟩
      | true =>
        obtain ⟨hst, hempty⟩ := hround
        obtain ⟨taken, hdata, hrest⟩ := ih hst (by rw [Nat.add_mod_right, hf])
          (by rw [if_neg (by omega)]; split at hr <;> omega) hw
        refine ⟨data.take toBuff ++ taken, ?_, ?_⟩
        · rw [append_assoc, ← hdata, take_append_drop]
        · cases ok with
          | false => exact ⟨hrest.1, hrest.2.1, Nat.lt_of_le_of_lt hmono hrest.2.2⟩
          | true =>
            obtain ⟨f', hst', hf', hfit, hcase⟩ := hrest
            refine ⟨f', by rwa [← append_assoc], hf', hfit, .inr ?_⟩
            rcases hcase with ⟨rfl, rfl⟩ | hcase
            · have hleft : left = data.drop toBuff := hdata.symm
              have hbuf := hst'.bufferLen
              rw [append_nil, ← hst.bufferLen] at hbuf
              exact ⟨by omega, length_pos_iff.mp (by rw [hleft]; omega)⟩
            · exact hcase
    · rw [if_neg hmore] at hw
      obtain ⟨rfl, rfl, rfl⟩ : true = ok ∧ data = left ∧ u = u' := by simpa using hw
      exact ⟨[], rfl, f, by simpa using h, hf, by omega, .inl ⟨rfl, rfl⟩⟩

theorem writeLoop_length {data left : List UInt8}
    (hB : 0 < u.bufferSize) (hle : u.bufferLen ≤ u.bufferSize)
    (hbuf : u.buffer.length = u.bufferSize)
    (hr : data.length + (if u.bufferLen = u.bufferSize then 1 else 0) < rounds)
    (hw : Updater.writeLoop rounds data u = (true, left, u')) :
    u.bufferLen + data.length ≤ u.bufferSize ∨
      u.currentAddress + u.bufferLen + data.length ≤ F.capacity + u.bufferSize := by
  induction rounds generalizing u data with
  | zero => omega
  | succ rounds ih =>
    rw [Updater.writeLoop] at hw
    by_cases hmore : u.bufferLen + data.length > u.bufferSize
    · rw [if_pos hmore] at hw
      generalize htoBuff : u.bufferSize - u.bufferLen = toBuff at hw
      dsimp only at hw
      have htaken : (data.take toBuff).length = toBuff := by rw [length_take]; omega
      have hdrop : (data.drop toBuff).length = data.length - toBuff := length_drop
      generalize hwb : (u.fill (data.take toBuff)).writeBuffer = r at hw
      obtain ⟨ok₁, u₁⟩ := r
      cases ok₁ with
      | false => simp at hw
      | true =>
        obtain ⟨-, c₁, c₂, c₃, -, -, hprog, rfl⟩ := writeBuffer_true hwb
        have hlen : (u.fill (data.take toBuff)).bufferLen = u.bufferSize := by
          show u.bufferLen + _ = _
          omega
        have hcap : u.currentAddress + u.bufferSize ≤ F.capacity := by
          have hfilled : (u.fill (data.take toBuff)).buffer.length = u.bufferSize :=
            (memcpy_length (by omega)).trans hbuf
          have hl : ((u.fill (data.take toBuff)).buffered).length = u.bufferSize := by
            rw [buffered, length_take, hfilled, hlen]
            omega
          have := hprog.within (length_pos_iff.mp (by simpa [hl] using hB))
          rw [toProgram_length, hl] at this
          exact this
        have hmax := F.capacity_le
        have hcur : u32 (u.currentAddress + u.bufferSize) = u.currentAddress + u.bufferSize :=
          u32_of_lt (by omega)
        have hnew := ih (by exact hB) (Nat.zero_le _)
          ((toHash_length _ _).trans ((memcpy_length (by omega)).trans hbuf))
          (by rw [if_neg (by exact Nat.ne_of_lt hB)]; split at hr <;> omega) hw
        change 0 + _ ≤ u.bufferSize ∨ u32 (u.currentAddress +
          (u.fill (data.take toBuff)).bufferLen) + 0 + _ ≤ _ + u.bufferSize at hnew
        rw [hlen, hcur] at hnew
        omega
    · exact .inl (by omega)

theorem writeLoop_false {data left : List UInt8}
    (hw : Updater.writeLoop rounds data u = (false, left, u')) : Dropped u' := by
  induction rounds generalizing u data with
  | zero => simp [Updater.writeLoop] at hw
  | succ rounds ih =>
    rw [Updater.writeLoop] at hw
    split at hw
    · dsimp only at hw
      split at hw
      · rename_i u₁ hwb
        obtain ⟨c, evs, e, he, -, rfl, -, -⟩ := writeBuffer_false hwb
        obtain ⟨-, -, rfl⟩ : false = false ∧ data = left ∧ _ = u' := by simpa using hw
        exact setError_dropped (flushError_ne he) _
      · exact ih hw
    · simp at hw

theorem writeLoop_faults_le {data left : List UInt8} {ok : Bool}
    (hw : Updater.writeLoop rounds data u = (ok, left, u')) : u.chip.faults ≤ u'.chip.faults := by
  induction rounds generalizing u data with
  | zero =>
    obtain ⟨-, -, rfl⟩ : true = ok ∧ data = left ∧ u = u' := by simpa [Updater.writeLoop] using hw
    exact Nat.le_refl _
  | succ rounds ih =>
    rw [Updater.writeLoop] at hw
    split at hw
    · dsimp only at hw
      split at hw
      · rename_i u₁ hwb
        have hmono := writeBuffer_faults_le hwb
        obtain ⟨-, -, rfl⟩ : false = ok ∧ data = left ∧ _ = u' := by simpa using hw
        exact hmono
      · rename_i u₁ hwb
        have hmono := writeBuffer_faults_le hwb
        exact Nat.le_trans hmono (ih hw)
    · obtain ⟨-, -, rfl⟩ : true = ok ∧ data = left ∧ u = u' := by simpa using hw
      exact Nat.le_refl _

/-- How much of an image of which `n` bytes have been accepted is in flash:
all of it once it is complete, before that the buffers filled before its last
byte. -/
def flushedLen (u₀ : Updater F) (n : Nat) : Nat :=
  if n = u₀.size then n else (n - 1) / u₀.bufferSize * u₀.bufferSize

theorem flushedLen_size (u₀ : Updater F) : flushedLen u₀ u₀.size = u₀.size := if_pos rfl

theorem flushedLen_eq (hb : Begun u₀) (hn : n ≠ u₀.size) (hf : f % u₀.bufferSize = 0)
    (hlt : f < n) (hle : n ≤ f + u₀.bufferSize) : flushedLen u₀ n = f := by
  have hB : 0 < u₀.bufferSize := by rcases hb.bufferSize with h' | h' <;> omega
  obtain ⟨k, rfl⟩ := Nat.dvd_of_mod_eq_zero hf
  rw [flushedLen, if_neg hn,
    show n - 1 = n - 1 - u₀.bufferSize * k + u₀.bufferSize * k by omega,
    Nat.add_mul_div_left _ _ hB, Nat.div_eq_of_lt (by omega), Nat.zero_add, Nat.mul_comm]

theorem flushedLen_mod (hn : n ≠ u₀.size) :
    flushedLen u₀ n % u₀.bufferSize = 0 := by
  rw [flushedLen, if_neg hn, Nat.mul_mod_left]

theorem Staging.complete_iff (hb : Begun u₀) (h : Staging u₀ acc f u) :
    u.bufferLen = u.remaining ↔ acc.length = u₀.size := by
  have hlen := h.bufferLen
  have hle := h.bufferLen_le
  have hcur := h.current_lt hb
  have hsize := hb.size_lt
  have hmax := F.capacity_le
  have hrem : u.remaining = sub32 u₀.size f := by
    rw [remaining, h.size, h.current, h.startAddress, sub32_self_add _ _ (by omega)]
  have hf : f ≤ 0x1000000 := by
    rcases h.within with h' | h' <;> omega
  rw [hrem, sub32]
  rcases hb.bufferSize with h' | h' <;> omega

theorem Staging.running (hb : Begun u₀) (h : Staging u₀ acc f u) :
    ¬ (u.hasError ∨ ¬ u.isRunning) := by
  rintro (he | hr)
  · exact he (h.error.trans hb.error)
  · apply hr
    rw [isRunning, h.size]
    exact hb.size_pos

theorem Staging.write_more (hb : Begun u₀) {data : List UInt8}
    (h : Staging u₀ acc f u) (hacc : acc.length = u₀.size) (hf : f = acc.length)
    (hdata : data ≠ []) (hw : u.write data = (n, u')) : Dropped u' := by
  have hpos := length_pos_iff.mpr hdata
  have hlen := h.bufferLen
  rw [Updater.write, if_neg (h.running hb), h.progress hb, h.size] at hw
  split at hw
  · obtain ⟨-, rfl⟩ := Prod.mk.inj hw
    exact setError_dropped (by simp) u
  · -- Only a length that wraps around gets here, and the chip is too small for it.
    rename_i hspace
    split at hw
    · rename_i left u₁ hloop
      obtain ⟨-, rfl⟩ := Prod.mk.inj hw
      exact writeLoop_false hloop
    · rename_i left u₁ hloop
      have hcap := h.within
      have hmax := F.capacity_le
      have hsize := hb.size_pos
      have := writeLoop_length (by rw [h.bufferSize]; rcases hb.bufferSize with h' | h' <;> omega)
        (by rw [h.bufferSize]; exact h.bufferLen_le)
        (by rw [h.bufferSize]; exact h.buffer_length) (by split <;> omega) hloop
      rw [h.bufferSize] at this
      have hB : u₀.bufferSize ≤ 4096 := by rcases hb.bufferSize with h' | h' <;> omega
      unfold u32 at hspace
      omega

theorem fill_nil (u : Updater F) : u.fill [] = u := by
  simp [Updater.fill, memcpy]

theorem Staging.write_nil (hb : Begun u₀) (h : Staging u₀ acc f u)
    (hacc : acc.length = u₀.size) (hf : f = acc.length) :
    u.write [] = (0, u.writeBuffer.2) ∧ u.writeBuffer.1 = false := by
  have hlen := h.bufferLen
  have hB : 0 < u₀.bufferSize := by rcases hb.bufferSize with h' | h' <;> omega
  have hsize := hb.size_lt
  have hcomplete := (h.complete_iff hb).mpr hacc
  have hfail : u.writeBuffer.1 = false := by
    cases hok : u.writeBuffer.1 with
    | false => rfl
    | true =>
      have hne := (writeBuffer_true (Prod.ext hok rfl : u.writeBuffer = (true, _))).1
      rw [h.buffered, hf, drop_length] at hne
      exact absurd rfl hne
  have hspace : ¬ u32 (f + u.bufferLen + 0) > u₀.size := by
    rw [u32_of_lt (by omega)]
    omega
  have hloop : Updater.writeLoop 2 [] u = (true, [], u) := by
    rw [Updater.writeLoop, h.bufferSize, if_neg (by simp; omega)]
  refine ⟨?_, hfail⟩
  rw [Updater.write, if_neg (h.running hb), h.progress hb, h.size]
  simp only [length_nil, if_neg hspace, Nat.zero_add, hloop, fill_nil, if_pos hcomplete]
  generalize hwb : u.writeBuffer = r at hfail
  obtain ⟨ok, u₁⟩ := r
  obtain rfl : ok = false := hfail
  rfl

/-- **What `write` does.**  Either it accepts all its bytes, and the flushed
part is again the one their number determines, or the update is dropped.
Without a failed driver call only more bytes than declared, or an empty write
to a complete image, do that. -/
theorem Staging.write (hb : Begun u₀) {data : List UInt8} {n : Nat}
    (h : Staging u₀ acc (flushedLen u₀ acc.length) u) (hw : u.write data = (n, u')) :
    (n = data.length ∧ Staging u₀ (acc ++ data) (flushedLen u₀ (acc ++ data).length) u') ∨
      Dropped u' ∧ (acc.length + data.length ≤ u₀.size →
        u.chip.faults < u'.chip.faults ∨ acc.length = u₀.size ∧ data = []) := by
  by_cases hover : acc.length = u₀.size
  · by_cases hdata : data = []
    · subst hdata
      obtain ⟨hwrite, hfail⟩ := h.write_nil hb hover (by rw [hover, flushedLen_size])
      obtain ⟨-, rfl⟩ := Prod.mk.inj (hw.symm.trans hwrite)
      obtain ⟨c, evs, e, he, -, heq, -⟩ :=
        writeBuffer_false (Prod.ext hfail rfl : u.writeBuffer = (false, u.writeBuffer.2))
      rw [heq]
      exact .inr ⟨setError_dropped (flushError_ne he) _, fun _ => .inr ⟨hover, rfl⟩⟩
    · refine .inr ⟨h.write_more hb hover (by rw [hover, flushedLen_size]) hdata hw, fun hle => ?_⟩
      have := length_pos_iff.mpr hdata
      omega
  · have hf := flushedLen_mod hover
    generalize hfl : flushedLen u₀ acc.length = f at h hf
    have hlen := h.bufferLen
    have hle := h.bufferLen_le
    rw [Updater.write, if_neg (h.running hb), h.progress hb, h.size] at hw
    split at hw
    · rename_i hspace
      obtain ⟨-, rfl⟩ := Prod.mk.inj hw
      refine .inr ⟨setError_dropped (by simp) u, fun hfit => ?_⟩
      have := hb.size_lt
      rw [u32_of_lt (by omega)] at hspace
      omega
    · split at hw
      · rename_i left u₁ hloop
        obtain ⟨-, rfl⟩ := Prod.mk.inj hw
        obtain ⟨taken, -, hdrop⟩ := h.writeLoop hb hf (by split <;> omega) hloop
        exact .inr ⟨hdrop.2.1, fun _ => .inl hdrop.2.2⟩
      · rename_i left u₁ hloop
        obtain ⟨taken, rfl, f', hst, hf', hfit, hcase⟩ :=
          h.writeLoop hb hf (by split <;> omega) hloop
        have hfill := hst.fill hfit
        rw [append_assoc] at hfill
        have hlen' := hfill.bufferLen
        have hle' := hfill.bufferLen_le
        have hempty : (u₁.fill left).bufferLen = 0 → taken ++ left = [] ∧ f' = f := by
          intro h0
          have h0 : u₁.bufferLen + left.length = 0 := h0
          have hleft : left = [] := length_eq_zero_iff.mp (by omega)
          rcases hcase with ⟨rfl, rfl⟩ | ⟨-, hne⟩
          · exact ⟨hleft, rfl⟩
          · exact absurd hleft hne
        simp only [hfill.complete_iff hb] at hw
        split at hw
        · rename_i hcomplete
          split at hw
          · rename_i u₂ hwb
            obtain ⟨-, rfl⟩ := Prod.mk.inj hw
            obtain ⟨c, evs, e, he, -, rfl, -, hfault⟩ := writeBuffer_false hwb
            have hmono := writeLoop_faults_le hloop
            refine .inr ⟨setError_dropped (flushError_ne he) _,
              fun _ => .inl (Nat.lt_of_le_of_lt hmono ?_)⟩
            refine hfault (by rw [hfill.bufferPtr]; exact hb.bufferPtr) fun hnil => hover ?_
            rw [hfill.buffered, drop_eq_nil_iff] at hnil
            have hnone := (hempty (by omega)).1
            rwa [hnone, append_nil] at hcomplete
          · rename_i u₂ hwb
            obtain ⟨rfl, rfl⟩ := Prod.mk.inj hw
            rw [hcomplete, flushedLen_size, ← hcomplete]
            exact .inl ⟨rfl, (hfill.flush hb hf' hwb).2⟩
        · rename_i hcomplete
          obtain ⟨rfl, rfl⟩ := Prod.mk.inj hw
          refine .inl ⟨rfl, ?_⟩
          by_cases h0 : (u₁.fill left).bufferLen = 0
          · obtain ⟨hnone, rfl⟩ := hempty h0
            rw [hnone, append_nil, hfl]
            rwa [hnone, append_nil] at hfill
          · rw [flushedLen_eq hb hcomplete hf' (by omega) (by omega)]
            exact hfill

end

end Updater
