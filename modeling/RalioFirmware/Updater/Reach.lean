import RalioFirmware.Basis.Runs
import RalioFirmware.Updater.End

/-!
# Every run of the updater

An `Action` is what a caller can make the updater do; `writeStream` and
`write<T>` go on for as long as their source does, so a round of their loops
is an action of its own.  `run_inside` says when a run keeps to the region
`begin` has set aside.
-/

open Word Bytes Nor Nor.Chip Esp List

/-- The bytes an event moves lie in the region of `size` bytes at `start`. -/
def Event.Within (start size : Nat) : Event → Prop
  | .flashWrite a n | .readBytes a n => start ≤ a ∧ a + n ≤ start + size
  | .eraseSector _ | .hashAdd _ _ | .verify _ _ | .compareMd5 _ => True

namespace Updater

variable {F : SpiFlash}

/-- A call of the updater, or a round of `writeStream` or `write<T>`. -/
inductive Action
  | beginUpdate (L : Layout) (env : BeginEnv) (size : Nat) (size_lt : size < 4294967296)
      (command : Int)
  | write (data : List UInt8)
  | streamHeader (peek : UInt8)
  | streamRound (r : StreamRead)
  | availableRound (offered : List UInt8)
  | endUpdate (env : EndEnv) (evenIfRemaining : Bool)

def act (a : Action) (u : Updater F) : Updater F :=
  match a with
  | .beginUpdate L env size _ command => (beginUpdate L env size command u).2
  | .write data => (u.write data).2
  | .streamHeader peek =>
    if u.hasError ∨ ¬ u.isRunning then u
    else
      match u.verifyHeader peek with
      | (false, u) => u.reset
      | (true, u) => u
  | .streamRound r =>
    if (u.hasError ∨ ¬ u.isRunning) ∨ u.remaining = 0 then u else (streamRound r u).state
  | .availableRound offered =>
    if (u.hasError ∨ ¬ u.isRunning) ∨ offered = [] then u else (u.availableRound offered).state
  | .endUpdate env evenIfRemaining => (u.endUpdate env evenIfRemaining).2

abbrev run (actions : List Action) (u : Updater F) : Updater F := Runs.after act actions u

/-- The condition on an action.  The length of a write does not wrap around
into the room left; a stream is read with nothing buffered, or with a whole
buffer still to come, or it offers no more than is missing. -/
def Fits (a : Action) (u : Updater F) : Prop :=
  match a with
  | .write data =>
    ¬ (u.size < u.progress + u.bufferLen + data.length ∧
      u32 (u.progress + u.bufferLen + data.length) ≤ u.size)
  | .streamRound r =>
    u.bufferLen = 0 ∨ u.bufferSize ≤ u.remaining ∨ u.bufferLen + r.offered.length ≤ u.remaining
  | .beginUpdate .. | .streamHeader _ | .availableRound _ | .endUpdate .. => True

instance (u : Updater F) : ∀ a : Action, Decidable (Fits a u)
  | .write data => inferInstanceAs (Decidable (¬ (u.size < u.progress + u.bufferLen + data.length ∧
      u32 (u.progress + u.bufferLen + data.length) ≤ u.size)))
  | .streamRound r => inferInstanceAs (Decidable (u.bufferLen = 0 ∨ u.bufferSize ≤ u.remaining ∨
      u.bufferLen + r.offered.length ≤ u.remaining))
  | .beginUpdate .. | .streamHeader _ | .availableRound _ | .endUpdate .. => isTrue trivial

/-! ## An update within its bounds -/

/-- The position in the image of the next byte to be taken. -/
def position (u : Updater F) : Nat := u.currentAddress - u.startAddress + u.bufferLen

structure Running (u : Updater F) : Prop where
  error : u.error = .ok
  size_pos : 0 < u.size
  size_lt : u.size < 4294967296
  start_lt : u.startAddress < 3221225472
  bufferSize : u.bufferSize = 4096 ∨ u.bufferSize = 256
  buffer : u.buffer.length = u.bufferSize
  bufferLen_le : u.bufferLen ≤ u.bufferSize
  start_le : u.startAddress ≤ u.currentAddress
  within : u.currentAddress = u.startAddress ∨ u.currentAddress ≤ F.capacity
  fits : u.position ≤ u.size

/-- The log has grown by events within the region of the update. -/
def Logged (u u' : Updater F) : Prop :=
  ∃ evs, u'.log = u.log ++ evs ∧ ∀ e ∈ evs, e.Within u.startAddress u.size

structure Stopped (u u' : Updater F) : Prop where
  size : u'.size = 0
  logged : Logged u u'

/-- The update has taken `n` bytes. -/
structure Advanced (n : Nat) (u u' : Updater F) : Prop where
  running : Running u'
  startAddress : u'.startAddress = u.startAddress
  size : u'.size = u.size
  bufferSize : u'.bufferSize = u.bufferSize
  position : u'.position = u.position + n
  logged : Logged u u'

section

variable {u v w : Updater F} {m n : Nat}

theorem Logged.of_eq (h : v.log = u.log) : Logged u v := ⟨[], by simp [h], by simp⟩

theorem Logged.trans (h : Logged u v) (h' : Logged v w) (hstart : v.startAddress = u.startAddress)
    (hsize : v.size = u.size) : Logged u w := by
  obtain ⟨evs, hlog, hevs⟩ := h
  obtain ⟨evs', hlog', hevs'⟩ := h'
  refine ⟨evs ++ evs', by rw [hlog', hlog, append_assoc], fun e he => ?_⟩
  rcases mem_append.mp he with he | he
  · exact hevs e he
  · grind

theorem Advanced.refl (h : Running u) : Advanced 0 u u :=
  ⟨h, rfl, rfl, rfl, rfl, .of_eq rfl⟩

theorem Advanced.trans (h : Advanced m u v) (h' : Advanced n v w) : Advanced (m + n) u w where
  running := h'.running
  startAddress := h'.startAddress.trans h.startAddress
  size := h'.size.trans h.size
  bufferSize := h'.bufferSize.trans h.bufferSize
  position := by rw [h'.position, h.position, Nat.add_assoc]
  logged := h.logged.trans h'.logged h.startAddress h.size

theorem Advanced.stopped (h : Advanced m u v) (h' : Stopped v w) : Stopped u w :=
  ⟨h'.size, h.logged.trans h'.logged h.startAddress h.size⟩

theorem Running.progress (h : Running u) : u.progress = u.currentAddress - u.startAddress := by
  have := h.start_le
  have := h.start_lt
  have := F.capacity_le
  rw [Updater.progress, sub32_of_le h.start_le]
  rcases h.within with h' | h' <;> omega

theorem Running.remaining (h : Running u) : u.remaining = u.size - u.progress := by
  have hfits := h.fits
  have := h.size_lt
  unfold position at hfits
  have hp := h.progress
  unfold Updater.progress at hp
  rw [Updater.remaining, hp, sub32_of_le (by omega) h.size_lt, ← hp]
  rfl

/-! ## The parts of a call -/

theorem Running.writeBuffer (h : Running u) {ok : Bool} (hw : u.writeBuffer = (ok, v)) :
    if ok then Advanced 0 u v ∧ v.bufferLen = 0 else Stopped u v := by
  have hfits := h.fits
  have hstart := h.start_le
  have hlogged : Logged u v := by
    obtain ⟨evs, hprefix, hlog⟩ := writeBuffer_log hw
    refine ⟨evs, hlog, fun e he => ?_⟩
    have he := hprefix.subset he
    unfold position at hfits
    unfold flushEvents at he
    rcases mem_append.mp he with he | he
    · split at he
      · rw [mem_singleton.mp he]
        trivial
      · cases he
    · rw [mem_singleton.mp he]
      exact ⟨hstart, by omega⟩
  cases ok with
  | false =>
    obtain ⟨c, evs, e, -, -, rfl, -⟩ := writeBuffer_false hw
    exact ⟨rfl, hlogged⟩
  | true =>
    obtain ⟨hne, c₁, c₂, c₃, -, -, hprog, rfl⟩ := writeBuffer_true hw
    have hle := h.bufferLen_le
    have hlen : u.buffered.length = u.bufferLen := by
      rw [buffered, length_take, h.buffer]
      omega
    have hpos := length_pos_iff.mpr hne
    have hcap : u.currentAddress + u.bufferLen ≤ F.capacity := by
      have := hprog.within (length_pos_iff.mp (by simpa using hpos))
      rwa [toProgram_length, hlen] at this
    have hmax := F.capacity_le
    have hcur : u32 (u.currentAddress + u.bufferLen) = u.currentAddress + u.bufferLen :=
      u32_of_lt (by omega)
    have hposition : u32 (u.currentAddress + u.bufferLen) - u.startAddress + 0 = u.position := by
      rw [hcur, position]
      omega
    refine ⟨⟨?_, rfl, rfl, rfl, hposition, hlogged⟩, rfl⟩
    exact {
      error := h.error
      size_pos := h.size_pos
      size_lt := h.size_lt
      start_lt := h.start_lt
      bufferSize := h.bufferSize
      buffer := (toHash_length _ _).trans h.buffer
      bufferLen_le := Nat.zero_le _
      start_le := by
        show u.startAddress ≤ u32 (u.currentAddress + u.bufferLen)
        omega
      within := .inr (hcur.symm ▸ hcap)
      fits := by
        show u32 (u.currentAddress + u.bufferLen) - u.startAddress + 0 ≤ u.size
        rw [hposition]
        exact hfits }

theorem Running.fill (h : Running u) (bytes : List UInt8)
    (hroom : u.bufferLen + bytes.length ≤ u.bufferSize)
    (hfits : u.position + bytes.length ≤ u.size) : Advanced bytes.length u (u.fill bytes) := by
  have hposition : (u.fill bytes).position = u.position + bytes.length :=
    (Nat.add_assoc _ _ _).symm
  refine ⟨?_, rfl, rfl, rfl, hposition, .of_eq rfl⟩
  exact {
    error := h.error
    size_pos := h.size_pos
    size_lt := h.size_lt
    start_lt := h.start_lt
    bufferSize := h.bufferSize
    buffer := (memcpy_length (by rw [h.buffer]; exact hroom)).trans h.buffer
    bufferLen_le := hroom
    start_le := h.start_le
    within := h.within
    fits := by rwa [hposition] }

theorem Running.writeLoop (h : Running u) {rounds : Nat} {data left : List UInt8} {ok : Bool}
    (hfits : u.position + data.length ≤ u.size)
    (hr : data.length + (if u.bufferLen = u.bufferSize then 1 else 0) < rounds)
    (hw : Updater.writeLoop rounds data u = (ok, left, v)) :
    if ok then ∃ taken, data = taken ++ left ∧ Advanced taken.length u v ∧
      v.bufferLen + left.length ≤ v.bufferSize
    else Stopped u v := by
  have hB : 0 < u.bufferSize := by rcases h.bufferSize with h' | h' <;> omega
  induction rounds generalizing u data with
  | zero => omega
  | succ rounds ih =>
    rw [Updater.writeLoop] at hw
    have hle := h.bufferLen_le
    by_cases hmore : u.bufferLen + data.length > u.bufferSize
    · rw [if_pos hmore] at hw
      generalize htoBuff : u.bufferSize - u.bufferLen = toBuff at hw
      dsimp only at hw
      have htaken : (data.take toBuff).length = toBuff := by rw [length_take]; omega
      have hdrop : (data.drop toBuff).length = data.length - toBuff := length_drop
      have hfill : Advanced toBuff u (u.fill (data.take toBuff)) := by
        have := h.fill (data.take toBuff) (by omega) (by omega)
        rwa [htaken] at this
      generalize hwb : (u.fill (data.take toBuff)).writeBuffer = r at hw
      obtain ⟨ok₁, u₁⟩ := r
      have hflush := hfill.running.writeBuffer hwb
      cases ok₁ with
      | false =>
        obtain ⟨rfl, -, rfl⟩ : false = ok ∧ data = left ∧ u₁ = v := by simpa using hw
        exact hfill.stopped hflush
      | true =>
        obtain ⟨hadv, hempty⟩ := hflush
        have hadv := hfill.trans hadv
        have hrest := ih hadv.running (by rw [hadv.position, hadv.size]; omega)
          (by
            rw [if_neg (by rw [hempty, hadv.bufferSize]; omega)]
            split at hr <;> omega) hw (by rw [hadv.bufferSize]; exact hB)
        cases ok with
        | false => exact hadv.stopped hrest
        | true =>
          obtain ⟨taken, hdata, hadv', hfit⟩ := hrest
          refine ⟨data.take toBuff ++ taken, ?_, ?_, hfit⟩
          · rw [append_assoc, ← hdata, take_append_drop]
          · rw [length_append, htaken]
            exact hadv.trans hadv'
    · rw [if_neg hmore] at hw
      obtain ⟨rfl, rfl, rfl⟩ : true = ok ∧ data = left ∧ u = v := by simpa using hw
      exact ⟨[], rfl, Advanced.refl h, by omega⟩

/-! ## The actions -/

def Moves (u v : Updater F) : Prop := Stopped u v ∨ ∃ n, Advanced n u v

theorem Moves.logged (h : Moves u v) : Logged u v :=
  h.elim Stopped.logged fun ⟨_, h⟩ => h.logged

theorem Running.active (h : Running u) : ¬ (u.hasError ∨ ¬ u.isRunning) := by
  rintro (he | hr)
  · exact he h.error
  · exact hr h.size_pos

theorem setError_stopped (e : UpdateError) (u : Updater F) : Stopped u (u.setError e) :=
  ⟨rfl, .of_eq rfl⟩

theorem Moves.of_flush (h : Running u) {ok : Bool} (hw : u.writeBuffer = (ok, v)) : Moves u v := by
  have hflush := h.writeBuffer hw
  cases ok with
  | false => exact .inl hflush
  | true => exact .inr ⟨0, hflush.1⟩

theorem Advanced.moves (h : Advanced m u v) (h' : Moves v w) : Moves u w := by
  rcases h' with h' | ⟨n, h'⟩
  · exact .inl (h.stopped h')
  · exact .inr ⟨_, h.trans h'⟩

theorem Running.write (h : Running u) {data : List UInt8} (hfit : Fits (.write data) u) :
    Moves u (u.write data).2 := by
  have hp := h.progress
  have hB : u.bufferSize ≤ 4096 := by rcases h.bufferSize with h' | h' <;> omega
  have hposition : u.position = u.progress + u.bufferLen := by rw [hp, position]
  rw [Updater.write, if_neg h.active]
  split
  · exact .inl (setError_stopped _ _)
  · rename_i hspace
    have hroom : u.position + data.length ≤ u.size := by
      rw [hposition]
      unfold Fits at hfit
      omega
    split
    · rename_i left u₁ hloop
      exact .inl (h.writeLoop hroom (by split <;> omega) hloop)
    · rename_i left u₁ hloop
      obtain ⟨taken, rfl, hadv, hleft⟩ := h.writeLoop hroom (by split <;> omega) hloop
      rw [length_append] at hroom
      have hfill := hadv.running.fill left hleft
        (by rw [hadv.position, hadv.size]; omega)
      have hadv := hadv.trans hfill
      dsimp only
      split
      · generalize hwb : (u₁.fill left).writeBuffer = r
        obtain ⟨ok, u₂⟩ := r
        have hflush := Moves.of_flush hfill.running hwb
        cases ok <;> exact hadv.moves hflush
      · exact .inr ⟨_, hadv⟩

theorem Running.read_within_iff (h : Running u) (r : StreamRead) :
    u.position + (r.offered.take u.bytesToRead).length ≤ u.size ↔ Fits (.streamRound r) u := by
  have hle := h.bufferLen_le
  have hrem := h.remaining
  have hp := h.progress
  have hfits := h.fits
  rw [position] at hfits ⊢
  unfold Fits
  rw [length_take, bytesToRead]
  dsimp only
  split <;> omega

theorem Running.streamRound (h : Running u) {r : StreamRead} (hfit : Fits (.streamRound r) u) :
    Moves u (Updater.streamRound r u).state := by
  have hread := (h.read_within_iff r).mpr hfit
  have hroom : u.bufferLen + (r.offered.take u.bytesToRead).length ≤ u.bufferSize := by
    have hle := h.bufferLen_le
    rw [length_take, bytesToRead]
    split <;> omega
  rw [Updater.streamRound]
  generalize r.offered.take u.bytesToRead = got at hread hroom
  dsimp only
  generalize hu : ({ u with
    log := u.log ++ [Event.readBytes (u.currentAddress + u.bufferLen) got.length] } :
    Updater F) = u₁
  have hadv : Advanced 0 u u₁ := by
    rw [← hu]
    refine ⟨⟨h.error, h.size_pos, h.size_lt, h.start_lt, h.bufferSize, h.buffer, h.bufferLen_le,
      h.start_le, h.within, h.fits⟩, rfl, rfl, rfl, rfl, _, rfl, fun e he => ?_⟩
    have := h.start_le
    rw [mem_singleton.mp he]
    unfold position at hread
    exact ⟨by omega, by omega⟩
  split
  · exact .inl (hadv.stopped ⟨rfl, .of_eq (by rw [← hu]; rfl)⟩)
  · have hfill := hadv.running.fill got (by rw [← hu]; exact hroom)
      (by rw [hadv.position, hadv.size]; exact hread)
    have hadv := hadv.trans hfill
    split
    · generalize hwb : (u₁.fill got).writeBuffer = r
      obtain ⟨ok, u₂⟩ := r
      have hflush := Moves.of_flush hfill.running hwb
      cases ok <;> exact hadv.moves hflush
    · exact .inr ⟨_, hadv⟩

/-- What a round of `write<T>` has `available` of `n` bytes. -/
def availableOf (u : Updater F) (n : Nat) : Nat :=
  if u.bufferLen + n > u.remaining then sub32 u.remaining u.bufferLen else n

/-- How many of `n` bytes a round of `write<T>` reads. -/
def availableTaken (u : Updater F) (n : Nat) : Nat :=
  if u.bufferLen + u.availableOf n > u.bufferSize then u.bufferSize - u.bufferLen
  else u.availableOf n

theorem availableRound_eq (u : Updater F) (offered : List UInt8) :
    u.availableRound offered =
      if u.bufferLen + u.availableOf offered.length > u.bufferSize then
        match (u.fill (offered.take (u.bufferSize - u.bufferLen))).writeBuffer with
        | (false, u) => ⟨false, 0, u⟩
        | (true, v) => ⟨v.remaining ≠ 0, u.bufferSize - u.bufferLen, v⟩
      else if u.bufferLen + (offered.take (u.availableOf offered.length)).length = u.remaining then
        match (u.fill (offered.take (u.availableOf offered.length))).writeBuffer with
        | (false, v) => ⟨false, u.availableOf offered.length, v⟩
        | (true, v) => ⟨v.remaining ≠ 0, u.availableOf offered.length, v⟩
      else ⟨u.remaining ≠ 0, u.availableOf offered.length,
        u.fill (offered.take (u.availableOf offered.length))⟩ := rfl

theorem Running.availableOf_le (h : Running u) (n : Nat) :
    u.position + u.availableOf n ≤ u.size ∧ u.availableOf n ≤ n := by
  have hle := h.bufferLen_le
  have hrem := h.remaining
  have hp := h.progress
  have hfits := h.fits
  have hsize := h.size_lt
  rw [position] at hfits ⊢
  unfold availableOf
  split
  · rw [sub32_of_le (by omega) (by omega)]
    omega
  · omega

theorem Running.fill_flush (h : Running u) {bytes : List UInt8}
    (hroom : u.bufferLen + bytes.length ≤ u.bufferSize)
    (hfits : u.position + bytes.length ≤ u.size) {ok : Bool}
    (hwb : (u.fill bytes).writeBuffer = (ok, v)) : Stopped u v ∨ Advanced bytes.length u v := by
  have hfill := h.fill bytes hroom hfits
  have hflush := hfill.running.writeBuffer hwb
  cases ok with
  | true => exact .inr (hfill.trans hflush.1)
  | false => exact .inl (hfill.stopped hflush)

theorem Running.availableRound_taken (h : Running u) (offered : List UInt8) :
    u.availableTaken offered.length ≤ offered.length ∧
      (Stopped u (u.availableRound offered).state ∨
        Advanced (u.availableTaken offered.length) u (u.availableRound offered).state) := by
  have hle := h.bufferLen_le
  have havailable := h.availableOf_le offered.length
  have heq := availableRound_eq u offered
  by_cases hbig : u.bufferLen + u.availableOf offered.length > u.bufferSize
  · have htaken : u.availableTaken offered.length = u.bufferSize - u.bufferLen := if_pos hbig
    have hlen : (offered.take (u.bufferSize - u.bufferLen)).length =
        u.bufferSize - u.bufferLen := by
      rw [length_take]
      omega
    rw [if_pos hbig] at heq
    rw [htaken, ← hlen, heq]
    refine ⟨by rw [hlen]; omega, ?_⟩
    have hflush : ∀ ok v, (u.fill (offered.take (u.bufferSize - u.bufferLen))).writeBuffer =
        (ok, v) → Stopped u v ∨ Advanced (offered.take (u.bufferSize - u.bufferLen)).length u v :=
      fun ok v hwb => h.fill_flush (by omega) (by omega) hwb
    generalize (u.fill (offered.take (u.bufferSize - u.bufferLen))).writeBuffer = r at hflush ⊢
    obtain ⟨ok, u₂⟩ := r
    have hstate := hflush ok u₂ rfl
    cases ok <;> exact hstate
  · have htaken : u.availableTaken offered.length = u.availableOf offered.length := if_neg hbig
    have hlen : (offered.take (u.availableOf offered.length)).length =
        u.availableOf offered.length := by
      rw [length_take]
      omega
    rw [if_neg hbig] at heq
    rw [htaken]
    refine ⟨havailable.2, ?_⟩
    generalize u.availableOf offered.length = available at heq hlen havailable hbig ⊢
    have hroom : u.bufferLen + (offered.take available).length ≤ u.bufferSize := by omega
    have hfits : u.position + (offered.take available).length ≤ u.size := by omega
    by_cases hfull : u.bufferLen + (offered.take available).length = u.remaining
    · rw [if_pos hfull] at heq
      have hflush : ∀ ok v, (u.fill (offered.take available)).writeBuffer = (ok, v) →
          Stopped u v ∨ Advanced (offered.take available).length u v :=
        fun ok v hwb => h.fill_flush hroom hfits hwb
      rw [hlen] at hflush
      rw [heq]
      generalize (u.fill (offered.take available)).writeBuffer = r at hflush ⊢
      obtain ⟨ok, u₂⟩ := r
      have hstate := hflush ok u₂ rfl
      cases ok <;> exact hstate
    · rw [if_neg hfull] at heq
      have hkeep := h.fill (offered.take available) hroom hfits
      rw [hlen] at hkeep
      rw [heq]
      exact .inr hkeep

theorem Running.availableRound (h : Running u) (offered : List UInt8) :
    Moves u (u.availableRound offered).state :=
  (h.availableRound_taken offered).2.imp_right fun hadv => ⟨_, hadv⟩

theorem finish_size (env : EndEnv) (u : Updater F) : (u.finish env).2.size = 0 := by
  have hcheck : (u.checkImage env).1 = false → (u.checkImage env).2.size = 0 := by
    unfold checkImage checkSignature checkMd5
    dsimp only
    repeat' split
    all_goals intro h
    all_goals first
      | rfl
      | cases h
  unfold finish
  generalize u.checkImage env = r at hcheck
  obtain ⟨ok, u₁⟩ := r
  cases ok with
  | false => exact hcheck rfl
  | true =>
    dsimp only
    split <;> rfl

theorem Logged.finish (h : Logged u v) (env : EndEnv) : Stopped u (v.finish env).2 := by
  obtain ⟨evs, hlog, hevs⟩ := h
  obtain ⟨asked, hasked, hask⟩ := (finish_checked env v).events
  refine ⟨finish_size env v, evs ++ asked, by rw [hasked, hlog, append_assoc], fun e he => ?_⟩
  rcases mem_append.mp he with he | he
  · exact hevs e he
  · have := hask e he
    cases e <;> trivial

theorem Running.flushRemaining (h : Running u) : Logged u u.flushRemaining := by
  by_cases hpos : 0 < u.bufferLen
  · obtain ⟨evs, hlog, hevs⟩ := (Moves.of_flush h (Prod.eta u.writeBuffer).symm).logged
    refine ⟨evs, ?_, hevs⟩
    rw [Updater.flushRemaining, if_pos hpos]
    exact hlog
  · refine .of_eq ?_
    rw [Updater.flushRemaining, if_neg hpos]

theorem Running.endUpdate (h : Running u) (env : EndEnv) (evenIfRemaining : Bool) :
    Stopped u (u.endUpdate env evenIfRemaining).2 := by
  have hpos := h.size_pos
  rw [Updater.endUpdate, if_neg (by omega)]
  by_cases hnone : u.progress = 0
  · rw [if_pos hnone]
    dsimp only
    rw [if_pos (.inl (by simp [hasError, setError, reset]))]
    exact ⟨rfl, .of_eq rfl⟩
  · rw [if_neg hnone]
    dsimp only
    split
    · exact ⟨rfl, .of_eq rfl⟩
    · split
      · exact h.flushRemaining.finish env
      · exact Logged.finish (.of_eq rfl) env

theorem Begun.position (hb : Begun u) : u.position = 0 := by
  rw [Updater.position, hb.current, hb.bufferLen]
  omega

theorem Begun.running (hb : Begun u) : Running u where
  error := hb.error
  size_pos := hb.size_pos
  size_lt := hb.size_lt
  start_lt := hb.start_lt
  bufferSize := hb.bufferSize
  buffer := hb.buffer
  bufferLen_le := by rw [hb.bufferLen]; exact Nat.zero_le _
  start_le := Nat.le_of_eq hb.current.symm
  within := .inl hb.current
  fits := by rw [hb.position]; exact Nat.zero_le _

theorem beginUpdate_cases (L : Layout) (env : BeginEnv) {size : Nat} (command : Int)
    (hsize : size < 4294967296) (hu : u.size = 0) :
    (beginUpdate L env size command u).2.log = u.log ∧
      ((beginUpdate L env size command u).2.size = 0 ∨
        Running (beginUpdate L env size command u).2) := by
  cases hok : (beginUpdate L env size command u).1 with
  | true =>
    have hbegin : beginUpdate L env size command u =
      (true, (beginUpdate L env size command u).2) := Prod.ext hok rfl
    have hb := beginUpdate_begun hsize hbegin
    obtain ⟨-, c, start, block, -, -, -, heq⟩ := beginUpdate_true hbegin
    refine ⟨by rw [heq], .inr ?_⟩
    exact hb.running
  | false =>
    unfold beginUpdate at hok ⊢
    rw [if_neg (by omega)] at hok ⊢
    by_cases h₂ : (env.gpi >>> 16) &&& 0xf = 1
    · rw [if_pos h₂]
      exact ⟨rfl, .inl rfl⟩
    rw [if_neg h₂] at hok ⊢
    by_cases h₃ : size = 0
    · rw [if_pos h₃]
      exact ⟨rfl, .inl rfl⟩
    rw [if_neg h₃] at hok ⊢
    generalize checkFlashConfig false u.chip = r at hok ⊢
    obtain ⟨ok, c₁⟩ := r
    cases ok with
    | false => exact ⟨rfl, .inl rfl⟩
    | true =>
      dsimp only [reset] at hok ⊢
      generalize getSketchSize u.sketchSize c₁ = r at hok ⊢
      obtain ⟨sketch, cache, c₂⟩ := r
      dsimp only at hok ⊢
      generalize updateStartAddress L command (roundToSector sketch) (roundToSector size) = r
        at hok ⊢
      cases r with
      | error e => cases e <;> exact ⟨rfl, .inl rfl⟩
      | ok start =>
        dsimp only at hok ⊢
        generalize (if env.freeHeap > 2 * 4096 then 4096 else 256) = B at hok ⊢
        cases hal : env.alloc B with
        | none => exact ⟨rfl, .inl rfl⟩
        | some block =>
          rw [hal] at hok
          cases hok

/-! ## Runs -/

def Inv (u : Updater F) : Prop := u.isRunning → Running u

theorem Moves.inv (h : Moves u v) : Inv v := by
  rcases h with h | ⟨n, h⟩
  · intro hr
    unfold isRunning at hr
    have := h.size
    omega
  · exact fun _ => h.running

theorem act_streamHeader (peek : UInt8) (u : Updater F) :
    act (.streamHeader peek) u = u ∨ Stopped u (act (.streamHeader peek) u) := by
  rw [act]
  split
  · exact .inl rfl
  · unfold verifyHeader
    by_cases hc : u.command = U_FLASH
    · rw [if_pos hc]
      by_cases hm : peek ≠ 0xE9 ∧ peek ≠ 0x1f
      · rw [if_pos hm]
        exact .inr ⟨rfl, .of_eq rfl⟩
      · rw [if_neg hm]
        exact .inl rfl
    · rw [if_neg hc]
      by_cases hs : u.command = U_FS
      · rw [if_pos hs]
        exact .inl rfl
      · rw [if_neg hs]
        exact .inr ⟨rfl, .of_eq rfl⟩

/-- **What one action does.** -/
theorem act_spec (a : Action) (hu : Inv u) (hfit : Fits a u) :
    Inv (act a u) ∧ Logged u (act a u) := by
  by_cases hr : u.isRunning
  · have h := hu hr
    have hpos := h.size_pos
    have hmoves : Moves u (act a u) := by
      cases a with
      | beginUpdate L env size hsize command =>
        rw [act, Updater.beginUpdate, if_pos hpos]
        exact .inr ⟨0, .refl h⟩
      | write data => exact h.write hfit
      | streamHeader peek =>
        rcases act_streamHeader peek u with heq | hstop
        · rw [heq]
          exact .inr ⟨0, .refl h⟩
        · exact .inl hstop
      | streamRound r =>
        rw [act]
        split
        · exact .inr ⟨0, .refl h⟩
        · exact h.streamRound hfit
      | availableRound offered =>
        rw [act]
        split
        · exact .inr ⟨0, .refl h⟩
        · exact h.availableRound offered
      | endUpdate env evenIfRemaining => exact .inl (h.endUpdate env evenIfRemaining)
    exact ⟨hmoves.inv, hmoves.logged⟩
  · have hsize : u.size = 0 := by
      unfold isRunning at hr
      omega
    have hidle : u.hasError ∨ ¬ u.isRunning := .inr hr
    cases a with
    | beginUpdate L env size hlt command =>
      obtain ⟨hlog, hnew⟩ := beginUpdate_cases L env command hlt hsize
      refine ⟨fun hrun => hnew.elim (fun h0 => ?_) id, .of_eq hlog⟩
      exact absurd hrun (h0 ▸ Nat.lt_irrefl 0 : ¬ 0 < (act _ u).size)
    | write data =>
      rw [act, Updater.write, if_pos hidle]
      exact ⟨hu, .of_eq rfl⟩
    | streamHeader peek =>
      rw [act, if_pos hidle]
      exact ⟨hu, .of_eq rfl⟩
    | streamRound r =>
      rw [act, if_pos (.inl hidle)]
      exact ⟨hu, .of_eq rfl⟩
    | availableRound offered =>
      rw [act, if_pos (.inl hidle)]
      exact ⟨hu, .of_eq rfl⟩
    | endUpdate env evenIfRemaining =>
      rw [act, Updater.endUpdate, if_pos hsize]
      exact ⟨fun hrun => absurd hrun (Nat.lt_irrefl 0), .of_eq rfl⟩

/-! ## Rounds of the loops -/

theorem writeBuffer_kept {ok : Bool} (hw : u.writeBuffer = (ok, v)) :
    if ok then v.error = u.error ∧ v.size = u.size else v.size = 0 := by
  cases ok with
  | true =>
    obtain ⟨-, c₁, c₂, c₃, -, -, -, rfl⟩ := writeBuffer_true hw
    exact ⟨rfl, rfl⟩
  | false =>
    obtain ⟨c, evs, e, -, -, rfl, -⟩ := writeBuffer_false hw
    rfl

theorem streamRound_kept (r : StreamRead) (u : Updater F) :
    if (Updater.streamRound r u).more then
      (Updater.streamRound r u).state.error = u.error ∧
          (Updater.streamRound r u).state.size = u.size
    else (Updater.streamRound r u).state.size = 0 := by
  rw [Updater.streamRound]
  generalize r.offered.take u.bytesToRead = got
  dsimp only
  by_cases htime : got.length = 0 ∧ r.timeOut = true
  · simp only [if_pos htime]
    rfl
  · simp only [if_neg htime]
    generalize hv : Updater.fill got _ = v
    have hkept : v.error = u.error ∧ v.size = u.size := by
      rw [← hv]
      exact ⟨rfl, rfl⟩
    split
    · generalize hwb : v.writeBuffer = r
      obtain ⟨ok, w⟩ := r
      have hflush := writeBuffer_kept hwb
      cases ok with
      | false => exact hflush
      | true => exact ⟨hflush.1.trans hkept.1, hflush.2.trans hkept.2⟩
    · exact hkept

theorem availableRound_kept {offered : List UInt8} {u : Updater F}
    (h : (Updater.availableRound offered u).more = true) :
    (Updater.availableRound offered u).state.error = u.error ∧
      (Updater.availableRound offered u).state.size = u.size := by
  rw [Updater.availableRound] at h ⊢
  generalize (if u.bufferLen + offered.length > u.remaining then
    sub32 u.remaining u.bufferLen else offered.length) = available at h ⊢
  dsimp only at h ⊢
  split
  · rename_i hmore
    rw [if_pos hmore] at h
    generalize hwb : (u.fill (offered.take (u.bufferSize - u.bufferLen))).writeBuffer = r at h
    obtain ⟨ok, w⟩ := r
    have hflush := writeBuffer_kept hwb
    cases ok with
    | false => cases h
    | true => exact hflush
  · rename_i hmore
    rw [if_neg hmore] at h
    split
    · rename_i hfull
      rw [if_pos hfull] at h
      generalize hwb : (u.fill (offered.take available)).writeBuffer = r at h
      obtain ⟨ok, w⟩ := r
      have hflush := writeBuffer_kept hwb
      cases ok with
      | false => cases h
      | true => exact hflush
    · exact ⟨rfl, rfl⟩

theorem idle_of_size (h : u.size = 0) : u.hasError ∨ ¬ u.isRunning :=
  .inr (by rw [isRunning, h]; exact Nat.lt_irrefl 0)

/-! ## The result -/

structure Inside (u : Updater F) : Prop where
  bufferLen_le : u.bufferLen ≤ u.bufferSize
  fits : u.progress + u.bufferLen ≤ u.size
  remaining : u.remaining = u.size - u.progress

theorem Running.inside (h : Running u) : Inside u where
  bufferLen_le := h.bufferLen_le
  fits := by rw [h.progress]; exact h.fits
  remaining := h.remaining

/-- **Runs keep to their region.**  In a run whose every action is fit, a
running update never has more in the buffer than fits it, nor more bytes taken
than declared; and an action reads and programs only inside the region of the
update it finds running. -/
theorem run_inside (hu : ¬ u.isRunning) {actions : List Action} {a : Action}
    (hfit : Runs.AllFit act Fits (actions ++ [a]) u) :
    ((run actions u).isRunning → Inside (run actions u)) ∧
      ((run (actions ++ [a]) u).isRunning → Inside (run (actions ++ [a]) u)) ∧
      Logged (run actions u) (run (actions ++ [a]) u) := by
  obtain ⟨hbefore, hlast⟩ := Runs.allFit_append.mp hfit
  have hstart : Inv u := fun hr => absurd hr hu
  have hinv : Inv (run actions u) :=
    Runs.invariant (fun a s (hs : Inv s) hf => (act_spec a hs hf).1) hstart hbefore
  obtain ⟨hinv', hlogged⟩ := act_spec a hinv hlast.1
  have hrun : run (actions ++ [a]) u = act a (run actions u) := Runs.after_append _ _ _
  rw [hrun]
  exact ⟨fun hr => (hinv hr).inside, fun hr => (hinv' hr).inside, hlogged⟩

end

def sampleStream : List Action :=
  [.beginUpdate sampleLayout sampleBegin 100 (by decide) U_FLASH, .streamHeader 0xE9,
    .streamRound ⟨List.replicate 60 0xE9, false⟩]

def sampleRun (reads : List StreamRead) : Updater (sampleFlash fun _ => false) :=
  run (sampleStream ++ reads.map .streamRound) (init none (sampleChip (fun _ => false) 0))

/-- The other 40 come in the next read. -/
theorem run_inside_sample :
    (sampleRun []).bufferLen = 60 ∧ Inside (sampleRun []) ∧
      Logged (sampleRun []) (sampleRun [⟨List.replicate 40 1, false⟩]) := by
  have hfit : Runs.AllFit act Fits
      (sampleStream ++ [.streamRound ⟨replicate 40 1, false⟩])
      (init none (sampleChip (fun _ => false) 0)) := by decide +kernel
  obtain ⟨hinside, -, hlogged⟩ := run_inside (by decide) hfit
  exact ⟨by decide +kernel, hinside (by decide +kernel), hlogged⟩

/-- The stream offers more: 100 bytes are read behind the 60, then 96 more
fill the buffer of 256 bytes and all of it is programmed. -/
theorem run_not_inside :
    ¬ ((sampleRun [⟨List.replicate 100 1, false⟩]).isRunning →
      Inside (sampleRun [⟨List.replicate 100 1, false⟩])) ∧
    ∃ u, u = sampleRun [⟨List.replicate 100 1, false⟩, ⟨List.replicate 100 1, false⟩] ∧
      Event.flashWrite u.startAddress 256 ∈ u.log ∧ u.size = 100 ∧ u.remaining = 4294967140 := by
  refine ⟨fun h => ?_, _, rfl, by decide +kernel⟩
  have hfits := (h (by decide +kernel)).fits
  revert hfits
  decide +kernel

end Updater
