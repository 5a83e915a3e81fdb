import RalioFirmware.Updater.Truthful

/-!
# A signed image read back

`tools/signing.py` appends to an image its signature and the length of that
as a word.  `end` finds the length, hashes what stands before the signature
and hands both to the verifier.  It hashes 128 bytes at a time through the
word overload of `flashRead`, which refuses a size that is not a multiple of
four, and looks at no result: `signed_agreed_iff` says when the hash has
been fed the image all the same.
-/

open Word Bytes Nor Nor.Chip Esp List

namespace Updater

variable {F : SpiFlash} {env : EndEnv}

/-! ## Reads that are answered -/

/-- The driver answers the reads `(address, size)`, one after the other. -/
def Answered : List (Nat × Nat) → Chip F → Prop
  | [], _ => True
  | (a, n) :: rest, c => (c.read a n).1.isSome = true ∧ Answered rest (c.read a n).2

instance Answered.decidable : ∀ (reads : List (Nat × Nat)) (c : Chip F),
    Decidable (Answered reads c)
  | [], _ => inferInstanceAs (Decidable True)
  | (a, n) :: rest, c =>
    have := Answered.decidable rest (c.read a n).2
    inferInstanceAs (Decidable ((c.read a n).1.isSome = true ∧ Answered rest (c.read a n).2))

/-- The driver answers every read from `lo` up to `hi`. -/
def AnswersIn (F : SpiFlash) (lo hi : Nat) : Prop :=
  ∀ a n d, lo ≤ a → a + n ≤ hi → (F.read a n d).1.isSome = true

section

variable {lo hi : Nat}

theorem AnswersIn.mono (h : AnswersIn F lo hi) {lo' hi' : Nat} (hlo : lo ≤ lo') (hhi : hi' ≤ hi) :
    AnswersIn F lo' hi' :=
  fun a n d h₁ h₂ => h a n d (Nat.le_trans hlo h₁) (Nat.le_trans h₂ hhi)

theorem AnswersIn.read (h : AnswersIn F lo hi) {a n : Nat} (hlo : lo ≤ a) (hhi : a + n ≤ hi)
    (c : Chip F) : c.read a n = (some (slice c.cells a n), (c.read a n).2) := by
  have hsome : (c.read a n).1.isSome = true := h a n c.dev hlo hhi
  obtain ⟨bs, hbs⟩ := Option.isSome_iff_exists.mp hsome
  have hread : c.read a n = (some bs, (c.read a n).2) := Prod.ext hbs rfl
  rw [← (read_some hread).1]
  exact hread

theorem AnswersIn.bounceLoop (h : AnswersIn F lo hi) {rounds address sizeLeft : Nat}
    {got : List UInt8} (c : Chip F) (hl : sizeLeft % 4 = 0) (hlo : lo ≤ address)
    (hhi : address + got.length + sizeLeft ≤ hi) :
    (readBounceLoop rounds address sizeLeft got c).1 = true := by
  induction rounds generalizing sizeLeft got c with
  | zero => rfl
  | succ k ih =>
    rw [readBounceLoop]
    split
    · rfl
    · dsimp only
      rw [flashReadWords, if_neg (by omega), h.read (by omega) (by omega) c]
      refine ih _ (by omega) ?_
      rw [length_append, slice_length]
      omega

theorem AnswersIn.aligned (h : AnswersIn F lo hi) {address size : Nat} (ptr : Nat) (c : Chip F)
    (hs : size % 4 = 0) (hlo : lo ≤ address) (hhi : address + size ≤ hi) :
    (readAligned address ptr size c).1 = true := by
  rw [readAligned]
  split
  · exact h.bounceLoop c hs hlo (by simpa using hhi)
  · rw [flashReadWords, if_neg (by omega), h.read hlo hhi c]

theorem AnswersIn.bytes (h : AnswersIn F lo hi) {address size : Nat} (ptr : Nat) (c : Chip F)
    (hsize : size < 4294967296) (hlo : lo ≤ address) (hhi : address + size + 3 ≤ hi) :
    ∃ c', flashReadBytes address ptr size c = (true, slice c.cells address size, c') := by
  have hal : clearLow 2 size = size / 4 * 4 := clearLow_eq (by omega) rfl hsize
  have hok : (flashReadBytes address ptr size c).1 = true := by
    have hfirst : (readAligned address ptr (size / 4 * 4) c).1 = true :=
      h.aligned ptr c (by omega) hlo (by omega)
    rw [flashReadBytes, hal]
    generalize readAligned address ptr (size / 4 * 4) c = first at hfirst
    obtain ⟨ok, got, c₁⟩ := first
    obtain rfl : ok = true := hfirst
    dsimp only
    split
    · rw [h.read (by omega) (by omega) c₁]
    · rfl
  generalize hread : flashReadBytes address ptr size c = r at hok
  obtain ⟨ok, got, c'⟩ := r
  obtain rfl : ok = true := hok
  have hgot : Reads (some got) c c' address size := flashReadBytes_spec hsize hread
  exact ⟨c', by rw [hgot.2.1]⟩

end

/-! ## The hash loop -/

/-- The reads that hashing `binSize` bytes takes. -/
def pieceReads (startAddress binSize : Nat) : List (Nat × Nat) :=
  (List.range ((binSize + 127) / 128)).map fun k =>
    (startAddress + 128 * k, min 128 (binSize - 128 * k))

theorem flashReadWords_word {address len : Nat} (hlen : len % 4 = 0) (c : Chip F) :
    flashReadWords address 0 len c = c.read address len := by
  rw [flashReadWords, if_neg (by omega)]

theorem hashLoop_fresh {startAddress binSize rounds k : Nat} {buff : List UInt8} {c : Chip F}
    (hstart : startAddress + binSize < 4294967296) (hrounds : binSize ≤ 128 * (k + rounds)) :
    ((∀ piece ∈ (hashLoop startAddress binSize rounds (128 * k) buff c).1, piece.1 = true) ↔
      (128 * k < binSize → binSize % 4 = 0) ∧
        Answered ((List.range' k ((binSize + 127) / 128 - k)).map fun k =>
          (startAddress + 128 * k, min 128 (binSize - 128 * k))) c) ∧
    ((∀ piece ∈ (hashLoop startAddress binSize rounds (128 * k) buff c).1, piece.1 = true) →
      ((hashLoop startAddress binSize rounds (128 * k) buff c).1.flatMap fun (_, bytes) => bytes) =
        slice c.cells (startAddress + 128 * k) (binSize - 128 * k)) := by
  induction rounds generalizing k buff c with
  | zero =>
    have hcount : (binSize + 127) / 128 - k = 0 := by omega
    have hleft : binSize - 128 * k = 0 := by omega
    have hlt : ¬ 128 * k < binSize := by omega
    simp [hashLoop, Answered, slice, hcount, hleft, hlt]
  | succ rounds ih =>
    rw [hashLoop]
    by_cases hlt : 128 * k < binSize
    · obtain ⟨n, hn⟩ : ∃ n, (binSize + 127) / 128 - k = n + 1 :=
        ⟨(binSize + 127) / 128 - k - 1, by omega⟩
      have hrest : (binSize + 127) / 128 - (k + 1) = n := by omega
      rw [if_pos hlt, hn, range'_succ, map_cons, Answered,
        u32_of_lt (show startAddress + 128 * k < 4294967296 by omega),
        show 128 * k + 128 = 128 * (k + 1) by omega]
      dsimp only
      by_cases hword : min 128 (binSize - 128 * k) % 4 = 0
      · rw [flashReadWords_word hword]
        generalize hread : c.read (startAddress + 128 * k) (min 128 (binSize - 128 * k)) = r
        obtain ⟨result, c'⟩ := r
        cases result with
        | none => simp
        | some bytes =>
          obtain ⟨hbytes, hcells, -⟩ := read_some hread
          obtain ⟨hall, hslice⟩ := @ih (k + 1) (memcpy buff 0 bytes) c' (by omega)
          rw [hrest] at hall
          refine ⟨?_, fun hfresh => ?_⟩
          · rw [forall_mem_cons, hall]
            have hiff : (128 * (k + 1) < binSize → binSize % 4 = 0) ↔
                (128 * k < binSize → binSize % 4 = 0) := by omega
            simp [hiff]
          · have htail := hslice fun piece hp => hfresh piece (mem_cons_of_mem _ hp)
            rw [flatMap_cons, htail, hbytes, hcells]
            by_cases hlast : binSize ≤ 128 * (k + 1)
            · rw [Nat.sub_eq_zero_of_le hlast, Nat.min_eq_right (by omega)]
              simp [slice]
            · rw [show binSize - 128 * k = 128 + (binSize - 128 * (k + 1)) by omega,
                Nat.min_eq_left (by omega), slice_append, Nat.add_assoc,
                show 128 * k + 128 = 128 * (k + 1) by omega]
      · -- Only the last piece can end inside a word.
        rw [flashReadWords, if_pos (.inr hword)]
        have hodd : ¬ binSize % 4 = 0 := by omega
        simp [hlt, hodd]
    · have hcount : (binSize + 127) / 128 - k = 0 := by omega
      have hleft : binSize - 128 * k = 0 := by omega
      rw [if_neg hlt]
      simp [Answered, slice, hcount, hleft, hlt]

/-! ## What the signature path asks -/

/-- The length word is the one the verifier expects, and the image has room
for what it announces. -/
def SigFits (w : Verifier) (u : Updater F) : Prop :=
  w.length > 0 → u.readSigLen.1 = w.length ∧ u32 (w.length + 4) ≤ u.size

instance (w : Verifier) (u : Updater F) : Decidable (SigFits w u) := by
  unfold SigFits; infer_instance

def hashedChip (w : Verifier) (u : Updater F) : Chip F :=
  if w.length > 0 then u.readSigLen.2 else u.chip

/-- The call of the verifier, with the signature read from `address`; none
where there is no memory for it. -/
def verifierCall (env : EndEnv) (w : Verifier) (hashed : List UInt8) (address : Nat)
    (c : Chip F) : List Event :=
  if w.length > 0 then
    match env.alloc w.length with
    | none => []
    | some block =>
      [.verify hashed (memcpy block.bytes 0 (flashReadBytes address block.ptr w.length c).2.1)]
  else [.verify hashed []]

def pieceEvents (pieces : List (Bool × List UInt8)) : List Event :=
  pieces.map fun (fresh, bytes) => .hashAdd fresh bytes

/-- What `end` asks once the length word fits: it feeds the pieces to the hash
and calls the verifier. -/
def verifyEvents (env : EndEnv) (w : Verifier) (u : Updater F) : List Event :=
  let binSize := payloadSize (some w) u.size
  let (pieces, c) := hashLoop u.startAddress binSize (binSize / 128 + 1) 0 env.buff
    (u.hashedChip w)
  pieceEvents pieces ++
    verifierCall env w (pieces.flatMap fun (_, bytes) => bytes) (u32 (u.startAddress + binSize)) c

theorem verifyHash_log (env : EndEnv) (w : Verifier) (hashed : List UInt8) (binSize : Nat)
    (u : Updater F) :
    (u.verifyHash env w hashed w.length binSize).2.log =
      u.log ++ verifierCall env w hashed (u32 (u.startAddress + binSize)) u.chip := by
  unfold verifyHash verifierCall
  by_cases hpos : w.length > 0
  · rw [if_pos hpos, if_pos hpos]
    cases env.alloc w.length with
    | none => simp [setError, reset]
    | some block =>
      dsimp only
      split <;> rfl
  · rw [if_neg hpos, if_neg hpos]
    dsimp only
    split <;> rfl

theorem checkSignature_log (env : EndEnv) (w : Verifier) (u : Updater F) :
    (u.checkSignature env w).2.log =
      u.log ++ if SigFits w u then verifyEvents env w u else [] := by
  have hread : (if w.length > 0 then u.readSigLen else (0, u.chip)) =
      (if w.length > 0 then u.readSigLen.1 else 0, u.hashedChip w) := by
    unfold hashedChip
    split <;> rfl
  unfold checkSignature
  dsimp only
  rw [hread]
  dsimp only
  by_cases hsig : (if w.length > 0 then u.readSigLen.1 else 0) = w.length
  · rw [if_neg (not_not.mpr hsig), hsig]
    by_cases hroom : w.length > 0 ∧ u.size < u32 (w.length + 4)
    · rw [if_pos hroom, if_neg (fun h => by have := (h hroom.1).2; omega)]
      simp [setError, reset]
    · have hfits : SigFits w u := fun hpos => by
        rw [if_pos hpos] at hsig
        exact ⟨hsig, by omega⟩
      rw [if_neg hroom, if_pos hfits]
      have hbin : (if w.length > 0 then u.size - u32 (w.length + 4) else u.size) =
          payloadSize (some w) u.size := rfl
      rw [hbin]
      have hlog := verifyHash_log env w
        ((({ u with chip := u.hashedChip w } : Updater F).hashPayload env
          (payloadSize (some w) u.size)).1) (payloadSize (some w) u.size)
        ((({ u with chip := u.hashedChip w } : Updater F).hashPayload env
          (payloadSize (some w) u.size)).2)
      split <;> rename_i hv <;> rw [hv] at hlog <;>
        simpa [hashPayload, verifyEvents, pieceEvents, reset] using hlog
  · rw [if_pos hsig, if_neg (fun h => hsig ?_)]
    · simp [setError, reset]
    · split
      · exact (h ‹_›).1
      · omega

theorem finish_log (env : EndEnv) (u : Updater F) :
    (u.finish env).2.log = (u.checkImage env).2.log := by
  unfold finish
  generalize u.checkImage env = r
  obtain ⟨ok, u₁⟩ := r
  cases ok with
  | false => rfl
  | true =>
    have hver : u₁.verifyEnd.2.log = u₁.log := by
      unfold verifyEnd
      split
      · split
        · rfl
        · dsimp only
          split <;> rfl
      · split <;> rfl
    dsimp only
    generalize u₁.verifyEnd = r at hver
    obtain ⟨ok, u₂⟩ := r
    cases ok with
    | false => exact hver
    | true =>
      dsimp only
      split <;> exact hver

/-! ## Agreement with the signing tool -/

/-- The file `sign_and_write` of `tools/signing.py` writes for `data` and the
signature `signout` that openssl made of it. -/
def signAndWrite (data signout : List UInt8) : List UInt8 :=
  data ++ signout ++ le32 signout.length

def fed : Event → List UInt8
  | .hashAdd _ bytes => bytes
  | _ => []

/-- What `end` makes of an image that `tools/signing.py` wrote: it feeds the
hash the payload and no byte left over from an earlier piece, calls the
verifier on the payload and the signature, and stages the payload's length. -/
structure Agreed (payload signature : List UInt8) (u₀ : Updater F) (evs : List Event) (r : Bool)
    (u₂ : Updater F) : Prop where
  fed : evs.flatMap fed = payload
  fresh : ∀ bytes, Event.hashAdd false bytes ∉ evs
  verified : ∀ hashed sig, Event.verify hashed sig ∈ evs ↔ hashed = payload ∧ sig = signature
  staged : r = true → u₀.command = U_FLASH → Stored u₂.rtc u₀.startAddress payload.length

theorem le32_ofLe {bytes : List UInt8} (h : bytes.length = 4) : le32 (ofLe bytes) = bytes := by
  rcases bytes with _ | ⟨a, _ | ⟨b, _ | ⟨c, _ | ⟨d, _ | ⟨e, more⟩⟩⟩⟩⟩ <;>
    simp only [length_cons, length_nil] at h <;> try omega
  have ha := a.toNat_lt
  have hb := b.toNat_lt
  have hc := c.toNat_lt
  have hd := d.toNat_lt
  simp only [le32, ofLe, cons.injEq, and_true, ← UInt8.toNat_inj, UInt8.toNat_ofNat',
    Nat.shiftRight_eq_div_pow]
  omega

variable {r : Bool} {evs : List Event}

section

variable {u₀ v u₂ : Updater F} {w : Verifier} {payload signature : List UInt8}

theorem Flushed.slices (h : Flushed u₀ (signAndWrite payload signature) v) :
    slice v.chip.cells v.startAddress payload.length ++
        slice v.chip.cells (v.startAddress + payload.length) signature.length ++
        slice v.chip.cells (v.startAddress + (payload.length + signature.length)) 4 =
      u₀.toProgram (signAndWrite payload signature) := by
  have hholds : Holds v.chip.cells v.startAddress
      (u₀.toProgram (signAndWrite payload signature)) := by
    rw [h.cells, h.startAddress]
    exact rewritten_holds (by decide)
  have hlen : (u₀.toProgram (signAndWrite payload signature)).length =
      payload.length + signature.length + 4 := by
    simp [signAndWrite, Nat.add_assoc]
  rw [← slice_append, ← slice_append, ← hlen]
  exact hholds.slice_eq

theorem readSigLen_eq (hin : v.startAddress + v.size ≤ F.capacity) (h4 : 4 ≤ v.size)
    (hsdk : AnswersIn F (v.startAddress + (v.size - 4)) (v.startAddress + v.size)) :
    v.readSigLen.1 = ofLe (slice v.chip.cells (v.startAddress + (v.size - 4)) 4) := by
  have hmax := F.capacity_le
  have haddr : sub32 (u32 (v.startAddress + v.size)) 4 = v.startAddress + (v.size - 4) := by
    rw [u32_of_lt (by omega), sub32]
    omega
  unfold readSigLen
  rw [haddr]
  dsimp only
  rw [flashReadWords_word (by decide), hsdk.read (Nat.le_refl _) (by omega) v.chip]

theorem verifyEvents_eq {pieces : List (Bool × List UInt8)} {c : Chip F}
    (hloop : hashLoop v.startAddress (payloadSize (some w) v.size)
      (payloadSize (some w) v.size / 128 + 1) 0 env.buff (v.hashedChip w) = (pieces, c)) :
    verifyEvents env w v = pieceEvents pieces ++
      verifierCall env w (pieces.flatMap fun (_, bytes) => bytes)
        (u32 (v.startAddress + payloadSize (some w) v.size)) c := by
  unfold verifyEvents
  dsimp only
  rw [hloop]

theorem mem_verifierCall {hashed : List UInt8} {address : Nat} {c : Chip F} {e : Event}
    (h : e ∈ verifierCall env w hashed address c) : ∃ sig, e = .verify hashed sig := by
  unfold verifierCall at h
  split at h
  · split at h
    · cases h
    · exact ⟨_, mem_singleton.mp h⟩
  · exact ⟨_, mem_singleton.mp h⟩

section

variable {pieces : List (Bool × List UInt8)} {hashed : List UInt8} {address : Nat} {c : Chip F}

theorem fed_pieces : (pieceEvents pieces ++ verifierCall env w hashed address c).flatMap
    fed = pieces.flatMap fun (_, bytes) => bytes := by
  have hnil : (verifierCall env w hashed address c).flatMap fed = [] := by
    rw [flatMap_eq_nil_iff]
    intro e he
    obtain ⟨sig, rfl⟩ := mem_verifierCall he
    rfl
  rw [flatMap_append, hnil, append_nil, pieceEvents, flatMap_map]
  rfl

theorem fresh_pieces_iff :
    (∀ bytes, Event.hashAdd false bytes ∉ pieceEvents pieces ++
      verifierCall env w hashed address c) ↔ ∀ piece ∈ pieces, piece.1 = true := by
  constructor
  · rintro h ⟨fresh, bytes⟩ hp
    cases fresh with
    | true => rfl
    | false =>
      refine absurd (mem_append_left _ ?_) (h bytes)
      exact mem_map.mpr ⟨(false, bytes), hp, rfl⟩
  · intro h bytes hmem
    rcases mem_append.mp hmem with hpiece | hcall
    · obtain ⟨⟨fresh, piece⟩, hp, heq⟩ := mem_map.mp hpiece
      obtain ⟨rfl, -⟩ := Event.hashAdd.inj heq
      cases h _ hp
    · obtain ⟨sig, heq⟩ := mem_verifierCall hcall
      cases heq

theorem verify_pieces_iff {hashed' sig : List UInt8} :
    Event.verify hashed' sig ∈ pieceEvents pieces ++ verifierCall env w hashed address c ↔
      Event.verify hashed' sig ∈ verifierCall env w hashed address c := by
  rw [mem_append, or_iff_right]
  intro hpiece
  obtain ⟨piece, -, heq⟩ := mem_map.mp hpiece
  cases heq

end

/-- The first flush of `image` leaves its mode byte alone: it is no sketch, it
is compressed, or the core takes its mode for that of the chip. -/
def ModeMatches (u₀ : Updater F) (image : List UInt8) : Prop :=
  u₀.command = U_FLASH →
    image.getD 0 0 = 0x1f ∨ magicFlashChipMode (image.getD 2 0) = u₀.chipMode

instance (u₀ : Updater F) (image : List UInt8) : Decidable (ModeMatches u₀ image) := by
  unfold ModeMatches; infer_instance

theorem magicFlashChipMode_idem (byte : UInt8) :
    magicFlashChipMode (magicFlashChipMode byte) = magicFlashChipMode byte := by
  unfold magicFlashChipMode
  by_cases h : byte > 3
  · rw [if_pos h, if_pos (by decide)]
  · rw [if_neg h, if_neg h]

theorem magicFlashChipMode_chipMode (u : Updater F) :
    magicFlashChipMode u.chipMode = u.chipMode := by
  unfold chipMode getFlashChipMode
  split
  · exact magicFlashChipMode_idem _
  · exact (by decide : magicFlashChipMode FM_UNKNOWN = FM_UNKNOWN)

theorem Begun.toProgram_eq_self_iff (hb : Begun u₀) {image : List UInt8}
    (hlen : 3 ≤ image.length) : u₀.toProgram image = image ↔ ModeMatches u₀ image := by
  rw [toProgram, ModeMatches]
  by_cases hflash : u₀.command = U_FLASH
  · rw [if_pos (hb.atHeader_iff.mpr hflash), patchMode]
    split
    · rename_i hpatch
      refine iff_of_false (fun heq => hpatch.2 ?_) (by simpa [hflash] using hpatch)
      have hbyte : image.getD 2 0 = u₀.chipMode := by
        rw [← heq, getD_eq_getElem?_getD, getElem?_set_self (by omega), Option.getD_some]
      rw [hbyte]
      exact magicFlashChipMode_chipMode u₀
    · grind
  · rw [if_neg (fun h => hflash (hb.atHeader_iff.mp h))]
    exact iff_of_true rfl fun h => absurd h hflash

/-- What it takes for `end` to read back a signed image, `v` being the state
it checks: the signature is one the verifier expects, the payload is whole
words, the first flush has left its mode byte alone, there is memory for the
signature, and the driver answers the reads of the payload. -/
structure ReadsBack (env : EndEnv) (w : Verifier) (u₀ : Updater F)
    (payload signature : List UInt8) (v : Updater F) : Prop where
  expected : 0 < signature.length ∧ signature.length = w.length
  words : payload.length % 4 = 0
  mode : ModeMatches u₀ (signAndWrite payload signature)
  room : env.alloc signature.length ≠ none
  answered : Answered (pieceReads u₀.startAddress payload.length) v.readSigLen.2

theorem hashPieces_fresh {startAddress binSize : Nat} {buff : List UInt8} {c c' : Chip F}
    {pieces : List (Bool × List UInt8)} (hstart : startAddress + binSize < 4294967296)
    (hloop : hashLoop startAddress binSize (binSize / 128 + 1) 0 buff c = (pieces, c')) :
    ((∀ piece ∈ pieces, piece.1 = true) ↔
      binSize % 4 = 0 ∧ Answered (pieceReads startAddress binSize) c) ∧
    ((∀ piece ∈ pieces, piece.1 = true) →
      (pieces.flatMap fun (_, bytes) => bytes) = slice c.cells startAddress binSize) := by
  have hspec :=
    @hashLoop_fresh F startAddress binSize (binSize / 128 + 1) 0 buff c hstart (by omega)
  rw [Nat.mul_zero, hloop, Nat.sub_zero, Nat.sub_zero, Nat.add_zero, ← range_eq_range']
    at hspec
  have hword : (0 < binSize → binSize % 4 = 0) ↔ binSize % 4 = 0 := by omega
  rwa [hword] at hspec

theorem hashLoop_pieces (env : EndEnv) (w : Verifier)
    (hin : v.startAddress + v.size ≤ F.capacity) :
    ∃ pieces c, hashLoop v.startAddress (payloadSize (some w) v.size)
        (payloadSize (some w) v.size / 128 + 1) 0 env.buff (v.hashedChip w) = (pieces, c) ∧
      c.cells = v.chip.cells ∧
      ((∀ piece ∈ pieces, piece.1 = true) ↔ payloadSize (some w) v.size % 4 = 0 ∧
        Answered (pieceReads v.startAddress (payloadSize (some w) v.size)) (v.hashedChip w)) ∧
      ((∀ piece ∈ pieces, piece.1 = true) → (pieces.flatMap fun (_, bytes) => bytes) =
        slice v.chip.cells v.startAddress (payloadSize (some w) v.size)) := by
  have hmax := F.capacity_le
  have hle : payloadSize (some w) v.size ≤ v.size := by
    simp only [payloadSize]
    split <;> omega
  have hchip : (v.hashedChip w).cells = v.chip.cells := by
    unfold hashedChip
    split
    · exact (readSigLen_readOnly v).cells
    · rfl
  have hro := hashLoop_readOnly v.startAddress (payloadSize (some w) v.size)
    (payloadSize (some w) v.size / 128 + 1) 0 env.buff (v.hashedChip w)
  generalize hloop : hashLoop v.startAddress (payloadSize (some w) v.size)
    (payloadSize (some w) v.size / 128 + 1) 0 env.buff (v.hashedChip w) = loop at hro
  obtain ⟨pieces, c⟩ := loop
  obtain ⟨hiff, hslice⟩ := hashPieces_fresh (by omega) hloop
  rw [hchip] at hslice
  exact ⟨pieces, c, rfl, hro.cells.trans hchip, hiff, hslice⟩

theorem verifierCall_read {lo hi address : Nat} (hsdk : AnswersIn F lo hi) (hashed : List UInt8)
    (c : Chip F) (hpos : 0 < w.length) (hlo : lo ≤ address) (hhi : address + w.length + 3 ≤ hi) :
    verifierCall env w hashed address c =
      if env.alloc w.length = none then []
      else [.verify hashed (slice c.cells address w.length)] := by
  rw [verifierCall, if_pos hpos]
  cases env.alloc w.length with
  | none => rfl
  | some block =>
    obtain ⟨c', hread⟩ := hsdk.bytes block.ptr c w.length_lt hlo hhi
    have hdrop : block.bytes.drop w.length = [] :=
      drop_eq_nil_of_le (Nat.le_of_eq block.length_eq)
    dsimp only
    rw [hread, if_neg (by simp), memcpy, slice_length, Nat.zero_add, hdrop, take_zero,
      nil_append, append_nil]

theorem Flushed.unchanged_iff (h : Flushed u₀ (signAndWrite payload signature) v) :
    u₀.toProgram (signAndWrite payload signature) = signAndWrite payload signature ↔
      slice v.chip.cells v.startAddress payload.length = payload ∧
        slice v.chip.cells (v.startAddress + payload.length) signature.length = signature ∧
        slice v.chip.cells (v.startAddress + (payload.length + signature.length)) 4 =
          le32 signature.length := by
  rw [← h.slices, signAndWrite]
  constructor
  · intro heq
    obtain ⟨hfront, hword⟩ := append_inj heq (by simp)
    obtain ⟨hpayload, hsignature⟩ := append_inj hfront (by simp)
    exact ⟨hpayload, hsignature, hword⟩
  · grind

/-- **A flushed image that was signed** is hashed, verified and staged as it
should be exactly when it can be read back. -/
theorem Flushed.agreed_iff (hb : Begun u₀)
    (h : Flushed u₀ (signAndWrite payload signature) v)
    (hlt : (signAndWrite payload signature).length < 4294967296) (hver : u₀.verifier = some w)
    (hsdk : AnswersIn F (u₀.startAddress + payload.length)
      (u₀.startAddress + (signAndWrite payload signature).length))
    (hend : v.finish env = (r, u₂)) :
    Agreed payload signature u₀ (if SigFits w v then verifyEvents env w v else []) r u₂ ↔
      ReadsBack env w u₀ payload signature v := by
  have hlen : (signAndWrite payload signature).length =
      payload.length + signature.length + 4 := by
    simp [signAndWrite, Nat.add_assoc]
  have hsize := h.size
  have hstart := h.startAddress
  have hin : u₀.startAddress + (signAndWrite payload signature).length ≤ F.capacity :=
    h.within.resolve_left fun hnil => by rw [hnil] at hlen; simp at hlen
  have hmax := F.capacity_le
  rw [hlen] at hlt hsdk hin hsize
  have hword := readSigLen_eq (v := v) (by omega) (by omega) (hsdk.mono (by omega) (by omega))
  rw [hsize, Nat.add_sub_cancel] at hword
  have hbin : ∀ n, w.length = n → 0 < n → n + 4 < 4294967296 →
      payloadSize (some w) v.size = v.size - (n + 4) := by
    intro n hn hpos hroom
    simp only [payloadSize, hn]
    rw [if_pos hpos, u32_of_lt hroom]
  obtain ⟨pieces, c, hloop, hc, hiff, hslice⟩ := hashLoop_pieces env w (v := v) (by omega)
  have hcall : w.length = signature.length → 0 < signature.length →
      payloadSize (some w) v.size = payload.length →
      verifierCall env w (pieces.flatMap fun (_, bytes) => bytes)
          (u32 (v.startAddress + payloadSize (some w) v.size)) c =
        if env.alloc signature.length = none then [] else
          [.verify (pieces.flatMap fun (_, bytes) => bytes)
            (slice v.chip.cells (v.startAddress + payload.length) signature.length)] := by
    intro hw hpos hpay
    rw [hpay, u32_of_lt (by omega), verifierCall_read hsdk _ c (by omega) (by omega) (by omega),
      hc, hw]
  constructor
  · intro hagreed
    have hfits : SigFits w v := by
      by_contra hno
      rw [if_neg hno] at hagreed
      cases (hagreed.verified payload signature).mpr ⟨rfl, rfl⟩
    rw [if_pos hfits, verifyEvents_eq hloop] at hagreed
    have hfresh := fresh_pieces_iff.mp hagreed.fresh
    have hfed := hagreed.fed
    rw [fed_pieces, hslice hfresh] at hfed
    have hpay : payloadSize (some w) v.size = payload.length := by rw [← hfed, slice_length]
    have hexpected : 0 < w.length ∧ w.length = signature.length := by
      have hw := w.length_lt
      simp only [payloadSize] at hpay
      split at hpay
      · rename_i hpos
        have hroom := (hfits hpos).2
        unfold u32 at hroom hpay
        omega
      · omega
    obtain ⟨hpos, hw⟩ := hexpected
    obtain ⟨hwords, hanswered⟩ := hiff.mp hfresh
    have hverify := (hagreed.verified payload signature).mpr ⟨rfl, rfl⟩
    rw [verify_pieces_iff, hcall hw (by omega) hpay] at hverify
    rw [hpay] at hwords hanswered hfed
    rw [hashedChip, if_pos hpos, hstart] at hanswered
    split at hverify
    · cases hverify
    · rename_i hroom
      obtain ⟨-, hsig⟩ := Event.verify.inj (mem_singleton.mp hverify)
      refine ⟨⟨by omega, hw.symm⟩, hwords, ?_, hroom, hanswered⟩
      refine (hb.toProgram_eq_self_iff (by omega)).mp (h.unchanged_iff.mpr ⟨hfed, hsig.symm, ?_⟩)
      rw [← le32_ofLe (slice_length v.chip.cells _ 4), ← hword, (hfits hpos).1, hw]
  · rintro ⟨⟨hpos, hw⟩, hwords, hmode, hroom, hanswered⟩
    obtain ⟨hpayload, hsig, hlast⟩ :=
      h.unchanged_iff.mp ((hb.toProgram_eq_self_iff (by omega)).mpr hmode)
    have hpay : payloadSize (some w) v.size = payload.length := by grind
    have hfits : SigFits w v := by
      intro _
      rw [hword, hlast, ofLe_le32, u32_of_lt (by omega), ← hw, u32_of_lt (by omega), hsize]
      omega
    rw [hpay] at hiff hslice
    have hfresh : ∀ piece ∈ pieces, piece.1 = true := by
      rw [hiff, hashedChip, if_pos (by omega), hstart]
      exact ⟨hwords, hanswered⟩
    have hhashed : (pieces.flatMap fun (_, bytes) => bytes) = payload :=
      (hslice hfresh).trans hpayload
    rw [if_pos hfits, verifyEvents_eq hloop]
    refine ⟨fed_pieces.trans hhashed, fresh_pieces_iff.mpr hfresh, ?_, ?_⟩
    · intro hashed sig
      rw [verify_pieces_iff, hcall hw.symm hpos hpay, if_neg hroom, hhashed, hsig,
        mem_singleton, Event.verify.injEq]
    · intro hr hcommand
      subst hr
      have htruth : Truthful u₀ (signAndWrite payload signature) v false true u₂ :=
        h.truthful hend false
      have hstored := (htruth.success rfl).2.2 hcommand
      rwa [hver, hlen, ← hsize, hpay] at hstored

/-- `end` gets the whole of an image of `n` bytes to check: the update has not
been dropped, and the image is as long as announced, or `end(true)` is called
with something flushed and flushes the rest. -/
def Complete (u₀ : Updater F) (n : Nat) (even : Bool) (u₁ : Updater F) : Prop :=
  u₁.error = .ok ∧ (n = u₀.size ∨ even = true ∧ u₀.bufferSize < n ∧
    (0 < u₁.bufferLen → u₁.writeBuffer.1 = true))

theorem not_agreed
    (h : Event.verify payload signature ∉ evs) : ¬ Agreed payload signature u₀ evs r u₂ :=
  fun hagreed => h ((hagreed.verified _ _).mpr ⟨rfl, rfl⟩)

theorem not_hashed_of_flush {address size : Nat}
    (h : evs <+: flushEvents address size) {e : Event} (he : e ∈ evs) :
    fed e = [] ∧ (∀ fresh bytes, e ≠ .hashAdd fresh bytes) ∧
      ∀ hashed sig, e ≠ .verify hashed sig := by
  have hmem := h.subset he
  unfold flushEvents at hmem
  split at hmem
  · rcases mem_cons.mp hmem with rfl | hmem
    · exact ⟨rfl, by simp, by simp⟩
    · obtain rfl := mem_singleton.mp hmem
      exact ⟨rfl, by simp, by simp⟩
  · obtain rfl := mem_singleton.mp hmem
    exact ⟨rfl, by simp, by simp⟩

theorem agreed_append_iff {before : List Event} {address size : Nat}
    (hbefore : before <+: flushEvents address size) :
    Agreed payload signature u₀ (before ++ evs) r u₂ ↔ Agreed payload signature u₀ evs r u₂ := by
  have hflush := fun e (he : e ∈ before) => not_hashed_of_flush hbefore he
  have hfed : before.flatMap fed = [] := flatMap_eq_nil_iff.mpr fun e he => (hflush e he).1
  have hhash : ∀ bytes, Event.hashAdd false bytes ∈ before ++ evs ↔
      Event.hashAdd false bytes ∈ evs := fun bytes => by
    rw [mem_append, or_iff_right fun hmem => (hflush _ hmem).2.1 _ _ rfl]
  have hverify : ∀ hashed sig, Event.verify hashed sig ∈ before ++ evs ↔
      Event.verify hashed sig ∈ evs := fun hashed sig => by
    rw [mem_append, or_iff_right fun hmem => (hflush _ hmem).2.2 _ _ rfl]
  constructor
  · rintro ⟨h₁, h₂, h₃, h₄⟩
    rw [flatMap_append, hfed, nil_append] at h₁
    exact ⟨h₁, fun bytes => (hhash bytes).not.mp (h₂ bytes),
      fun hashed sig => (hverify hashed sig).symm.trans (h₃ hashed sig), h₄⟩
  · rintro ⟨h₁, h₂, h₃, h₄⟩
    refine ⟨?_, fun bytes => (hhash bytes).not.mpr (h₂ bytes),
      fun hashed sig => (hverify hashed sig).trans (h₃ hashed sig), h₄⟩
    rw [flatMap_append, hfed, nil_append, h₁]

theorem Flushed.finish_agreed_iff (hb : Begun u₀)
    (h : Flushed u₀ (signAndWrite payload signature) v)
    (hlt : (signAndWrite payload signature).length < 4294967296) (hver : u₀.verifier = some w)
    (hsdk : AnswersIn F (u₀.startAddress + payload.length)
      (u₀.startAddress + (signAndWrite payload signature).length))
    (hend : v.finish env = (r, u₂)) {base before : List Event}
    (hbefore : v.log = base ++ before) {address size : Nat}
    (hfirst : before <+: flushEvents address size) (hlog : u₂.log = base ++ evs) :
    Agreed payload signature u₀ evs r u₂ ↔ ReadsBack env w u₀ payload signature v := by
  have hasked := finish_log env v
  rw [hend, hlog, checkImage, h.verifier.trans hver] at hasked
  dsimp only at hasked
  rw [checkSignature_log, hbefore, append_assoc] at hasked
  rw [append_cancel_left hasked, agreed_append_iff hfirst]
  exact h.agreed_iff hb hlt hver hsdk hend

end

theorem finish_log_reset (env : EndEnv) {u : Updater F} {w : Verifier} (hs : u.size = 0)
    (ha : u.startAddress = 0) (hver : u.verifier = some w) :
    (u.finish env).2.log = u.log ∨
      (u.finish env).2.log = u.log ++ [.verify [] []] := by
  rw [finish_log, checkImage, hver]
  dsimp only
  rw [checkSignature_log]
  by_cases hpos : w.length > 0
  · left
    have hno : ¬ SigFits w u := fun h => by
      have hfits := (h hpos).1
      rw [readSigLen_reset hs ha] at hfits
      omega
    rw [if_neg hno, append_nil]
  · right
    have hfits : SigFits w u := fun h => absurd h hpos
    have hsize : payloadSize (some w) u.size = 0 := by
      simp only [payloadSize]
      rw [if_neg hpos, hs]
    have hloop : hashLoop u.startAddress (payloadSize (some w) u.size)
        (payloadSize (some w) u.size / 128 + 1) 0 env.buff (u.hashedChip w) =
          ([], u.hashedChip w) := by
      rw [hsize]
      simp [hashLoop]
    rw [if_pos hfits, verifyEvents_eq hloop, verifierCall, if_neg hpos]
    rfl

theorem Accepted.lost_not_agreed {u₀ u u' : Updater F} {w : Verifier}
    {payload signature : List UInt8} (hb : Begun u₀)
    (h : Accepted u₀ (signAndWrite payload signature) u)
    (h0 : ¬ ((signAndWrite payload signature).length ≤ u₀.bufferSize ∧
      (signAndWrite payload signature).length ≠ u₀.size))
    (hver : u₀.verifier = some w) (hpos : 0 < u.bufferLen) (hfail : ¬ u.writeBuffer.1 = true)
    (hend : u.flushRemaining.finish env = (r, u'))
    (hlog : u'.log = u.log ++ evs) : ¬ Agreed payload signature u₀ evs r u' := by
  have hfalse : u.writeBuffer.1 = false := Bool.eq_false_iff.mpr hfail
  obtain ⟨c, before, e, -, hfirst, heq, -⟩ :=
    writeBuffer_false (Prod.ext hfalse rfl : u.writeBuffer = (false, u.writeBuffer.2))
  have hrem : u.flushRemaining = u.writeBuffer.2 := by
    have hzero : sub32 0 0 = 0 := by decide
    rw [Updater.flushRemaining, if_pos hpos, heq]
    simp only [progress, setError, reset, hzero]
  have hleft := finish_log_reset env (u := u.flushRemaining)
    (by rw [hrem, heq]; rfl) (by rw [hrem, heq]; rfl)
    (by rw [hrem, heq]; exact h.verifier.trans hver)
  have hbefore : u.flushRemaining.log = u.log ++ before := by rw [hrem, heq]; rfl
  rw [hend, hlog, hbefore, append_assoc, append_right_inj, append_right_inj] at hleft
  refine not_agreed fun hmem => ?_
  rcases hleft with rfl | rfl
  · exact (not_hashed_of_flush hfirst hmem).2.2 _ _ rfl
  · rcases mem_append.mp hmem with hmem | hmem
    · exact (not_hashed_of_flush hfirst hmem).2.2 _ _ rfl
    · obtain ⟨rfl, rfl⟩ := Event.verify.inj (mem_singleton.mp hmem)
      -- That would be an image of four bytes, which fits the buffer.
      have hB := hb.bufferSize
      have hbuf := h.bufferLen
      have hne : (signAndWrite [] []).length ≠ u₀.size := by
        intro hsame
        rw [hsame, flushedLen_size] at hbuf
        omega
      exact h0 ⟨by rcases hB with hB | hB <;> rw [hB] <;> decide, hne⟩

/-- **What a signed update comes to.**  `end` hashes exactly the payload,
verifies exactly the signature over it and stages the payload's length
exactly when it gets the image whole and can read it back. -/
theorem signed_agreed_iff {L : Layout} {benv : BeginEnv} {size : Nat} (hsize : size < 4294967296)
    {command : Int} {u u₀ u₁ u₂ : Updater F}
    (hbegin : beginUpdate L benv size command u = (true, u₀))
    {w : Verifier} (hver : u₀.verifier = some w) {expected_md5 : Option (List Char)}
    {chunks : List (List UInt8)} {acc : List UInt8}
    (hwrite : writeAll chunks (u₀.announce expected_md5) = (acc, u₁))
    {payload signature : List UInt8} (himage : chunks.flatten = signAndWrite payload signature)
    (hsdk : AnswersIn F (u₀.startAddress + payload.length)
      (u₀.startAddress + (signAndWrite payload signature).length))
    {even r : Bool} (hend : u₁.endUpdate env even = (r, u₂)) {evs : List Event}
    (hlog : u₂.log = u₁.log ++ evs) :
    Agreed payload signature (u₀.announce expected_md5) evs r u₂ ↔
      Complete (u₀.announce expected_md5) (signAndWrite payload signature).length even u₁ ∧
        ReadsBack env w (u₀.announce expected_md5) payload signature
          (if even then u₁.flushRemaining else u₁) := by
  obtain ⟨text, hann⟩ := announce_eq expected_md5 u₀
  have hb := (beginUpdate_begun hsize hbegin).announce expected_md5
  have hver' : (u₀.announce expected_md5).verifier = some w := by rw [hann]; exact hver
  have hstart : (u₀.announce expected_md5).startAddress = u₀.startAddress := by rw [hann]
  rw [← hstart] at hsdk
  generalize u₀.announce expected_md5 = v at *
  -- An `end` that returns at once has called no verifier.
  have hquiet : u₂.log = u₁.log → ¬ Agreed payload signature v evs r u₂ := by
    intro h
    rw [hlog, append_right_eq_self] at h
    exact not_agreed (by rw [h]; simp)
  rcases hb.accepted.writeAll hb hwrite with ⟨rfl, hacc⟩ | hdrop
  · rw [nil_append, himage] at hacc
    have hlen := hacc.fits
    have hlt := hb.size_lt
    have hrunning : u₁.error = .ok := hacc.error.trans hb.error
    have hlength : (signAndWrite payload signature).length =
        payload.length + signature.length + 4 := by
      simp [signAndWrite, Nat.add_assoc]
    by_cases h0 : (signAndWrite payload signature).length ≤ v.bufferSize ∧
        (signAndWrite payload signature).length ≠ v.size
    · rw [hacc.end_noData hb h0] at hend
      obtain ⟨-, rfl⟩ := Prod.mk.inj hend
      refine iff_of_false (hquiet rfl) fun h => ?_
      rcases h.1.2 with heq | ⟨-, hlt, -⟩
      · exact h0.2 heq
      · omega
    · rw [hacc.end_eq hb h0] at hend
      cases even with
      | true =>
        rw [if_pos rfl] at hend
        have hcomplete : (0 < u₁.bufferLen → u₁.writeBuffer.1 = true) →
            Complete v (signAndWrite payload signature).length true u₁ := by
          intro hok
          refine ⟨hrunning, ?_⟩
          by_cases heq : (signAndWrite payload signature).length = v.size
          · exact .inl heq
          · exact .inr ⟨rfl, by omega, hok⟩
        by_cases hok : 0 < u₁.bufferLen → u₁.writeBuffer.1 = true
        · obtain ⟨before, address, n, hfirst, hbefore⟩ : ∃ before address n,
              before <+: flushEvents address n ∧ u₁.flushRemaining.log = u₁.log ++ before := by
            rw [Updater.flushRemaining]
            split
            · obtain ⟨before, hfirst, hbefore⟩ :=
                writeBuffer_log (Prod.eta _ : (u₁.writeBuffer.1, u₁.writeBuffer.2) = _).symm
              exact ⟨before, _, _, hfirst, hbefore⟩
            · exact ⟨[], 0, 0, List.nil_prefix, (append_nil _).symm⟩
          rw [(hacc.flushRemaining hb hok).finish_agreed_iff hb (by omega) hver' hsdk hend hbefore
            hfirst hlog, if_pos rfl]
          exact (and_iff_right (hcomplete hok)).symm
        · have hfail := Classical.not_imp.mp hok
          have hlost := hacc.lost_not_agreed hb h0 hver' hfail.1 hfail.2 hend hlog
          refine iff_of_false hlost fun h => ?_
          rcases h.1.2 with hsame | ⟨-, -, hflushes⟩
          · have hbuf := hacc.bufferLen
            have hpos := hfail.1
            rw [hsame, flushedLen_size] at hbuf
            omega
          · exact hok hflushes
      | false =>
        rw [if_neg (by simp)] at hend
        by_cases heq : (signAndWrite payload signature).length = v.size
        · rw [if_pos heq] at hend
          rw [(hacc.flushed hb heq).finish_agreed_iff hb (by omega) hver' hsdk hend
            (append_nil _).symm (List.nil_prefix (l := flushEvents 0 0)) hlog,
            if_neg (by simp)]
          exact (and_iff_right ⟨hrunning, .inl heq⟩).symm
        · rw [if_neg heq] at hend
          obtain ⟨-, rfl⟩ := Prod.mk.inj hend
          refine iff_of_false (hquiet rfl) fun h => ?_
          rcases h.1.2 with hsame | ⟨hno, -⟩
          · exact heq hsame
          · cases hno
  · rw [endUpdate_dropped hdrop] at hend
    obtain ⟨-, rfl⟩ := Prod.mk.inj hend
    exact iff_of_false (hquiet rfl) fun h => hdrop.error h.1.1

def sampleVerifier (payload signature : List UInt8) : Verifier where
  length := 4
  length_lt := by decide
  verify hashed sig := hashed = payload ∧ sig = signature

theorem sampleFlash_answers {lo hi : Nat} (hhi : hi ≤ 0x100000) :
    AnswersIn (sampleFlash fun _ => false) lo hi := by
  intro a n d _ h
  have hcap : a + n ≤ 0x100000 := Nat.le_trans h hhi
  simp [sampleFlash, Nor.scripted, hcap]

def sampleSigned (payload signature : List UInt8) : Updater (sampleFlash fun _ => false) :=
  (beginUpdate sampleLayout sampleBegin (signAndWrite payload signature).length U_FLASH
    (init (some (sampleVerifier payload signature)) (sampleChip (fun _ => false) 0))).2

/-- Eight bytes, whole words. -/
theorem signed_agreed_sample :
    let payload := [0xE9, 1, 0, 0, 7, 7, 7, 7]
    let signature := [9, 8, 7, 6]
    let begun := sampleSigned payload signature
    let written := writeAll [signAndWrite payload signature] (begun.announce none)
    let ended := written.2.endUpdate sampleEnd false
    ended.1 = true ∧ Agreed payload signature (begun.announce none)
      [.hashAdd true payload, .verify payload signature] ended.1 ended.2 := by
  intro payload signature begun written ended
  have hbegin : beginUpdate sampleLayout sampleBegin (signAndWrite payload signature).length U_FLASH
      (init (some (sampleVerifier payload signature)) (sampleChip (fun _ => false) 0)) =
        (true, begun) := eq_mk_snd (by decide +kernel)
  have hver : begun.verifier = some (sampleVerifier payload signature) :=
    (beginUpdate_readOnly hbegin).2.2.2.2
  have hlog : ended.2.log =
      written.2.log ++ [.hashAdd true payload, .verify payload signature] := by decide +kernel
  have hsdk : AnswersIn (sampleFlash fun _ => false) (begun.startAddress + payload.length)
      (begun.startAddress + (signAndWrite payload signature).length) :=
    sampleFlash_answers (by decide +kernel)
  refine ⟨by decide +kernel, (signed_agreed_iff (by decide) hbegin hver (Prod.eta _).symm
    (by decide) hsdk (Prod.eta _).symm hlog).mpr ⟨?_, ?_⟩⟩
  · exact ⟨by decide +kernel, .inl (by decide +kernel)⟩
  · exact ⟨by decide, by decide, by decide +kernel, by decide, by decide +kernel⟩

/-- Of a compressed sketch of seven bytes none is read: the hash is fed what
the stack array held, and an image that was signed correctly is refused. -/
theorem not_signed_agreed :
    let payload := [0x1f, 0x8b, 8, 0, 7, 7, 7]
    let signature := [9, 8, 7, 6]
    let begun := sampleSigned payload signature
    let written := writeAll [signAndWrite payload signature] (begun.announce none)
    let ended := written.2.endUpdate sampleEnd false
    let evs := [Event.hashAdd false (replicate 7 0),
      .verify (replicate 7 0) signature]
    written.1 = signAndWrite payload signature ∧ ended.2.log = written.2.log ++ evs ∧
      ended.1 = false ∧ ¬ Agreed payload signature (begun.announce none) evs ended.1 ended.2 := by
  intro payload signature begun written ended evs
  refine ⟨by decide +kernel, by decide +kernel, by decide +kernel, fun hagreed => ?_⟩
  exact hagreed.fresh _ (mem_cons_self ..)

end Updater
