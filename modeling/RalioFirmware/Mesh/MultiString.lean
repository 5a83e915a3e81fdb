import RalioFirmware.Core.WStringGrowth
import RalioFirmware.Mesh.Reassembly

/-!
# Bytes with null characters in a `String`

`String` takes the characters up to a null.  `uint8ArrayToMultiString` puts the runs of an array
together, with the nulls between them, and needs a null behind the last run to stop at: the
buffered version has one behind its copy, the other one writes it over the last byte and adds that
byte in the end.  An array of no bytes has no last byte.
-/

namespace Mesh

open Word Bytes CString WString List

namespace MultiString

/-! ## The code -/

/-- What keeps a conversion from its end: an access outside of the memory, or no pass of the loop
that is the last. -/
inductive Stuck where
  | access
  | endless
deriving DecidableEq, Repr

/-- `String()`, and `emptyString`. -/
def newString (env : Env) : Str := (Call.fresh env).init env

/-- `multiString += (char *)(…)`: the characters up to the next null of the memory. -/
def appendRun (env : Env) (mem : List UInt8) (address : Nat) (multiString : Str) :
    Except Stuck Str :=
  if 0 ∈ mem.drop (u32 address) then
    .ok (multiString.concatCstr env (some (mem.drop (u32 address)))).2
  else .error .access

/-- `while(multiString.length() < limit)`, for so many passes. -/
def appendRuns (env : Env) (mem : List UInt8) (uint8Array limit : Nat) :
    Nat → Str → Except Stuck Str
  | 0, multiString => if multiString.len < limit then .error .endless else .ok multiString
  | fuel + 1, multiString =>
    if multiString.len < limit then
      match appendRun env mem (uint8Array + (multiString.concat env [0] 1).2.len)
          (multiString.concat env [0] 1).2 with
      | .error stuck => .error stuck
      | .ok multiString => appendRuns env mem uint8Array limit fuel multiString
    else .ok multiString

def appendAll (fuel : Nat) (env : Env) (mem : List UInt8) (uint8Array limit : Nat)
    (multiString : Str) : Except Stuck Str :=
  match appendRun env mem uint8Array multiString with
  | .error stuck => .error stuck
  | .ok multiString => appendRuns env mem uint8Array limit fuel multiString

/-- The String, and the memory with the last byte of the array back in its place. -/
def uint8ArrayToMultiString (fuel : Nat) (env : Env) (mem : List UInt8)
    (uint8Array arrayLength : Nat) : Except Stuck (Str × List UInt8) :=
  match (newString env).reserve env arrayLength with
  | (false, _) => .ok (newString env, mem)
  | (true, multiString) =>
    match mem[u32 (uint8Array + sub32 arrayLength 1)]? with
    | none => .error .access
    | some finalChar =>
      match appendAll fuel env (mem.set (u32 (uint8Array + sub32 arrayLength 1)) 0) uint8Array
          (sub32 arrayLength 1) multiString with
      | .error stuck => .error stuck
      | .ok multiString =>
        .ok ((multiString.concat env [finalChar] 1).2,
          (mem.set (u32 (uint8Array + sub32 arrayLength 1)) 0).set
            (u32 (uint8Array + sub32 arrayLength 1)) finalChar)

/-- The copy is a memory of its own; the array stays as it is. -/
def bufferedUint8ArrayToMultiString (fuel : Nat) (env : Env) (mem : List UInt8)
    (uint8Array arrayLength : Nat) : Except Stuck (Str × List UInt8) :=
  match (newString env).reserve env arrayLength with
  | (false, _) => .ok (newString env, mem)
  | (true, multiString) =>
    if uint8Array + arrayLength ≤ mem.length then
      match appendAll fuel env ((mem.drop uint8Array).take arrayLength ++ [0]) 0 arrayLength
          multiString with
      | .error stuck => .error stuck
      | .ok multiString => .ok (multiString, mem)
    else .error .access

/-- `getHashKeyLength`: the content of a transmission. -/
def getHashKeyLength (fuel : Nat) (env : Env) (settings : Settings) (mem : List UInt8)
    (transmissionDataArray transmissionLength : Nat) : Except Stuck (Str × List UInt8) :=
  if transmissionLength ≥ settings.metadataSize then
    uint8ArrayToMultiString fuel env mem (transmissionDataArray + settings.metadataSize)
      ((transmissionLength - settings.metadataSize) % 256)
  else .ok (newString env, mem)

/-! ## Room for the characters -/

/-- The object has room for ten characters; for more the heap has to have a block, of a size that
sixteen bits can say. -/
def Room (env : Env) (size : Nat) : Prop := size ≤ 10 ∨ env.granted = true ∧ size < 65520

theorem newString_inv (env : Env) : (newString env).Inv :=
  Str.init_inv (by simp [Str.ownBytes, Call.fresh, Str.isSSO])

theorem reserve_newString (env : Env) {size : Nat} (hlt : size < 4294967296) :
    ((newString env).reserve env size).1 = true ↔ Room env size := by
  have hcapacity : (newString env).capacity = 10 := rfl
  have hsso : (newString env).isSSO = true := rfl
  unfold Str.reserve Room
  rw [hcapacity]
  by_cases hsmall : size ≤ 10
  · grind
  · rw [if_neg hsmall]
    unfold Str.changeBuffer
    rw [if_neg (by omega)]
    dsimp only
    by_cases hlarge : u32 (size + 16) / 16 * 16 > 65535
    · rw [if_pos hlarge]
      unfold u32 at hlarge
      refine iff_of_false (by simp) ?_
      rintro (h | ⟨-, h⟩) <;> omega
    · rw [if_neg hlarge]
      unfold u32 at hlarge
      by_cases hzero : u32 (size + 16) / 16 * 16 = 0
      · rw [if_pos hzero]
        unfold u32 at hzero
        refine iff_of_false (by simp) ?_
        rintro (h | ⟨-, h⟩) <;> omega
      · rw [if_neg hzero]
        unfold u32 at hzero
        cases hgranted : env.granted with
        | true =>
          grind
        | false =>
          grind

theorem refused {env : Env} {size : Nat} (hlt : size < 4294967296) (h : ¬ Room env size)
    (fuel : Nat) (mem : List UInt8) (uint8Array : Nat) :
    uint8ArrayToMultiString fuel env mem uint8Array size = .ok (newString env, mem) ∧
      bufferedUint8ArrayToMultiString fuel env mem uint8Array size = .ok (newString env, mem) := by
  rw [← reserve_newString env hlt] at h
  unfold uint8ArrayToMultiString bufferedUint8ArrayToMultiString
  generalize (newString env).reserve env size = reserved at h
  obtain ⟨ok, multiString⟩ := reserved
  cases ok with
  | true => exact absurd rfl h
  | false => exact ⟨rfl, rfl⟩

/-! ## Runs -/

theorem cstr_run (run behind : List UInt8) : cstr (run ++ 0 :: behind) = cstr run := by
  have hnul : (run ++ 0 :: behind)[run.length]? = some 0 := by simp
  rw [cstr_of_terminated hnul, take_left]

theorem getElem?_cstr_length {run : List UInt8} (h : (cstr run).length < run.length) :
    run[(cstr run).length]? = some 0 := by
  induction run with
  | nil => cases h
  | cons b rest ih =>
    by_cases hb : b = 0
    · subst hb
      simp
    · rw [cstr_cons hb] at h ⊢
      exact ih (Nat.lt_of_succ_lt_succ h)

theorem concat_fits {env : Env} {s : Str} (h : s.Inv) {src : List UInt8} {length : Nat}
    (hsrc : length ≤ src.length) (hfit : s.len + length ≤ s.capacity) :
    (s.concat env src length).2.Inv ∧
      (s.concat env src length).2.contents = s.contents ++ src.take length ∧
      (s.concat env src length).2.capacity = s.capacity := by
  have hcapacity := h.capacity_lt
  unfold Str.concat
  dsimp only
  by_cases hnone : length = 0
  · grind
  · have hlength : (src.take length).length = length := by
      rw [length_take, Nat.min_eq_left hsrc]
    have hreserve : s.reserve env (s.len + length) = (true, s) := if_pos hfit
    have happend := (h.held.roomy (show s.len + (src.take length).length ≤ s.capacity by
      rw [hlength]; exact hfit)).append
    rw [hlength] at happend
    rw [if_neg hnone, u32_of_lt (by omega), hreserve]
    exact ⟨happend.1, happend.2, rfl⟩

/-- The String has come to a null of the array, or to its end. -/
structure Copied (run : List UInt8) (size : Nat) (s : Str) : Prop where
  inv : s.Inv
  capacity_eq : s.capacity = size
  contents_eq : s.contents = run.take s.len
  len_le : s.len ≤ run.length
  nul : s.len < run.length → run[s.len]? = some 0

theorem appendRun_copied {env : Env} {run front behind : List UInt8} {s : Str} {k : Nat}
    (hmem : (front ++ (run ++ 0 :: behind)).length ≤ 4294967296) (hinv : s.Inv)
    (hroom : run.length ≤ s.capacity) (hcontents : s.contents = run.take k)
    (hk : k ≤ run.length) :
    ∃ t, appendRun env (front ++ (run ++ 0 :: behind)) (front.length + k) s = .ok t ∧
      Copied run s.capacity t ∧ k ≤ t.len := by
  simp only [length_append, length_cons] at hmem
  have hlen : s.len = k := by
    rw [← hinv.contents_length, hcontents, length_take, Nat.min_eq_left hk]
  have hdrop : (front ++ (run ++ 0 :: behind)).drop (u32 (front.length + k)) =
      run.drop k ++ 0 :: behind := by
    rw [u32_of_lt (by omega), drop_length_add_append, drop_append_of_le_length hk]
  have hrest : (cstr (run.drop k)).length ≤ run.length - k := by
    rw [← length_drop]
    exact (cstr_start _).length_le
  have hstrlen : u32 (strlen (run.drop k ++ 0 :: behind)) = (cstr (run.drop k)).length := by
    rw [strlen, cstr_run, u32_of_lt (by omega)]
  have hsrc : (cstr (run.drop k)).length ≤ (run.drop k ++ 0 :: behind).length := by grind
  obtain ⟨hinv', hcontents', hcapacity'⟩ :=
    @concat_fits env s hinv _ _ hsrc (by omega)
  have htake : (run.drop k ++ 0 :: behind).take (cstr (run.drop k)).length = cstr (run.drop k) := by
    rw [← cstr_run (run.drop k) behind, take_cstr (Nat.le_refl _), take_length]
  have htext : s.contents ++ cstr (run.drop k) = run.take (k + (cstr (run.drop k)).length) := by
    rw [hcontents, take_add, take_cstr (Nat.le_refl _), take_length]
  rw [htake, htext] at hcontents'
  have hlen' : (s.concat env (run.drop k ++ 0 :: behind) (cstr (run.drop k)).length).2.len =
      k + (cstr (run.drop k)).length := by
    rw [← hinv'.contents_length, hcontents', length_take]
    omega
  refine ⟨_, ?_, ⟨hinv', hcapacity', ?_, ?_, ?_⟩, ?_⟩
  · unfold appendRun
    rw [hdrop, if_pos (by simp), Str.concatCstr, hstrlen]
  · rw [hlen', hcontents']
  · rw [hlen']
    omega
  · intro hmore
    rw [hlen'] at hmore ⊢
    rw [← getElem?_drop]
    exact getElem?_cstr_length (by rw [length_drop]; omega)
  · grind

/-- **The loop comes to the end of the array**, with a pass for each byte of it at most. -/
theorem appendRuns_copied {env : Env} {run front behind : List UInt8}
    (hmem : (front ++ (run ++ 0 :: behind)).length ≤ 4294967296) {size fuel : Nat} {s : Str}
    (hs : Copied run size s) (hsize : run.length ≤ size) (hfuel : run.length ≤ s.len + fuel) :
    ∃ t, appendRuns env (front ++ (run ++ 0 :: behind)) front.length run.length fuel s = .ok t ∧
      Copied run size t ∧ t.len = run.length := by
  induction fuel generalizing s with
  | zero =>
    refine ⟨s, ?_, hs, Nat.le_antisymm hs.len_le hfuel⟩
    exact if_neg (Nat.not_lt.mpr hfuel)
  | succ fuel ih =>
    unfold appendRuns
    by_cases hmore : s.len < run.length
    · rw [if_pos hmore]
      have hcapacity := hs.capacity_eq
      obtain ⟨hinv, hcontents, hsame⟩ :=
        @concat_fits env s hs.inv [0] 1 (Nat.le_refl 1) (by omega)
      have htext : (s.concat env [0] 1).2.contents = run.take (s.len + 1) := by
        rw [hcontents, hs.contents_eq, @take_add_one _ run, hs.nul hmore]
        rfl
      have hlen : (s.concat env [0] 1).2.len = s.len + 1 := by
        rw [← hinv.contents_length, htext, length_take]
        omega
      rw [hlen]
      obtain ⟨t, hrun, ht, hle⟩ := @appendRun_copied env run front behind _ (s.len + 1) hmem hinv
        (by omega) htext hmore
      rw [hsame, hcapacity] at ht
      rw [hrun]
      exact ih ht (by omega)
    · rw [if_neg hmore]
      exact ⟨s, rfl, hs, Nat.le_antisymm hs.len_le (Nat.le_of_not_lt hmore)⟩

/-- **A `String` with room for an array gets all of its bytes.** -/
theorem appendAll_copied (env : Env) {run front behind : List UInt8}
    (hmem : (front ++ (run ++ 0 :: behind)).length ≤ 4294967296) {s : Str} (hinv : s.Inv)
    (hempty : s.contents = []) (hroom : run.length ≤ s.capacity) :
    ∃ t, appendAll run.length env (front ++ (run ++ 0 :: behind)) front.length run.length s =
      .ok t ∧ t.Inv ∧ t.contents = run ∧ t.capacity = s.capacity := by
  obtain ⟨u, hfirst, hu, -⟩ := @appendRun_copied env run front behind s 0 hmem hinv hroom
    (by rw [hempty, take_zero]) (Nat.zero_le _)
  obtain ⟨t, hloop, ht, hlen⟩ := @appendRuns_copied env run front behind hmem s.capacity
    run.length u hu hroom (Nat.le_add_left _ _)
  refine ⟨t, ?_, ht.inv, ?_, ht.capacity_eq⟩
  · unfold appendAll
    rw [Nat.add_zero] at hfirst
    rw [hfirst]
    exact hloop
  · rw [ht.contents_eq, hlen, take_length]

/-! ## Loops without an end -/

theorem len_of_refused {env : Env} {s t : Str} {size : Nat}
    (h : s.reserve env size = (false, t)) : t.len = s.len := by
  unfold Str.reserve Str.changeBuffer at h
  grind

theorem concat_len_lt (env : Env) {s : Str} (h : s.len < 65536) (src : List UInt8)
    (length : Nat) : (s.concat env src length).2.len < 65536 := by
  unfold Str.concat
  dsimp only
  split
  · exact h
  · generalize hreserve : s.reserve env (u32 (s.len + length)) = reserved
    obtain ⟨ok, t⟩ := reserved
    cases ok with
    | true =>
      show (t.setLen (u32 (s.len + length))).len < 65536
      unfold Str.setLen
      dsimp only
      split <;> omega
    | false =>
      exact (len_of_refused hreserve).symm ▸ h

/-- **A loop that waits for more than a String can hold** has no pass that is the last. -/
theorem appendRuns_endless {env : Env} {mem : List UInt8} {uint8Array limit : Nat}
    (hlimit : 65536 ≤ limit) {fuel : Nat} {s : Str} (hlen : s.len < 65536) (t : Str) :
    appendRuns env mem uint8Array limit fuel s ≠ .ok t := by
  induction fuel generalizing s with
  | zero =>
    unfold appendRuns
    rw [if_pos (by omega)]
    exact fun h => by cases h
  | succ fuel ih =>
    unfold appendRuns
    rw [if_pos (by omega)]
    unfold appendRun
    split
    · exact fun h => by cases h
    · rename_i u hrun
      refine ih ?_
      split at hrun
      · cases hrun
        exact concat_len_lt env (concat_len_lt env hlen _ _) _ _
      · cases hrun

/-! ## What the conversions give back -/

/-- A conversion comes to its end with the bytes of the array, and leaves the memory as it was. -/
def Recovers (mem data : List UInt8) (run : Nat → Except Stuck (Str × List UInt8)) : Prop :=
  ∃ fuel multiString, run fuel = .ok (multiString, mem) ∧ multiString.Inv ∧
    multiString.contents = data

variable {env : Env} {front data behind : List UInt8}

theorem granted {size : Nat} (hlt : size < 4294967296) (h : Room env size) :
    ∃ t, (newString env).reserve env size = (true, t) ∧ t.Inv ∧ t.contents = [] ∧
      size ≤ t.capacity := by
  obtain hsame | ⟨t, heq, ht⟩ :=
    Str.reserve_cases env (newString_inv env) hlt (.inl rfl)
  · have hyes := (reserve_newString env hlt).mpr h
    rw [hsame] at hyes
    cases hyes
  · exact ⟨t, heq, ht.toInv, ht.contents_eq, ht.room⟩

theorem room_of_recovers {mem : List UInt8} {run : Nat → Except Stuck (Str × List UInt8)}
    (hrun : ¬ Room env data.length → ∀ fuel, run fuel = .ok (newString env, mem))
    (h : Recovers mem data run) : Room env data.length := by
  by_contra hno
  obtain ⟨fuel, multiString, heq, -, hcontents⟩ := h
  rw [hrun hno fuel] at heq
  cases heq
  exact hno (.inl (by rw [← hcontents]; exact Nat.zero_le _))

/-- **The buffered conversion** gives the bytes back just where there is room for them. -/
theorem buffered_iff (hmem : (front ++ data ++ behind).length < 4294967296) :
    Recovers (front ++ data ++ behind) data (fun fuel => bufferedUint8ArrayToMultiString fuel env
      (front ++ data ++ behind) front.length data.length) ↔ Room env data.length := by
  have hlt : data.length < 4294967296 := by grind
  constructor
  · exact room_of_recovers fun hno fuel => (refused hlt hno fuel _ _).2
  · intro hroom
    obtain ⟨s, hreserve, hinv, hempty, hcapacity⟩ := granted hlt hroom
    obtain ⟨t, hall, ht, hcontents, -⟩ := @appendAll_copied env data [] [] (by simp; omega) s hinv
      hempty hcapacity
    refine ⟨data.length, t, ?_, ht, hcontents⟩
    have hcopy : ((front ++ data ++ behind).drop front.length).take data.length = data := by
      rw [append_assoc, drop_left, take_left]
    unfold bufferedUint8ArrayToMultiString
    rw [hreserve]
    dsimp only
    rw [hcopy, if_pos (by simp)]
    rw [nil_append, length_nil] at hall
    rw [hall]

theorem recovers_concat {init : List UInt8} {c : UInt8}
    (hmem : (front ++ (init ++ [c]) ++ behind).length < 4294967296)
    (hroom : Room env (init ++ [c]).length) :
    Recovers (front ++ (init ++ [c]) ++ behind) (init ++ [c]) (fun fuel =>
      uint8ArrayToMultiString fuel env (front ++ (init ++ [c]) ++ behind) front.length
        (init ++ [c]).length) := by
  have hlength : (init ++ [c]).length = init.length + 1 := by simp
  have hsplit : ∀ b, front ++ (init ++ [b]) ++ behind = front ++ (init ++ b :: behind) := by simp
  rw [hsplit] at hmem ⊢
  rw [hlength] at hroom ⊢
  simp only [length_append, length_cons] at hmem
  obtain ⟨s, hreserve, hinv, hempty, hcapacity⟩ := granted (by omega) hroom
  obtain ⟨t, hall, ht, hcontents, hmore⟩ := @appendAll_copied env init front behind
    (by simp; omega) s hinv hempty (by omega)
  have hlast : u32 (front.length + sub32 (init.length + 1) 1) = front.length + init.length := by
    rw [sub32_of_le (Nat.le_add_left 1 _) (by omega), Nat.add_sub_cancel, u32_of_lt (by omega)]
  have hset : ∀ b b' : UInt8, (front ++ (init ++ b :: behind)).set (front.length + init.length) b' =
      front ++ (init ++ b' :: behind) := by simp
  have hlen : t.len = init.length := by rw [← ht.contents_length, hcontents]
  obtain ⟨hinv', hcontents', -⟩ :=
    @concat_fits env t ht [c] 1 (Nat.le_refl 1) (by omega)
  refine ⟨init.length, (t.concat env [c] 1).2, ?_, hinv', ?_⟩
  · have hfinal : (front ++ (init ++ c :: behind))[front.length + init.length]? = some c := by simp
    have hlimit : sub32 (init.length + 1) 1 = init.length := by
      rw [sub32_of_le (Nat.le_add_left 1 _) (by omega), Nat.add_sub_cancel]
    unfold uint8ArrayToMultiString
    rw [hreserve]
    dsimp only
    rw [hlast, hfinal]
    dsimp only
    rw [hset, hset, hlimit, hall]
  · rw [hcontents', hcontents]
    rfl

theorem not_recovers_nil (mem : List UInt8) (uint8Array : Nat) (data : List UInt8) :
    ¬ Recovers mem data (fun fuel => uint8ArrayToMultiString fuel env mem uint8Array 0) := by
  rintro ⟨fuel, multiString, hrun, -⟩
  have hlimit : 65536 ≤ sub32 0 1 := by decide
  unfold uint8ArrayToMultiString at hrun
  obtain ⟨s, hreserve, hinv, -, -⟩ := @granted env 0 (by decide) (.inl (Nat.zero_le _))
  have hlen : s.len < 65536 := by
    have := hinv.held.len_lt
    omega
  rw [hreserve] at hrun
  dsimp only at hrun
  split at hrun
  · cases hrun
  · split at hrun
    · cases hrun
    · rename_i t hall
      unfold appendAll appendRun at hall
      split at hall
      · cases hall
      · rename_i u hfirst
        split at hfirst
        · cases hfirst
          exact appendRuns_endless hlimit (concat_len_lt env hlen _ _) t hall
        · cases hfirst

/-- **The conversion in place** gives the bytes back just where there are some, and room for
them. -/
theorem unbuffered_iff (hmem : (front ++ data ++ behind).length < 4294967296) :
    Recovers (front ++ data ++ behind) data (fun fuel => uint8ArrayToMultiString fuel env
      (front ++ data ++ behind) front.length data.length) ↔ data ≠ [] ∧ Room env data.length := by
  have hlt : data.length < 4294967296 := by grind
  constructor
  · intro hrecovers
    refine ⟨?_, room_of_recovers (fun hno fuel => (refused hlt hno fuel _ _).1) hrecovers⟩
    rintro rfl
    exact not_recovers_nil _ _ _ hrecovers
  · rintro ⟨hsome, hroom⟩
    obtain ⟨init, c, rfl⟩ := (eq_nil_or_concat' data).resolve_left hsome
    exact recovers_concat hmem hroom

theorem getHashKeyLength_eq (fuel : Nat) (settings : Settings) (mem : List UInt8) {base size : Nat}
    (h : settings.metadataSize + size < 256) :
    getHashKeyLength fuel env settings mem base (settings.metadataSize + size) =
      uint8ArrayToMultiString fuel env mem (base + settings.metadataSize) size := by
  unfold getHashKeyLength
  rw [if_pos (Nat.le_add_right _ _), Nat.add_sub_cancel_left, Nat.mod_eq_of_lt (by omega)]

/-- **The bytes of an array come back in a String**, with the nulls among them, from either
conversion and whatever stands around the array, be it nothing, where there is room for them; the
one that works in place has to have a byte.  So it is with the message part of a transmission. -/
theorem multiString_recovers_iff (hmem : (front ++ data ++ behind).length < 4294967296) :
    (Recovers (front ++ data ++ behind) data (fun fuel => uint8ArrayToMultiString fuel env
      (front ++ data ++ behind) front.length data.length) ↔ data ≠ [] ∧ Room env data.length) ∧
    (Recovers (front ++ data ++ behind) data (fun fuel => bufferedUint8ArrayToMultiString fuel env
      (front ++ data ++ behind) front.length data.length) ↔ Room env data.length) ∧
    (∀ (settings : Settings) (base : Nat), front.length = base + settings.metadataSize →
      settings.metadataSize + data.length < 256 →
      (Recovers (front ++ data ++ behind) data (fun fuel => getHashKeyLength fuel env settings
        (front ++ data ++ behind) base (settings.metadataSize + data.length)) ↔
        data ≠ [] ∧ Room env data.length)) := by
  refine ⟨unbuffered_iff hmem, buffered_iff hmem, fun settings base hbase hlength => ?_⟩
  rw [funext fun fuel => getHashKeyLength_eq fuel settings _ hlength, ← hbase]
  exact unbuffered_iff hmem

/-- Nulls at the start, in the middle and at the end. -/
theorem multiString_recovers_iff_sample :
    Recovers [0, 5, 0, 0, 7, 0] [0, 5, 0, 0, 7, 0] (fun fuel => uint8ArrayToMultiString fuel
      ⟨true, Vector.replicate 11 0⟩ [0, 5, 0, 0, 7, 0] 0 6) :=
  (@multiString_recovers_iff ⟨true, Vector.replicate 11 0⟩ [] [0, 5, 0, 0, 7, 0] []
    (by decide)).1.mpr ⟨by decide, .inl (by decide)⟩

/-- A transmission that ends with its metadata does not come back. -/
theorem not_multiString_recovers :
    ¬ ∀ (env : Env) (settings : Settings) (metadata message : List UInt8),
      metadata.length = settings.metadataSize → metadata.length + message.length ≤ 250 →
      env.granted = true →
      Recovers (metadata ++ message) message (fun fuel => getHashKeyLength fuel env settings
        (metadata ++ message) 0 (metadata.length + message.length)) := by
  intro h
  have hnil := h ⟨true, Vector.replicate 11 0⟩ plainSettings (List.replicate 16 81) [] rfl
    (by decide) rfl
  exact @not_recovers_nil ⟨true, Vector.replicate 11 0⟩ (List.replicate 16 81 ++ []) 16 [] hnil

end MultiString

end Mesh
