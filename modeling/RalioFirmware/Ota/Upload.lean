import RalioFirmware.Updater.HttpUpdate

/-!
# The upload of an image

`serve` of `tools/espota.py` and the receive loop of
`ArduinoOTAClass::_runUpdate`, with a TCP connection between them.  The device
answers each `Update.write` with the decimal count of bytes and in the end with
`OK` or the text of its error, all in one stream.  The host receives once for
each chunk it sends, without looking at what comes, and then until it finds an
`E` or an `O`.

A step of the system is one call on either side.  How many bytes a call finds
is up to the network: any number of those that are under way.  The order of
the steps is free, so the delays are too.
-/

open Word Nor Esp List

namespace OtaUpload

variable {F : SpiFlash}

/-! ## What the device prints -/

def decimal (n : Nat) : List Char := Nat.toDigits 10 n

/-- `getErrorString`. -/
def errorString (env : EndEnv) (u : Updater F) : List Char :=
  match u.error with
  | .ok => "No Error".toList
  | .write => "Flash Write Failed".toList
  | .erase => "Flash Erase Failed".toList
  | .read => "Flash Read Failed".toList
  | .space => "Not Enough Space".toList
  | .size => "Bad Size Given".toList
  | .stream => "Stream Read Timeout".toList
  | .md5 => "MD5 verification failed: expected: ".toList ++ u.target_md5 ++
      ", calculated: ".toList ++ env.md5Text u.md5
  | .flashConfig => "Flash config wrong: real: ".toList ++ decimal (getFlashChipRealSize F) ++
      ", SDK: ".toList ++ decimal (getFlashChipSize u.chip).1
  | .newFlashConfig => "new Flash config wrong, real size: ".toList ++
      decimal (getFlashChipRealSize F)
  | .magicByte => "Magic byte is not 0xE9".toList
  | .bootstrap => "Invalid bootstrapping state, reset ESP8266 before updating".toList
  | .sign => "Signature verification failed".toList
  | .noData => "No data supplied".toList
  | .oom => "Out of memory".toList

def printError (env : EndEnv) (u : Updater F) : List Char :=
  "ERROR[".toList ++ decimal (HttpUpdate.errorCode u.error).toNat ++ "]: ".toList ++
    errorString env u ++ ['\n']

/-! ## `Update.write(client)` -/

/-- Behind a round of `write<T>` that leaves `waiting`: the loop, or the end. -/
def afterRound (round : Updater.Round F) (waiting : List UInt8) (written : Nat)
    (loop : Nat → List UInt8 → Updater F → Nat × List UInt8 × Updater F) :
    Nat × List UInt8 × Updater F :=
  if round.more then loop (written + round.written) waiting round.state
  else (written + round.written, waiting, round.state)

/-- The loop of `write<T>` on a connection that has `waiting`: each round finds
as many bytes as the network has delivered by then.  Returns the count, what is
still waiting, and the updater. -/
def clientLoop : List Nat → Nat → List UInt8 → Updater F → Nat × List UInt8 × Updater F
  | [], written, waiting, u => (written, waiting, u)
  | available :: rest, written, waiting, u =>
    if waiting.take available = [] then (written, waiting, u)
    else
      afterRound (u.availableRound (waiting.take available))
        (waiting.drop (u.availableTaken (waiting.take available).length)) written
        (clientLoop rest)

/-- `write<T>`. -/
def writeClient (available : List Nat) (waiting : List UInt8) (u : Updater F) :
    Nat × List UInt8 × Updater F :=
  if u.hasError ∨ ¬ u.isRunning then (0, waiting, u) else clientLoop available 0 waiting u

/-! ## The two sides -/

/-- Where `serve` is: before reading a chunk at `offset`, receiving after it, in
the loop for the result, or back with its return value. -/
inductive HostPhase
  | uploading (offset : Nat)
  | counting (offset : Nat)
  | result
  | returned (code : Nat)
deriving DecidableEq, Repr

/-- Where `_runUpdate` is: in its loop, or behind `Update.end` with its result,
before and after printing it, and with the connection closed. -/
inductive DevicePhase
  | receiving
  | ended (ok : Bool)
  | reported (ok : Bool)
  | stopped (ok : Bool)
deriving DecidableEq, Repr

/-- What `Update.end` returned. -/
def DevicePhase.verdict : DevicePhase → Option Bool
  | .receiving => none
  | .ended ok | .reported ok | .stopped ok => some ok

/-- Host, device and the connection.  Not in the sources: `accepted` is what
`Update.write` has read, `counted` what the upload loop has received, and
`answer` the text of the verdict once it is printed. -/
structure System (F : SpiFlash) where
  host : HostPhase
  received_ok : Bool
  device : DevicePhase
  update : Updater F
  toDevice : List UInt8
  toHost : List Char
  accepted : List UInt8
  counted : List Char
  answer : List Char

inductive Action
  | send
  | recv (n : Nat)
  | connectionError
  | write (available : List Nat)
  | finish (env : EndEnv)
  | report (env : EndEnv)
  | stop

/-- `f.read(1460)` and `sendall`, or the way out of the upload loop. -/
def send (image : List UInt8) (s : System F) : System F :=
  match s.host with
  | .uploading offset =>
    let chunk := (image.drop offset).take 1460
    if chunk = [] then { s with host := .result, received_ok := false }
    else { s with host := .counting (offset + chunk.length), toDevice := s.toDevice ++ chunk }
  | _ => s

/-- Whether `recv(limit)` returns with `n` bytes: with some of those under way, or
with none from a connection that is closed. -/
def recvReady (limit n : Nat) (s : System F) : Bool :=
  (0 < n && n ≤ limit && n ≤ s.toHost.length) ||
    (n = 0 && s.toHost = [] && match s.device with | .stopped _ => true | _ => false)

/-- `recv`, in either loop. -/
def recv (n : Nat) (s : System F) : System F :=
  let reply := s.toHost.take n
  match s.host with
  | .counting offset =>
    if recvReady 32 n s then
      { s with
        host := .uploading offset
        received_ok := s.received_ok || reply.contains 'O'
        toHost := s.toHost.drop n
        counted := s.counted ++ reply }
    else s
  | .result =>
    if recvReady 64 n s then
      let s := { s with toHost := s.toHost.drop n }
      if reply.contains 'E' then { s with host := .returned 1 }
      else if reply.contains 'O' then { s with host := .returned 0, received_ok := true }
      else s
    else s
  | _ => s

/-- An exception of `sendall` or `recv`: the device has closed the connection on
data it has not read. -/
def connectionError (s : System F) : System F :=
  match s.host, s.device with
  | .returned _, _ => s
  | _, .stopped _ => if s.toDevice = [] then s else { s with host := .returned 1 }
  | _, _ => s

/-- `Update.write(client)` and the print of its count. -/
def write (available : List Nat) (s : System F) : System F :=
  if s.device = .receiving ∧ ¬ s.update.isFinished then
    let (written, waiting, u) := writeClient available s.toDevice s.update
    { s with
      update := u
      toDevice := waiting
      accepted := s.accepted ++ s.toDevice.take (s.toDevice.length - waiting.length)
      toHost := s.toHost ++ if written > 0 then decimal written else [] }
  else s

/-- The host has closed the connection, and nothing is left of it. -/
def disconnected (s : System F) : Bool :=
  match s.host with
  | .returned _ => s.toDevice.isEmpty
  | _ => false

/-- The end of the receive loop and `Update.end`. -/
def finish (env : EndEnv) (s : System F) : System F :=
  if s.device = .receiving ∧ (s.update.isFinished ∨ disconnected s = true) then
    match s.update.endUpdate env false with
    | (ok, u) => { s with device := .ended ok, update := u }
  else s

def report (env : EndEnv) (s : System F) : System F :=
  match s.device with
  | .ended ok =>
    let answer := if ok then "OK".toList else printError env s.update
    { s with device := .reported ok, toHost := s.toHost ++ answer, answer := answer }
  | _ => s

def stop (s : System F) : System F :=
  match s.device with
  | .reported ok => { s with device := .stopped ok }
  | _ => s

def step (image : List UInt8) : Action → System F → System F
  | .send, s => send image s
  | .recv n, s => recv n s
  | .connectionError, s => connectionError s
  | .write available, s => write available s
  | .finish env, s => finish env s
  | .report env, s => report env s
  | .stop, s => stop s

def start (u : Updater F) : System F where
  host := .uploading 0
  received_ok := false
  device := .receiving
  update := u
  toDevice := []
  toHost := []
  accepted := []
  counted := []
  answer := []

/-! ## The updater behind the connection -/

variable {n : Nat}

section

variable {image accepted : List UInt8} {u v : Updater F}

/-- An update of the image has taken the bytes of `accepted`, unless it has been
dropped. -/
def Fed (image : List UInt8) (n : Nat) (u : Updater F) : Prop :=
  u.size = 0 ∨ Updater.Running u ∧ u.size = image.length ∧ u.position = n

theorem clientLoop_fed (hu : Updater.Running u) (hsize : u.size = image.length)
    (hn : u.position = n) {available : List Nat} {written : Nat} {waiting : List UInt8} :
    ∃ k, k ≤ waiting.length ∧
      (clientLoop available written waiting u).2.1 = waiting.drop k ∧
      Fed image (n + k) (clientLoop available written waiting u).2.2 := by
  induction available generalizing u n written waiting with
  | nil => exact ⟨0, Nat.zero_le _, rfl, .inr ⟨hu, hsize, hn⟩⟩
  | cons a rest ih =>
    rw [clientLoop]
    by_cases hnone : waiting.take a = []
    · rw [if_pos hnone]
      exact ⟨0, Nat.zero_le _, rfl, .inr ⟨hu, hsize, hn⟩⟩
    rw [if_neg hnone]
    obtain ⟨htaken, hround⟩ := hu.availableRound_taken (waiting.take a)
    have hkept : (u.availableRound (waiting.take a)).more = true → _ :=
      Updater.availableRound_kept
    have hle : u.availableTaken (waiting.take a).length ≤ waiting.length :=
      Nat.le_trans htaken (by rw [length_take]; omega)
    generalize u.availableTaken (waiting.take a).length = taken at hround hle ⊢
    generalize u.availableRound (waiting.take a) = round at hround hkept ⊢
    obtain ⟨more, count, v⟩ := round
    cases more with
    | false =>
      refine ⟨taken, hle, rfl, ?_⟩
      rcases hround with hstopped | hadv
      · exact .inl hstopped.size
      · exact .inr ⟨hadv.running, hadv.size.trans hsize, hadv.position.trans (by rw [hn])⟩
    | true =>
      rcases hround with hstopped | hadv
      · have hpos := hu.size_pos
        have hsame := (hkept rfl).2
        have hzero := hstopped.size
        omega
      · have hnext : ∃ k, k ≤ (waiting.drop taken).length ∧
            (clientLoop rest (written + count) (waiting.drop taken) v).2.1 =
              (waiting.drop taken).drop k ∧
            Fed image (n + taken + k)
              (clientLoop rest (written + count) (waiting.drop taken) v).2.2 :=
          ih hadv.running (hadv.size.trans hsize) (hadv.position.trans (by rw [hn]))
        obtain ⟨k, hk, hwaiting, hfed⟩ := hnext
        refine ⟨taken + k, ?_, ?_, ?_⟩
        · grind
        · exact hwaiting.trans drop_drop
        · rw [← Nat.add_assoc]
          exact hfed

theorem writeClient_fed (hu : Fed image n u) (available : List Nat)
    (waiting : List UInt8) : ∃ k, k ≤ waiting.length ∧
      (writeClient available waiting u).2.1 = waiting.drop k ∧
      Fed image (n + k) (writeClient available waiting u).2.2 := by
  rw [writeClient]
  by_cases hidle : u.hasError ∨ ¬ u.isRunning
  · rw [if_pos hidle]
    exact ⟨0, Nat.zero_le _, rfl, hu⟩
  · rw [if_neg hidle]
    rcases hu with hzero | ⟨hrunning, hsize, hn⟩
    · exact absurd (Updater.idle_of_size hzero) hidle
    · exact clientLoop_fed hrunning hsize hn

theorem finished_position (h : Updater.Running u) (hfin : u.isFinished) : u.position = u.size := by
  have hsize := h.size_lt
  have hstart := h.start_le
  have hlt := h.start_lt
  have hfits := h.fits
  unfold Updater.isFinished at hfin
  unfold Updater.position at hfits ⊢
  unfold u32 at hfin
  omega

end

/-! ## Digits and verdicts -/

def Digits (l : List Char) : Prop := ∀ c ∈ l, c.isDigit = true

theorem digits_decimal (n : Nat) : Digits (decimal n) :=
  fun _ hc => Nat.isDigit_of_mem_toDigits (by decide) (by decide) hc

variable {l : List Char}

theorem Digits.append {m : List Char} (hl : Digits l) (hm : Digits m) : Digits (l ++ m) :=
  fun c hc => (mem_append.mp hc).elim (hl c) (hm c)

theorem Digits.drop (h : Digits l) (n : Nat) : Digits (l.drop n) :=
  fun c hc => h c (mem_of_mem_drop hc)

/-- A verdict as it is printed: `OK`, or a text that begins with an `E`. -/
def Prints (ok : Bool) (answer : List Char) : Prop :=
  if ok then answer = ['O', 'K'] else ∃ rest, answer = 'E' :: rest

theorem printError_prints (env : EndEnv) (u : Updater F) : Prints false (printError env u) :=
  ⟨_, rfl⟩

/-- Counts that are still to come, and behind them a whole verdict. -/
def Pending (s : System F) : Prop := ∃ ds, Digits ds ∧ s.toHost = ds ++ s.answer

theorem Digits.not_contains (h : Digits l) {c : Char} (hc : c.isDigit = false) :
    l.contains c = false := by
  rw [contains_eq_mem]
  exact decide_eq_false fun hmem => Bool.false_ne_true (hc.symm.trans (h c hmem))

theorem Digits.take {l : List Char} (h : Digits l) (n : Nat) : Digits (l.take n) :=
  fun c hc => h c (mem_of_mem_take hc)

variable {ds : List Char}

theorem take_answer (answer : List Char) (hn : ds.length < n) :
    (ds ++ answer).take n = ds ++ answer.take (n - ds.length - 1 + 1) := by
  rw [take_append, take_of_length_le (by omega)]
  congr 2
  omega

theorem reply_verdict {answer : List Char} {ok : Bool} (hds : Digits ds)
    (ha : Prints ok answer) (hn : ds.length < n) :
    ((ds ++ answer).take n).contains 'E' = !ok ∧
      (ok = true → ((ds ++ answer).take n).contains 'O' = true) := by
  rw [take_answer answer hn]
  have hdsE := hds.not_contains (c := 'E') (by decide)
  cases ok with
  | true =>
    obtain rfl : answer = ['O', 'K'] := ha
    cases n - ds.length - 1 with
    | zero => simp_all
    | succ k => simp_all
  | false =>
    obtain ⟨rest, rfl⟩ := ha
    simp

theorem Pending.drop {s : System F} (h : Pending s) {ok : Bool} (ha : Prints ok s.answer)
    (hdigits : Digits (s.toHost.take n)) :
    ∃ ds, Digits ds ∧ s.toHost.drop n = ds ++ s.answer := by
  obtain ⟨ds, hds, heq⟩ := h
  rw [heq] at hdigits ⊢
  by_cases hn : n ≤ ds.length
  · exact ⟨ds.drop n, hds.drop n, drop_append_of_le_length hn⟩
  · have hreach := reply_verdict hds ha (Nat.lt_of_not_le hn)
    have hE := hdigits.not_contains (c := 'E') (by decide)
    have hO := hdigits.not_contains (c := 'O') (by decide)
    cases ok with
    | true => exact absurd ((hreach.2 rfl).symm.trans hO) (by decide)
    | false => exact absurd (hreach.1.symm.trans hE) (by decide)

/-! ## The invariant -/

def DevicePhase.printed : DevicePhase → Option Bool
  | .receiving | .ended _ => none
  | .reported ok | .stopped ok => some ok

/-- What holds of the system as long as no reply to a chunk has reached into the
verdict. -/
structure Inv (image : List UInt8) (s : System F) : Prop where
  order : s.accepted ++ s.toDevice <+: image
  offset : ∀ o, s.host = .uploading o ∨ s.host = .counting o →
    s.accepted ++ s.toDevice = image.take o
  counted : Digits s.counted
  fed : s.device = .receiving → Fed image s.accepted.length s.update
  whole : s.device.verdict = some true → s.accepted = image
  digits : s.device.printed = none → Digits s.toHost
  prints : ∀ ok, s.device.printed = some ok → Prints ok s.answer
  pending : ∀ ok, s.device.printed = some ok → (∀ code, s.host ≠ .returned code) → Pending s
  returned : ∀ code, s.host = .returned code →
    code = 0 ∧ s.device.verdict = some true ∨ code = 1 ∧ s.device.verdict = some false

/-- No reply to a chunk reaches into the verdict: what `recv` returns in the
upload loop is digits only. -/
def Clear (a : Action) (s : System F) : Prop :=
  match a, s.host with
  | .recv n, .counting _ =>
    recvReady 32 n s = true → (s.toHost.take n).all Char.isDigit = true
  | _, _ => True

instance (a : Action) (s : System F) : Decidable (Clear a s) := by
  unfold Clear
  split <;> infer_instance

section

variable {image : List UInt8} {s : System F}

theorem Inv.send (h : Inv image s) : Inv image (send image s) := by
  rw [OtaUpload.send]
  cases hhost : s.host with
  | counting _ | result | returned _ => exact h
  | uploading offset =>
    have horder := h.offset offset (.inl hhost)
    have hfree : ∀ code, s.host ≠ .returned code := fun code hbad => by
      rw [hhost] at hbad
      cases hbad
    dsimp only
    generalize hchunk : (image.drop offset).take 1460 = chunk
    by_cases hend : chunk = []
    · rw [if_pos hend]
      exact { h with
        offset := fun o ho => by rcases ho with ho | ho <;> cases ho
        pending := fun ok hok _ => h.pending ok hok hfree
        returned := fun code hbad => nomatch hbad }
    · rw [if_neg hend]
      have hprefix : chunk <+: image.drop offset := hchunk ▸ List.take_prefix 1460 _
      have hnew : s.accepted ++ (s.toDevice ++ chunk) = image.take (offset + chunk.length) := by
        rw [← append_assoc, horder, take_add, ← prefix_iff_eq_take.mp hprefix]
      exact { h with
        order := hnew ▸ List.take_prefix _ _
        offset := fun o ho => by
          rcases ho with ho | ho
          · cases ho
          · cases ho
            exact hnew
        pending := fun ok hok _ => h.pending ok hok hfree
        returned := fun code hbad => nomatch hbad }

theorem verdict_of_printed {d : DevicePhase} {ok : Bool} (h : d.printed = some ok) :
    d.verdict = some ok := by
  cases d with
  | receiving | ended _ => cases h
  | reported _ | stopped _ => exact h

theorem Inv.waits (h : Inv image s)
    (hdigits : Digits (s.toHost.take n)) : Inv image { s with toHost := s.toHost.drop n } :=
  { h with
    digits := fun hp => (h.digits hp).drop n
    pending := fun ok hok hfree =>
      (h.pending ok hok hfree).drop (h.prints ok hok) hdigits }

theorem Inv.ends (h : Inv image s) {ok : Bool} (hprinted : s.device.printed = some ok)
    {code : Nat} (hcode : code = 0 ∧ ok = true ∨ code = 1 ∧ ok = false) (received_ok : Bool)
    (toHost : List Char) :
    Inv image { s with host := .returned code, received_ok := received_ok, toHost := toHost } :=
  { h with
    offset := fun o ho => by rcases ho with ho | ho <;> cases ho
    digits := fun hp => by
      rw [show s.device.printed = some ok from hprinted] at hp
      cases hp
    pending := fun _ _ hbad => absurd rfl (hbad code)
    returned := fun c hc => by
      cases hc
      have hverdict := verdict_of_printed hprinted
      obtain ⟨rfl, rfl⟩ | ⟨rfl, rfl⟩ := hcode
      · exact .inl ⟨rfl, hverdict⟩
      · exact .inr ⟨rfl, hverdict⟩ }

theorem Inv.reply (h : Inv image s) (hhost : s.host = .result) (n : Nat) :
    Digits (s.toHost.take n) ∨ ∃ ok, s.device.printed = some ok ∧
      (s.toHost.take n).contains 'E' = !ok ∧
        (ok = true → (s.toHost.take n).contains 'O' = true) := by
  cases hprinted : s.device.printed with
  | none => exact .inl ((h.digits hprinted).take n)
  | some ok =>
    have hfree : ∀ code, s.host ≠ .returned code := fun code hbad => by
      rw [hhost] at hbad
      cases hbad
    obtain ⟨ds, hds, heq⟩ := h.pending ok hprinted hfree
    by_cases hn : n ≤ ds.length
    · rw [heq, take_append_of_le_length hn]
      exact .inl (hds.take n)
    · obtain ⟨hE, hO⟩ := reply_verdict hds (h.prints ok hprinted) (Nat.lt_of_not_le hn)
      rw [← heq] at hE hO
      exact .inr ⟨ok, rfl, hE, hO⟩

theorem Inv.recv (h : Inv image s) (hclear : Clear (.recv n) s) :
    Inv image (recv n s) := by
  rw [OtaUpload.recv]
  cases hhost : s.host with
  | uploading _ | returned _ => exact h
  | counting offset =>
    dsimp only
    by_cases hready : recvReady 32 n s = true
    · rw [if_pos hready]
      have hdigits : Digits (s.toHost.take n) := by
        unfold Clear at hclear
        rw [hhost] at hclear
        exact all_eq_true.mp (hclear hready)
      have hfree : ∀ code, s.host ≠ .returned code := fun code hbad => by
        rw [hhost] at hbad
        cases hbad
      exact {
        order := h.order
        offset := fun o ho => by
          rcases ho with ho | ho
          · cases ho
            exact h.offset offset (.inr hhost)
          · cases ho
        counted := h.counted.append hdigits
        fed := h.fed
        whole := h.whole
        digits := fun hp => (h.digits hp).drop n
        prints := h.prints
        pending := fun ok hok _ => (h.pending ok hok hfree).drop (h.prints ok hok) hdigits
        returned := fun code hbad => nomatch hbad }
    · rw [if_neg hready]
      exact h
  | result =>
    dsimp only
    by_cases hready : recvReady 64 n s = true
    · rw [if_pos hready]
      obtain hdigits | ⟨ok, hprinted, hE, hO⟩ := h.reply hhost n
      · rw [if_neg (by rw [hdigits.not_contains (by decide)]; decide),
          if_neg (by rw [hdigits.not_contains (by decide)]; decide), ← hhost]
        exact h.waits hdigits
      · cases ok with
        | true =>
          rw [if_neg (by rw [hE]; decide), if_pos (hO rfl)]
          exact h.ends hprinted (.inl ⟨rfl, rfl⟩) true _
        | false =>
          rw [if_pos (by rw [hE]; decide)]
          exact h.ends hprinted (.inr ⟨rfl, rfl⟩) _ _
    · rw [if_neg hready]
      exact h

theorem Inv.connectionError (h : Inv image s) : Inv image (connectionError s) := by
  have herror : ∀ ok, s.device = .stopped ok → s.toDevice ≠ [] →
      Inv image { s with host := .returned 1 } := by
    intro ok hdev hleft
    have hverdict : s.device.verdict = some ok := by rw [hdev]; rfl
    have hfalse : ok = false := by
      cases ok with
      | false => rfl
      | true =>
        obtain ⟨rest, hrest⟩ := h.order
        have hlen := congrArg length hrest
        rw [h.whole hverdict, append_assoc, length_append, length_append] at hlen
        exact absurd (length_eq_zero_iff.mp (by omega)) hleft
    subst hfalse
    exact { h with
      offset := fun o ho => by rcases ho with ho | ho <;> cases ho
      pending := fun _ _ hbad => absurd rfl (hbad 1)
      returned := fun code hcode => by
        cases hcode
        exact .inr ⟨rfl, hverdict⟩ }
  rw [OtaUpload.connectionError]
  cases hhost : s.host with
  | returned _ => exact h
  | uploading _ | counting _ | result =>
    cases hdev : s.device with
    | receiving | ended _ | reported _ => exact h
    | stopped ok =>
      dsimp only
      split
      · exact h
      · rename_i hleft
        have hreturned := herror ok hdev hleft
        rw [hdev] at hreturned
        exact hreturned

theorem Inv.write (h : Inv image s) (available : List Nat) : Inv image (write available s) := by
  rw [OtaUpload.write]
  by_cases hgo : s.device = .receiving ∧ ¬ s.update.isFinished
  · rw [if_pos hgo]
    obtain ⟨k, hk, hwaiting, hfed⟩ := writeClient_fed (h.fed hgo.1) available s.toDevice
    generalize writeClient available s.toDevice s.update = r at hwaiting hfed ⊢
    obtain ⟨written, waiting, u⟩ := r
    obtain rfl : waiting = s.toDevice.drop k := hwaiting
    have htake : s.toDevice.take (s.toDevice.length - (s.toDevice.drop k).length) =
        s.toDevice.take k := by grind
    have hsame : (s.accepted ++ s.toDevice.take k) ++ s.toDevice.drop k =
        s.accepted ++ s.toDevice := by
      rw [append_assoc, take_append_drop]
    dsimp only
    rw [htake]
    have hnone : s.device.printed = none := by rw [hgo.1]; rfl
    exact {
      order := hsame ▸ h.order
      offset := fun o ho => hsame.trans (h.offset o ho)
      counted := h.counted
      fed := fun _ => by
        rw [length_append, length_take, Nat.min_eq_left hk]
        exact hfed
      whole := fun hbad => by
        rw [show s.device.verdict = none by rw [hgo.1]; rfl] at hbad
        cases hbad
      digits := fun hp => (h.digits hp).append (by
        split
        · exact digits_decimal _
        · exact fun c hc => nomatch hc)
      prints := h.prints
      pending := fun ok hok => by
        rw [show s.device.printed = none from hnone] at hok
        cases hok
      returned := h.returned }
  · rw [if_neg hgo]
    exact h

theorem Inv.finish (h : Inv image s) (env : EndEnv) : Inv image (finish env s) := by
  rw [OtaUpload.finish]
  by_cases hgo : s.device = .receiving ∧ (s.update.isFinished ∨ disconnected s = true)
  · rw [if_pos hgo]
    obtain ⟨hdev, hend⟩ := hgo
    have hfree : ∀ code, s.host ≠ .returned code := fun code hbad => by
      have hret := h.returned code hbad
      rw [hdev] at hret
      rcases hret with ⟨-, hv⟩ | ⟨-, hv⟩ <;> cases hv
    have hfin : s.update.isFinished := hend.resolve_right fun hbad => by
      rw [disconnected] at hbad
      cases hhost : s.host with
      | returned code => exact hfree code hhost
      | uploading _ | counting _ | result =>
        rw [hhost] at hbad
        cases hbad
    generalize hres : s.update.endUpdate env false = r
    obtain ⟨ok, u⟩ := r
    have hwhole : ok = true → s.accepted = image := by
      rintro rfl
      have hsize := (HttpUpdate.endUpdate_true hres).1
      obtain ⟨hrunning, hlen, hposition⟩ := (h.fed hdev).resolve_left hsize
      have hall := finished_position hrunning hfin
      have hprefix : s.accepted <+: image := (prefix_append _ _).trans h.order
      exact hprefix.eq_of_length (by omega)
    exact { h with
      fed := fun hbad => nomatch hbad
      whole := fun hv => hwhole (Option.some.inj hv)
      digits := fun _ => h.digits (by rw [hdev]; rfl)
      prints := fun _ hbad => nomatch hbad
      pending := fun _ hbad => nomatch hbad
      returned := fun code hbad => absurd hbad (hfree code) }
  · rw [if_neg hgo]
    exact h

theorem Inv.report (h : Inv image s) (env : EndEnv) : Inv image (report env s) := by
  rw [OtaUpload.report]
  cases hdev : s.device with
  | receiving | reported _ | stopped _ => exact h
  | ended ok =>
    have hdigits := h.digits (by rw [hdev]; rfl)
    have hprints : Prints ok (if ok then "OK".toList else printError env s.update) := by
      cases ok with
      | true => exact (by decide : "OK".toList = ['O', 'K'])
      | false => exact printError_prints env s.update
    have hverdict : s.device.verdict = some ok := by rw [hdev]; rfl
    exact { h with
      fed := fun hbad => nomatch hbad
      whole := fun hv => h.whole (hverdict.trans hv)
      digits := fun hbad => nomatch hbad
      prints := fun ok' hok => by
        cases hok
        exact hprints
      pending := fun _ _ _ => ⟨s.toHost, hdigits, rfl⟩
      returned := fun code hcode => by
        have hret := h.returned code hcode
        rw [hverdict] at hret
        exact hret }

theorem Inv.stop (h : Inv image s) : Inv image (stop s) := by
  rw [OtaUpload.stop]
  cases hdev : s.device with
  | receiving | ended _ | stopped _ => exact h
  | reported ok =>
    have hverdict : s.device.verdict = some ok := by rw [hdev]; rfl
    have hprinted : s.device.printed = some ok := by rw [hdev]; rfl
    exact { h with
      fed := fun hbad => nomatch hbad
      whole := fun hv => h.whole (hverdict.trans hv)
      digits := fun hbad => nomatch hbad
      prints := fun ok' hok => h.prints ok' (hprinted.trans hok)
      pending := fun ok' hok hfree => h.pending ok' (hprinted.trans hok) hfree
      returned := fun code hcode => by
        have hret := h.returned code hcode
        rw [hverdict] at hret
        exact hret }

/-- **Every step keeps the invariant.** -/
theorem Inv.step (h : Inv image s) (a : Action) (hclear : Clear a s) :
    Inv image (step image a s) := by
  cases a with
  | send => exact h.send
  | recv n => exact h.recv hclear
  | connectionError => exact h.connectionError
  | write available => exact h.write available
  | finish env => exact h.finish env
  | report env => exact h.report env
  | stop => exact h.stop

/-! ## Agreement -/

/-- Host and device agree: what the host has returned is what `Update.end` has;
until it returns, the verdict is still to come, whole and behind nothing but
counts; no part of it was taken for a count; and the device has taken the image
from its beginning, each byte once. -/
structure Agreed (image : List UInt8) (s : System F) : Prop where
  agrees : ∀ code, s.host = .returned code →
    code = 0 ∧ s.device.verdict = some true ∨ code = 1 ∧ s.device.verdict = some false
  heard : ∀ ok, s.device.printed = some ok → (∀ code, s.host ≠ .returned code) →
    Prints ok s.answer ∧ Pending s
  counted : Digits s.counted
  order : s.accepted <+: image
  whole : s.device.verdict = some true → s.accepted = image

theorem Inv.agreed (h : Inv image s) : Agreed image s where
  agrees := h.returned
  heard := fun ok hok hfree => ⟨h.prints ok hok, h.pending ok hok hfree⟩
  counted := h.counted
  order := (prefix_append _ _).trans h.order
  whole := h.whole

theorem start_inv {u : Updater F} (h : Updater.Running u) (hsize : u.size = image.length)
    (hposition : u.position = 0) : Inv image (start u) where
  order := List.nil_prefix
  offset := fun o ho => by
    rcases ho with ho | ho
    · cases ho
      rfl
    · cases ho
  counted := fun _ hc => nomatch hc
  fed := fun _ => .inr ⟨h, hsize, hposition⟩
  whole := fun hbad => nomatch hbad
  digits := fun _ _ hc => nomatch hc
  prints := fun _ hbad => nomatch hbad
  pending := fun _ hbad => nomatch hbad
  returned := fun _ hbad => nomatch hbad

end

/-- **The upload agrees**, along every run in which the replies to the chunks
are counts only. -/
theorem upload_agrees {L : Layout} {benv : BeginEnv} {image : List UInt8}
    (himage : image.length < 4294967296) {command : Int} {u u₀ : Updater F}
    (hbegin : Updater.beginUpdate L benv image.length command u = (true, u₀))
    (expected_md5 : List Char) {actions : List Action}
    (hclear : Runs.AllFit (step image) Clear actions (start (u₀.setMD5 expected_md5).2)) :
    Agreed image (Runs.after (step image) actions (start (u₀.setMD5 expected_md5).2)) := by
  have hb : Updater.Begun (u₀.setMD5 expected_md5).2 :=
    (Updater.beginUpdate_begun himage hbegin).announce (some expected_md5)
  have hsize : (u₀.setMD5 expected_md5).2.size = image.length := by
    have hu₀ : u₀.size = image.length := by
      obtain ⟨-, c, start, block, -, -, -, rfl⟩ := Updater.beginUpdate_true hbegin
      rfl
    rw [← hu₀, Updater.setMD5]
    split <;> rfl
  have hstart := start_inv hb.running hsize hb.position
  exact (Runs.invariant (fun a s h hfit => h.step a hfit) hstart hclear).agreed

def sampleUpdate : Updater (Updater.sampleFlash fun _ => false) :=
  (Updater.beginUpdate Updater.sampleLayout Updater.sampleBegin 1 U_FS
    (Updater.init none (Updater.sampleChip (fun _ => false) 0))).2

/-- An upload in which the host has the count before the verdict is sent. -/
theorem upload_agrees_sample :
    Agreed [7] (Runs.after (step [7]) [.send, .write [1], .recv 1, .send,
      .finish Updater.sampleEnd, .report Updater.sampleEnd, .stop, .recv 2]
      (start (sampleUpdate.setMD5 []).2)) :=
  @upload_agrees _ Updater.sampleLayout Updater.sampleBegin [7] (by decide) U_FS
    (Updater.init none (Updater.sampleChip (fun _ => false) 0)) sampleUpdate
    (Updater.eq_mk_snd (by decide +kernel)) [] _ (by decide +kernel)

def tornError : List Action :=
  [.send, .write [1], .finish Updater.sampleEnd, .report Updater.sampleEnd, .stop, .recv 2, .send,
    .recv 64]

/-- Its digest is wrong and `Update.end` fails, but in the rest of the text the
host finds an `O`, and no `E`. -/
theorem not_upload_agrees :
    ¬ ∀ actions : List Action, Agreed [7] (Runs.after (step [7]) actions
      (start (sampleUpdate.setMD5 (List.replicate 32 'a')).2)) := by
  intro h
  have hhost : (Runs.after (step [7]) tornError
      (start (sampleUpdate.setMD5 (replicate 32 'a')).2)).host = .returned 0 := by
    decide +kernel
  have hverdict : (Runs.after (step [7]) tornError
      (start (sampleUpdate.setMD5 (replicate 32 'a')).2)).device.verdict = some false := by
    decide +kernel
  rcases (h tornError).agrees 0 hhost with ⟨-, hok⟩ | ⟨hcode, -⟩
  · rw [hverdict] at hok
    cases hok
  · cases hcode

end OtaUpload
