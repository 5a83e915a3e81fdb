import RalioFirmware.Ota.Responder

/-!
# One run of an update session

`ArduinoOTAClass::_runUpdate` with what it tells others: the datagrams it
answers, what it prints to the host, and the callbacks.  `Update`, the
connection and the clock answer as they like.  After a failed connection and
after a failure to receive the function goes on, and its countdown of polls
tells a wait that was too long from one that was not only where the data come at
the last poll.

* `wait_eq_zero_iff`: what the countdown takes for a failure;
* `reported_iff`: a session is reported as it is meant exactly where the update
  does not begin, or the connection is made and never stalls.
-/

namespace Ota

open Http List

/-! ## What a run does -/

/-- `ota_error_t`. -/
inductive OtaError
  | OTA_AUTH_ERROR
  | OTA_BEGIN_ERROR
  | OTA_CONNECT_ERROR
  | OTA_RECEIVE_ERROR
  | OTA_END_ERROR
deriving DecidableEq, Repr

/-- The calls of a run, in their order.  A callback that is not set is one that
does nothing. -/
inductive Effect
  | updateBegin (size cmd : Int)
  | reply (data : Text)
  | listen
  | setMD5 (md5 : Text)
  | startCallback
  | progressCallback (total : Nat) (size : Int)
  | connect (address port : Nat)
  | updateWrite (written : Nat)
  | printCount (written : Nat)
  | updateEnd
  | printOK
  | stop
  | endCallback
  | restart
  | errorCallback (e : OtaError)
  | printError
deriving DecidableEq

def Effect.reports : Effect → Bool
  | .endCallback => true
  | .errorCallback _ => true
  | _ => false

/-- What a pass of the receive loop meets: `isFinished`, `connected` and
`available` of its condition, `available` at each poll, and the count that
`Update.write` returns. -/
structure Pass where
  isFinished : Bool
  connected : Bool
  available : Bool
  polls : Nat → Bool
  written : Nat

def Pass.enters (p : Pass) : Bool := !p.isFinished && (p.connected || p.available)

def Pass.Stalls (p : Pass) : Prop := ∀ k < 1000, p.polls k = false

/-- What a run meets: the results of `Update.begin` and `Update.end`, of the
connection, the passes, the text of the updater's error, and the datagrams that
arrive at each wait. -/
structure Answers where
  beginOk : Bool
  connectOk : Bool
  passes : Nat → Pass
  endOk : Bool
  errorText : Text
  arrivals : Nat → List (Datagram × Nat)

/-- The responder in a run, whether its socket listens, how often it has waited,
and what it has done. -/
structure Session where
  responder : Responder
  listening : Bool
  waits : Nat
  trace : List Effect

section

variable (md5 : Text → Text) (rebootOnSuccess : Bool) (a : Answers)

namespace Session

def emit (effects : List Effect) (s : Session) : Session :=
  { s with trace := s.trace ++ effects }

def delay (s : Session) : Session :=
  { s with responder := receiveAll md5 (a.arrivals s.waits) s.responder, waits := s.waits + 1 }

/-- The socket listens again, and the error callback is called. -/
def fail (e : OtaError) (s : Session) : Session :=
  { s with listening := true, trace := s.trace ++ [.listen, .errorCallback e] }

def idle (s : Session) : Session :=
  { s with responder := { s.responder with state := .OTA_IDLE } }

end Session

/-- `while (!client.available() && waited--) delay(1);` from its `k`-th poll on:
the value that `waited` has behind it. -/
def wait (polls : Nat → Bool) : Nat → Nat → Int
  | 0, k => if polls k then 0 else -1
  | waited + 1, k => if polls k then waited + 1 else wait polls waited (k + 1)

def pass (p : Pass) (total : Nat) (s : Session) : Session :=
  let waited := wait p.polls 1000 0
  let s := s.delay md5 a
  let s := if waited = 0 then (s.fail .OTA_RECEIVE_ERROR).idle else s
  let s := s.emit [.updateWrite p.written]
  if p.written > 0 then
    s.emit [.printCount p.written, .progressCallback (total + p.written) s.responder.size]
  else s

def passLoop : Nat → Nat → Nat → Session → Option Session
  | 0, _, _, _ => none
  | fuel + 1, n, total, s =>
    if (a.passes n).enters then
      passLoop fuel (n + 1) (total + (a.passes n).written) (pass md5 a (a.passes n) total s)
    else some s

def conclude (s : Session) : Session :=
  let s := s.emit [.updateEnd]
  if a.endOk then
    let s := ((s.delay md5 a).emit [.printOK]).delay md5 a
    let s := s.emit [.stop, .endCallback]
    if rebootOnSuccess then (s.delay md5 a).emit [.restart] else s
  else ((s.fail .OTA_END_ERROR).emit [.printError]).idle

/-- `_runUpdate`. -/
def runSession (fuel : Nat) (s : Session) : Option Session :=
  let s := s.emit [.updateBegin s.responder.size s.responder.cmd]
  if a.beginOk = false then
    let s := (s.emit [.errorCallback .OTA_BEGIN_ERROR, .reply (text "ERR: " ++ a.errorText)]).delay
      md5 a
    some ({ s with listening := true }.emit [.listen]).idle
  else
    let s := (s.emit [.reply (text "OK")]).delay md5 a
    let s := s.emit [.setMD5 s.responder.md5, .startCallback, .progressCallback 0 s.responder.size]
    let s := (s.emit [.connect s.responder.ota_ip s.responder.ota_port]).delay md5 a
    let s := if a.connectOk = false then (s.fail .OTA_CONNECT_ERROR).idle else s
    (passLoop md5 a fuel 0 0 s).map (conclude md5 rebootOnSuccess a)

end

/-! ## What a run is to report -/

def Answers.Reached (a : Answers) (n : Nat) : Prop :=
  a.beginOk = true ∧ ∀ k ≤ n, (a.passes k).enters = true

/-- The calls of a run that ends: one of the two callbacks, once; a failure to
receive where a pass has found no data for a second, and then nothing received
any more; the final `OK` only behind an update that has ended well; and an idle
responder that listens behind an error. -/
structure Reports (a : Answers) (s : Session) : Prop where
  once : s.trace.countP Effect.reports = 1
  receive : Effect.errorCallback .OTA_RECEIVE_ERROR ∈ s.trace ↔
    ∃ n, a.Reached n ∧ (a.passes n).Stalls
  stops : ∀ front back, s.trace = front ++ .errorCallback .OTA_RECEIVE_ERROR :: back →
    ∀ written, Effect.updateWrite written ∉ back
  ok : Effect.printOK ∈ s.trace → a.endOk = true
  idle : (∃ e, Effect.errorCallback e ∈ s.trace) →
    s.responder.state = .OTA_IDLE ∧ s.listening = true

/-- A run ends, whatever bound there is on its passes from some bound on, with
the reports that are meant. -/
def Reported (md5 : Text → Text) (rebootOnSuccess : Bool) (a : Answers) (r : Responder)
    (listening : Bool) : Prop :=
  ∃ fuel s, (∀ n ≥ fuel, runSession md5 rebootOnSuccess a n ⟨r, listening, 0, []⟩ = some s) ∧
    Reports a s

/-- The update does not begin; or the connection is made, comes to an end, and
does not stall before. -/
def Clean (a : Answers) : Prop :=
  a.beginOk = false ∨
    (a.connectOk = true ∧ (∃ n, (a.passes n).enters = false) ∧
      ∀ n, a.Reached n → ¬ (a.passes n).Stalls)

/-! ## The countdown -/

/-- **The countdown** is at zero behind a wait whose last poll alone finds
data. -/
theorem wait_eq_zero_iff (polls : Nat → Bool) (waited k : Nat) :
    wait polls waited k = 0 ↔ (∀ j < waited, polls (k + j) = false) ∧ polls (k + waited) =
        true := by
  induction waited generalizing k with
  | zero =>
    rw [wait, Nat.add_zero]
    cases polls k
    · exact ⟨fun h => absurd h (by decide), fun h => absurd h.2 (by decide)⟩
    · exact ⟨fun _ => ⟨fun j hj => absurd hj (Nat.not_lt_zero j), rfl⟩, fun _ => rfl⟩
  | succ waited ih =>
    rw [wait]
    have hnext : ∀ j, k + 1 + j = k + (j + 1) := fun j => by omega
    cases hpoll : polls k with
    | true =>
      rw [if_pos rfl]
      refine ⟨fun h => absurd h (by omega), fun h => ?_⟩
      have hfirst := h.1 0 (Nat.succ_pos _)
      rw [Nat.add_zero, hpoll] at hfirst
      cases hfirst
    | false =>
      rw [if_neg (by decide), ih, hnext]
      refine and_congr_left fun _ => ⟨fun h j hj => ?_, fun h j hj => ?_⟩
      · cases j with
        | zero => rw [Nat.add_zero, hpoll]
        | succ j =>
          grind
      · grind

theorem Pass.wait_ne_zero {p : Pass} (h : ¬ p.Stalls) : wait p.polls 1000 0 ≠ 0 := by
  intro hzero
  refine h fun k hk => ?_
  have hnone := ((wait_eq_zero_iff p.polls 1000 0).1 hzero).1 k hk
  rwa [Nat.zero_add] at hnone

/-! ## The receive loop -/

section

variable {md5 : Text → Text} {rebootOnSuccess : Bool} {a : Answers} {s t : Session}

def passEffects (p : Pass) (total : Nat) (size : Int) : List Effect :=
  (if wait p.polls 1000 0 = 0 then [.listen, .errorCallback .OTA_RECEIVE_ERROR] else []) ++
    [.updateWrite p.written] ++
    if p.written > 0 then [.printCount p.written, .progressCallback (total + p.written) size]
    else []

theorem pass_trace (p : Pass) (total : Nat) (s : Session) :
    ∃ size, (pass md5 a p total s).trace = s.trace ++ passEffects p total size := by
  refine ⟨(pass md5 a p total s).responder.size, ?_⟩
  rw [pass, passEffects]
  by_cases hwait : wait p.polls 1000 0 = 0
  · by_cases hwritten : p.written > 0
    · simp [hwait, hwritten, Session.emit, Session.fail, Session.idle, Session.delay]
    · simp [hwait, hwritten, Session.emit, Session.fail, Session.idle, Session.delay]
  · by_cases hwritten : p.written > 0
    · simp [hwait, hwritten, Session.emit, Session.delay]
    · simp [hwait, hwritten, Session.emit, Session.delay]

theorem passEffects_quiet {p : Pass} (h : wait p.polls 1000 0 ≠ 0) (total : Nat) (size : Int) :
    ∀ e ∈ passEffects p total size, e.reports = false ∧ e ≠ .printOK := by
  intro e he
  rw [passEffects, if_neg h, nil_append, mem_append, mem_singleton] at he
  obtain rfl | he := he
  · exact ⟨rfl, fun hfalse => by cases hfalse⟩
  · split at he
    · rw [mem_cons, mem_singleton] at he
      obtain rfl | rfl := he
      · exact ⟨rfl, fun hfalse => by cases hfalse⟩
      · exact ⟨rfl, fun hfalse => by cases hfalse⟩
    · cases he

theorem passLoop_succ (fuel n total : Nat) (s : Session) :
    passLoop md5 a (fuel + 1) n total s =
      if (a.passes n).enters then
        passLoop md5 a fuel (n + 1) (total + (a.passes n).written)
          (pass md5 a (a.passes n) total s)
      else some s := rfl

theorem passLoop_extends {fuel n total : Nat} (h : passLoop md5 a fuel n total s = some t) :
    (∃ es, t.trace = s.trace ++ es) ∧ ∃ k, (a.passes k).enters = false := by
  induction fuel generalizing n total s with
  | zero => cases h
  | succ fuel ih =>
    rw [passLoop_succ] at h
    cases henters : (a.passes n).enters with
    | false =>
      rw [henters] at h
      cases h
      exact ⟨⟨[], (append_nil _).symm⟩, n, henters⟩
    | true =>
      rw [henters] at h
      obtain ⟨⟨es, hes⟩, hexit⟩ := ih h
      obtain ⟨size, hpass⟩ := @pass_trace md5 a (a.passes n) total s
      refine ⟨⟨passEffects (a.passes n) total size ++ es, ?_⟩, hexit⟩
      rw [hes, hpass, append_assoc]

theorem passLoop_ends {d n total : Nat} {s : Session} (h : (a.passes (n + d)).enters = false) :
    ∃ fuel t, ∀ f ≥ fuel, passLoop md5 a f n total s = some t := by
  induction d generalizing n total s with
  | zero =>
    refine ⟨1, s, fun f hf => ?_⟩
    obtain ⟨f, rfl⟩ := Nat.exists_eq_add_of_le' hf
    rw [Nat.add_zero] at h
    rw [passLoop_succ, h]
    rfl
  | succ d ih =>
    cases henters : (a.passes n).enters with
    | false =>
      refine ⟨1, s, fun f hf => ?_⟩
      obtain ⟨f, rfl⟩ := Nat.exists_eq_add_of_le' hf
      rw [passLoop_succ, henters]
      rfl
    | true =>
      obtain ⟨fuel, t, hends⟩ := @ih (n + 1) (total + (a.passes n).written)
        (pass md5 a (a.passes n) total s) (by rw [← h, Nat.add_right_comm, Nat.add_assoc])
      refine ⟨fuel + 1, t, fun f hf => ?_⟩
      obtain ⟨f, rfl⟩ := Nat.exists_eq_succ_of_ne_zero (show f ≠ 0 by omega)
      rw [passLoop_succ, henters]
      exact hends f (by omega)

/-- **A loop without stalls** neither reports nor sends the final `OK`. -/
theorem passLoop_quiet {fuel n total : Nat} (h : passLoop md5 a fuel n total s = some t)
    (hclean : ∀ k, (∀ j, n ≤ j → j ≤ k → (a.passes j).enters = true) → n ≤ k →
      ¬ (a.passes k).Stalls) :
    ∃ es, t.trace = s.trace ++ es ∧ ∀ e ∈ es, e.reports = false ∧ e ≠ .printOK := by
  induction fuel generalizing n total s with
  | zero => cases h
  | succ fuel ih =>
    rw [passLoop_succ] at h
    cases henters : (a.passes n).enters with
    | false =>
      rw [henters] at h
      cases h
      exact ⟨[], (append_nil _).symm, fun e he => absurd he not_mem_nil⟩
    | true =>
      rw [henters] at h
      have hfirst : ¬ (a.passes n).Stalls := by
        refine hclean n (fun j hlow hhigh => ?_) (Nat.le_refl n)
        obtain rfl := Nat.le_antisymm hlow hhigh
        exact henters
      obtain ⟨es, hes, hquiet⟩ := ih h fun k hk hle => by
        refine hclean k (fun j hlow hhigh => ?_) (Nat.le_of_succ_le hle)
        obtain rfl | hlt := Nat.eq_or_lt_of_le hlow
        · exact henters
        · exact hk j hlt hhigh
      obtain ⟨size, hpass⟩ := @pass_trace md5 a (a.passes n) total s
      refine ⟨passEffects (a.passes n) total size ++ es, ?_, fun e he => ?_⟩
      · rw [hes, hpass, append_assoc]
      · rw [mem_append] at he
        exact he.elim (passEffects_quiet (Pass.wait_ne_zero hfirst) total size e) (hquiet e)

/-! ## The end of a run -/

/-- **Behind the loop** there is one report, and behind an error an idle
responder that listens. -/
theorem conclude_trace (s : Session) :
    ∃ es, (conclude md5 rebootOnSuccess a s).trace = s.trace ++ es ∧
      es.countP Effect.reports = 1 ∧ Effect.errorCallback .OTA_RECEIVE_ERROR ∉ es ∧
      (Effect.printOK ∈ es → a.endOk = true) ∧
      ((∃ e, Effect.errorCallback e ∈ es) →
        (conclude md5 rebootOnSuccess a s).responder.state = .OTA_IDLE ∧
          (conclude md5 rebootOnSuccess a s).listening = true) := by
  rw [conclude]
  cases hend : a.endOk with
  | false =>
    refine ⟨[.updateEnd, .listen, .errorCallback .OTA_END_ERROR, .printError], ?_, by decide,
      by decide, fun hok => ?_, fun _ => ⟨rfl, rfl⟩⟩
    · simp [Session.emit, Session.fail, Session.idle]
    · exact absurd hok (by decide)
  | true =>
    cases rebootOnSuccess with
    | false =>
      refine ⟨[.updateEnd, .printOK, .stop, .endCallback], ?_, by decide, by decide,
        fun _ => rfl, fun herror => ?_⟩
      · simp [Session.emit, Session.delay]
      · obtain ⟨e, he⟩ := herror
        simp at he
    | true =>
      refine ⟨[.updateEnd, .printOK, .stop, .endCallback, .restart], ?_, by decide, by decide,
        fun _ => rfl, fun herror => ?_⟩
      · simp [Session.emit, Session.delay]
      · obtain ⟨e, he⟩ := herror
        simp at he

def connected (md5 : Text → Text) (a : Answers) (s : Session) : Session :=
  let s := s.emit [.updateBegin s.responder.size s.responder.cmd]
  let s := (s.emit [.reply (text "OK")]).delay md5 a
  let s := s.emit [.setMD5 s.responder.md5, .startCallback, .progressCallback 0 s.responder.size]
  let s := (s.emit [.connect s.responder.ota_ip s.responder.ota_port]).delay md5 a
  if a.connectOk = false then (s.fail .OTA_CONNECT_ERROR).idle else s

theorem runSession_begun (hbegin : a.beginOk = true) (fuel : Nat) (s : Session) :
    runSession md5 rebootOnSuccess a fuel s =
      (passLoop md5 a fuel 0 0 (connected md5 a s)).map (conclude md5 rebootOnSuccess a) := by
  rw [runSession, hbegin]
  rfl

theorem connected_quiet (hconnect : a.connectOk = true) (hnone : s.trace = []) :
    ∀ e ∈ (connected md5 a s).trace, e.reports = false ∧ e ≠ .printOK := by
  rw [connected, hconnect]
  simp only [Session.emit, Session.delay, hnone, nil_append, cons_append,
    Bool.true_eq_false, if_false]
  intro e he
  simp only [mem_cons, not_mem_nil, or_false] at he
  obtain rfl | rfl | rfl | rfl | rfl | rfl := he
  all_goals exact ⟨rfl, fun hfalse => by cases hfalse⟩

theorem connected_failed (hconnect : a.connectOk = false) :
    Effect.errorCallback .OTA_CONNECT_ERROR ∈ (connected md5 a s).trace := by
  rw [connected, hconnect]
  simp [Session.fail, Session.idle]

theorem quiet_count {es : List Effect} (h : ∀ e ∈ es, e.reports = false ∧ e ≠ .printOK) :
    es.countP Effect.reports = 0 ∧ Effect.printOK ∉ es ∧ ∀ e, Effect.errorCallback e ∉ es := by
  refine ⟨countP_eq_zero.2 fun e he => ?_, fun hok => (h _ hok).2 rfl, fun e he => ?_⟩
  · grind
  · have hreport := (h _ he).1
    cases hreport

def refused (md5 : Text → Text) (a : Answers) (s : Session) : Session :=
  let s := s.emit [.updateBegin s.responder.size s.responder.cmd]
  let s := (s.emit [.errorCallback .OTA_BEGIN_ERROR, .reply (text "ERR: " ++ a.errorText)]).delay
    md5 a
  ({ s with listening := true }.emit [.listen]).idle

theorem refused_reports (hbegin : a.beginOk = false) (hnone : s.trace = []) :
    Reports a (refused md5 a s) := by
  have htrace : (refused md5 a s).trace = [.updateBegin s.responder.size s.responder.cmd,
      .errorCallback .OTA_BEGIN_ERROR, .reply (text "ERR: " ++ a.errorText), .listen] := by
    simp [refused, Session.emit, Session.delay, Session.idle, hnone]
  have hreceive : Effect.errorCallback .OTA_RECEIVE_ERROR ∉ (refused md5 a s).trace := by
    rw [htrace]
    simp
  exact {
    once := by rw [htrace]; rfl
    receive := by
      refine ⟨fun h => absurd h hreceive, fun ⟨n, hreached, _⟩ => ?_⟩
      exact absurd (hreached.1.symm.trans hbegin) (by decide)
    stops := by
      intro front back heq
      refine absurd ?_ hreceive
      rw [heq]
      exact mem_append_right _ mem_cons_self
    ok := by
      intro hok
      rw [htrace] at hok
      simp at hok
    idle := fun _ => ⟨rfl, rfl⟩ }

theorem reports_of_quiet (hbegin : a.beginOk = true) (hconnect : a.connectOk = true)
    (hclean : ∀ n, a.Reached n → ¬ (a.passes n).Stalls) (hnone : s.trace = [])
    {fuel : Nat} (hloop : passLoop md5 a fuel 0 0 (connected md5 a s) = some t) :
    Reports a (conclude md5 rebootOnSuccess a t) := by
  obtain ⟨es, hes, hquiet⟩ := passLoop_quiet hloop fun k hk _ =>
    hclean k ⟨hbegin, fun j hj => hk j (Nat.zero_le j) hj⟩
  obtain ⟨fs, hfs, honce, hnot, hok, hidle⟩ := @conclude_trace md5 rebootOnSuccess a t
  obtain ⟨hcount, hsilent, hnoerror⟩ := @quiet_count ((connected md5 a s).trace ++ es)
    fun e he => (mem_append.1 he).elim (connected_quiet hconnect hnone e) (hquiet e)
  rw [hes] at hfs
  generalize (connected md5 a s).trace ++ es = before at hfs hcount hsilent hnoerror
  have hreceive : Effect.errorCallback .OTA_RECEIVE_ERROR ∉
      (conclude md5 rebootOnSuccess a t).trace := by grind
  exact {
    once := by rw [hfs, countP_append, hcount, honce]
    receive := by
      refine ⟨fun h => absurd h hreceive, fun ⟨n, hreached, hstalls⟩ => ?_⟩
      exact absurd hstalls (hclean n hreached)
    stops := by
      intro front back heq
      refine absurd ?_ hreceive
      rw [heq]
      exact mem_append_right _ mem_cons_self
    ok := by
      intro h
      rw [hfs, mem_append] at h
      exact hok (h.resolve_left hsilent)
    idle := by
      rintro ⟨e, he⟩
      rw [hfs, mem_append] at he
      exact hidle ⟨e, he.resolve_left (hnoerror e)⟩ }

theorem Clean.reported (h : Clean a) (r : Responder) (listening : Bool) :
    Reported md5 rebootOnSuccess a r listening := by
  cases hbegin : a.beginOk with
  | false =>
    refine ⟨0, refused md5 a ⟨r, listening, 0, []⟩, fun n _ => ?_, refused_reports hbegin rfl⟩
    rw [runSession, hbegin]
    rfl
  | true =>
    obtain hfalse | ⟨hconnect, ⟨n, hexit⟩, hclean⟩ := h
    · exact absurd (hbegin.symm.trans hfalse) (by decide)
    · obtain ⟨fuel, t, hends⟩ := @passLoop_ends md5 a _ 0 0
        (connected md5 a ⟨r, listening, 0, []⟩) (by rw [Nat.zero_add]; exact hexit)
      refine ⟨fuel, conclude md5 rebootOnSuccess a t, fun f hf => ?_,
        reports_of_quiet hbegin hconnect hclean rfl (hends fuel (Nat.le_refl _))⟩
      rw [runSession_begun hbegin, hends f hf]
      rfl

theorem Reports.silent {es : List Effect} (h : Reports a (conclude md5 rebootOnSuccess a t))
    (hes : t.trace = (connected md5 a s).trace ++ es) :
    ∀ e ∈ (connected md5 a s).trace ++ es, e.reports = false := by
  obtain ⟨fs, hfs, honce, -, -, -⟩ := @conclude_trace md5 rebootOnSuccess a t
  have hcount := h.once
  rw [hfs, hes, countP_append, honce] at hcount
  intro e he
  exact Bool.eq_false_iff.2 (countP_eq_zero.1 (Nat.add_right_cancel hcount) e he)

theorem Reported.clean {r : Responder} {listening : Bool}
    (h : Reported md5 rebootOnSuccess a r listening) : Clean a := by
  obtain ⟨fuel, s, hrun, hreports⟩ := h
  cases hbegin : a.beginOk with
  | false => exact .inl hbegin
  | true =>
    have hend := hrun fuel (Nat.le_refl _)
    rw [runSession_begun hbegin] at hend
    obtain ⟨t, hloop, rfl⟩ := Option.map_eq_some_iff.1 hend
    obtain ⟨⟨es, hes⟩, hexit⟩ := passLoop_extends hloop
    have hsilent := hreports.silent hes
    refine .inr ⟨?_, hexit, fun n hreached hstalls => ?_⟩
    · refine Bool.eq_true_of_not_eq_false fun hconnect => ?_
      have hfailed := @connected_failed md5 a ⟨r, listening, 0, []⟩ hconnect
      exact Bool.false_ne_true (hsilent _ (mem_append_left _ hfailed)).symm
    · obtain ⟨fs, hfs, -, hnot, -, -⟩ := @conclude_trace md5 rebootOnSuccess a t
      have hreceive := hreports.receive.2 ⟨n, hreached, hstalls⟩
      rw [hfs, hes, mem_append] at hreceive
      exact Bool.false_ne_true (hsilent _ (hreceive.resolve_right hnot)).symm

end

/-- **A session**, from any state of the responder: the run comes to its end and
reports it as it is meant, exactly where the update does not begin, or the
connection is made, comes to its end, and never stalls. -/
theorem reported_iff (md5 : Text → Text) (rebootOnSuccess : Bool) (a : Answers) (r : Responder)
    (listening : Bool) : Reported md5 rebootOnSuccess a r listening ↔ Clean a :=
  ⟨Reported.clean, fun h => h.reported r listening⟩

def unconnected : Answers where
  beginOk := true
  connectOk := false
  passes := fun _ => ⟨false, false, false, fun _ => false, 0⟩
  endOk := false
  errorText := []
  arrivals := fun _ => []

/-- The error callback is called for the connection, and again for the end. -/
theorem not_reported :
    ((runSession id true unconnected 1 ⟨Responder.init [], true, 0, []⟩).map
        fun s => s.trace.filter Effect.reports) =
      some [.errorCallback .OTA_CONNECT_ERROR, .errorCallback .OTA_END_ERROR] ∧
    ¬ Reported id true unconnected (Responder.init []) true := by
  refine ⟨by decide +kernel, fun h => ?_⟩
  obtain hbegin | ⟨hconnect, -⟩ := h.clean
  · cases hbegin
  · cases hconnect

end Ota
