import RalioFirmware.Ota.Responder

/-!
# Only authorized updates

Whatever anyone sends, an update begins only after an invitation and, as the
next datagram, the proof of the password for the nonce that answered it; and
it is that invitation's update.
-/

namespace Ota

open Http CString List

variable (md5 : Text → Text)

/-! ## One datagram at a time -/

/-- Between datagrams the chain holds at most the one that was read last. -/
def Inbox.Ready (u : Inbox) : Prop :=
  u.rx_buf = [] ∨ ∃ d, u.rx_buf = [d] ∧ u.first_buf_taken = true

theorem Inbox.Ready.next_recv {u : Inbox} (h : u.Ready) (d : Datagram) :
    (u.recv d).next = (true, ⟨[d], true, d.data⟩) := by
  obtain ⟨rx_buf, taken, unread⟩ := u
  rcases h with h | ⟨last, h, htaken⟩
  · obtain rfl : rx_buf = [] := h
    rfl
  · obtain rfl : rx_buf = [last] := h
    obtain rfl : taken = true := htaken
    rfl

def Inbox.Reading (d : Datagram) (u : Inbox) : Prop := u.rx_buf = [d] ∧ u.first_buf_taken = true

theorem Inbox.Reading.ready {d : Datagram} {u : Inbox} (h : u.Reading d) : u.Ready :=
  .inr ⟨d, h⟩

/-! ## What a datagram asks for -/

structure Invitation where
  size : Int
  cmd : Int
  md5 : Text
  address : Nat
  port : Nat
  udpPort : Nat

/-- The invitation in a datagram: a command for flash or file system, a port,
a size, and an MD5 of 32 characters up to the end of the line. -/
def invitation (d : Datagram) : Option Invitation :=
  let (cmd, unread) := parseInt d.data
  let (port, unread) := parseInt unread
  let (size, unread) := parseInt unread
  let md5 := (readStringUntil 10 (unread.drop 1)).1.trim
  if (cmd = U_FLASH ∨ cmd = U_FS) ∧ md5.length = 32 then
    some ⟨size, cmd, md5, d.remoteAddress, (port % 65536).toNat, d.remotePort⟩
  else none

/-- The datagram proves the password for a nonce: its response is the hash
of password, nonce and its own cnonce. -/
def Authenticates (md5 : Text → Text) (password nonce : Text) (d : Datagram) : Prop :=
  let (cmd, unread) := parseInt d.data
  let (cnonce, unread) := readStringUntil 32 (unread.drop 1)
  let response := (readStringUntil 10 unread).1
  cmd = U_AUTH ∧ response = md5 (password ++ text ":" ++ nonce ++ text ":" ++ cnonce)

def UpdateCall.Of (i : Invitation) : UpdateCall → Prop
  | .begin size cmd => size = i.size ∧ cmd = i.cmd
  | .setMD5 md5 => md5 = i.md5
  | .connect address port => address = i.address ∧ port = i.port

structure Responder.Holds (r : Responder) (i : Invitation) : Prop where
  size : r.size = i.size
  cmd : r.cmd = i.cmd
  md5 : r.md5 = i.md5
  address : r.ota_ip = i.address
  port : r.ota_port = i.port

theorem eq_of_equalsConstantTime {s s2 : Text} (h : equalsConstantTime s s2 = true) : s = s2 := by
  unfold equalsConstantTime at h
  split at h
  next => exact absurd h Bool.false_ne_true
  next hlen =>
    rw [ne_eq, Decidable.not_not] at hlen
    split at h
    next hzero =>
      exact (length_eq_zero_iff.1 hzero).trans
        (length_eq_zero_iff.1 (hlen.symm.trans hzero)).symm
    next =>
      simp only [Bool.and_eq_true, decide_eq_true_eq] at h
      have hcstr := (cstr_start s).length_le
      have hzip := @List.countP_le_length _ (fun p => decide (p.1 = p.2)) ((cstr s).zip s2)
      have hlength := @List.length_zip _ _ (cstr s) s2
      have hself : cstr s = s := (cstr_start s).eq_of_length (by omega)
      have hall := countP_eq_length.1 (h.1.trans (by rw [hlength, hself]; omega) :
        ((cstr s).zip s2).countP (fun p => decide (p.1 = p.2)) = ((cstr s).zip s2).length)
      rw [hself] at hall
      apply ext_getElem hlen
      intro i hi hi'
      have hmem : (s[i], s2[i]) ∈ s.zip s2 := by
        rw [← getElem_zip (h := by rw [length_zip]; omega)]
        exact getElem_mem _
      simpa using hall _ hmem

/-! ## What a datagram does -/

variable {r : Responder} (d : Datagram) (micros : Nat)

theorem receive_idle (hready : r.udp.Ready) (hidle : r.state = .OTA_IDLE)
    (hpass : r.password ≠ []) :
    (receive md5 d micros r).2.udp.Ready ∧ (receive md5 d micros r).2.password = r.password ∧
      match invitation d with
      | none => (receive md5 d micros r).2.state = .OTA_IDLE
      | some i => (receive md5 d micros r).2.state = .OTA_WAITAUTH ∧
          (receive md5 d micros r).2.Holds i ∧
          (receive md5 d micros r).2.nonce = md5 (decimal micros) ∧
          (receive md5 d micros r).1 =
            [⟨text "AUTH " ++ md5 (decimal micros), i.address, i.udpPort⟩] := by
  unfold receive onRx
  dsimp only
  rw [hready.next_recv d]
  dsimp only
  rw [hidle]
  dsimp only
  have hreading : Inbox.Reading d ⟨[d], true, d.data⟩ := ⟨rfl, rfl⟩
  unfold onInvitation invitation
  dsimp only
  by_cases hcmd : (parseInt d.data).1 ≠ U_FLASH ∧ (parseInt d.data).1 ≠ U_FS
  · rw [if_pos hcmd, if_neg (by rintro ⟨h | h, -⟩ <;> simp [h] at hcmd)]
    exact ⟨hreading.ready, rfl, rfl⟩
  · rw [if_neg hcmd]
    by_cases hlen : (readStringUntil 10 (((parseInt (parseInt (parseInt d.data).2).2).2).drop
        1)).1.trim.length = 32
    · have hcmd' : (parseInt d.data).1 = U_FLASH ∨ (parseInt d.data).1 = U_FS := by
        by_contra h
        rw [not_or] at h
        exact hcmd h
      have hpos : r.password.length ≠ 0 := fun h => hpass (length_eq_zero_iff.1 h)
      rw [if_neg (fun h => h hlen), if_pos hpos, if_pos ⟨hcmd', hlen⟩]
      exact ⟨hreading.ready, rfl, rfl, ⟨rfl, rfl, rfl, rfl, rfl⟩, rfl, rfl⟩
    · rw [if_pos hlen, if_neg fun h => hlen h.2]
      exact ⟨hreading.ready, rfl, rfl⟩

theorem receive_waiting (hready : r.udp.Ready) (hwait : r.state = .OTA_WAITAUTH) :
    (receive md5 d micros r).2.udp.Ready ∧ (receive md5 d micros r).2.password = r.password ∧
      ((receive md5 d micros r).2.state = .OTA_IDLE ∨
        ((receive md5 d micros r).2.state = .OTA_RUNUPDATE ∧
          Authenticates md5 r.password r.nonce d ∧
          ∀ i, r.Holds i → (receive md5 d micros r).2.Holds i)) := by
  unfold receive onRx
  dsimp only
  rw [hready.next_recv d]
  dsimp only
  rw [hwait]
  dsimp only
  have hreading : Inbox.Reading d ⟨[d], true, d.data⟩ := ⟨rfl, rfl⟩
  unfold onAuth Authenticates
  dsimp only
  by_cases hcmd : (parseInt d.data).1 = U_AUTH
  · rw [if_neg fun h => h hcmd]
    split
    next => exact ⟨hreading.ready, rfl, .inl rfl⟩
    next =>
      split
      next heq =>
        exact ⟨.inl rfl, rfl, .inr ⟨rfl, ⟨hcmd, (eq_of_equalsConstantTime heq).symm⟩,
          fun i hi => ⟨hi.size, hi.cmd, hi.md5, hi.address, hi.port⟩⟩⟩
      next => exact ⟨.inl rfl, rfl, .inl rfl⟩
  · rw [if_pos hcmd]
    exact ⟨hreading.ready, rfl, .inl rfl⟩

theorem receive_run (hready : r.udp.Ready) (hrun : r.state = .OTA_RUNUPDATE) :
    ∃ udp, udp.Ready ∧ (receive md5 d micros r).2 = { r with udp := udp } := by
  unfold receive onRx
  dsimp only
  rw [hready.next_recv d]
  dsimp only
  rw [hrun]
  exact ⟨_, .inl rfl, rfl⟩

/-! ## What stays between datagrams -/

/-- The inbox is ready for the next datagram, the password is the one set. -/
def Responder.Keeps (password : Text) (r : Responder) : Prop :=
  r.udp.Ready ∧ r.password = password

variable {password : Text}

theorem receive_keeps (hpass : password ≠ []) (h : r.Keeps password) :
    (receive md5 d micros r).2.Keeps password := by
  obtain ⟨hready, hpw⟩ := h
  cases hstate : r.state with
  | OTA_IDLE =>
    obtain ⟨hready', hpw', -⟩ := receive_idle md5 d micros hready hstate (hpw ▸ hpass)
    exact ⟨hready', hpw'.trans hpw⟩
  | OTA_WAITAUTH =>
    obtain ⟨hready', hpw', -⟩ := receive_waiting md5 d micros hready hstate
    exact ⟨hready', hpw'.trans hpw⟩
  | OTA_RUNUPDATE =>
    obtain ⟨udp, hready', heq⟩ := receive_run md5 d micros hready hstate
    rw [heq]
    exact ⟨hready', hpw⟩

theorem receiveAll_keeps (hpass : password ≠ []) (arrivals : List (Datagram × Nat))
    {r : Responder} (h : r.Keeps password) : (receiveAll md5 arrivals r).Keeps password := by
  induction arrivals generalizing r with
  | nil => exact h
  | cons arrival arrivals ih => exact ih (receive_keeps md5 _ _ hpass h)

theorem receiveLoop_keeps (hpass : password ≠ []) (arrivals : Nat → List (Datagram × Nat))
    (failed : List Bool) (n : Nat) {r : Responder} (h : r.Keeps password) :
    (receiveLoop md5 arrivals n failed r).Keeps password := by
  induction failed generalizing n r with
  | nil => exact h
  | cons f failed ih =>
    have hall := receiveAll_keeps md5 hpass (arrivals n) h
    unfold receiveLoop
    cases f with
    | false => exact ih (n + 1) hall
    | true => exact ih (n + 1) hall

theorem receiveAll_run (arrivals : List (Datagram × Nat)) {r : Responder} (hready : r.udp.Ready)
    (hrun : r.state = .OTA_RUNUPDATE) :
    ∃ udp, udp.Ready ∧ receiveAll md5 arrivals r = { r with udp := udp } := by
  induction arrivals generalizing r with
  | nil => exact ⟨r.udp, hready, rfl⟩
  | cons arrival arrivals ih =>
    obtain ⟨udp, hready', heq⟩ := receive_run md5 arrival.1 arrival.2 hready hrun
    have hcons : receiveAll md5 (arrival :: arrivals) r =
        receiveAll md5 arrivals { r with udp := udp } := by rw [← heq]; rfl
    rw [hcons]
    exact ih hready' hrun

theorem handle_run (env : UpdateEnv) (hpass : password ≠ []) {r : Responder}
    (h : r.Keeps password) (hrun : r.state = .OTA_RUNUPDATE) {i : Invitation} (hi : r.Holds i) :
    (∀ call ∈ (handle md5 env r).1, call.Of i) ∧ (handle md5 env r).2.state = .OTA_IDLE ∧
      (handle md5 env r).2.Keeps password := by
  obtain ⟨udp, -, hsame⟩ := receiveAll_run md5 (env.arrivals 0) h.1 hrun
  have hkeeps := receiveAll_keeps md5 hpass (env.arrivals 0) h
  unfold handle runUpdate
  rw [if_pos hrun]
  dsimp only
  split
  next =>
    refine ⟨fun call hcall => ?_, rfl, hkeeps⟩
    obtain rfl := mem_singleton.1 hcall
    exact ⟨hi.size, hi.cmd⟩
  next =>
    refine ⟨fun call hcall => ?_, rfl, ?_⟩
    · rw [hsame] at hcall
      simp only [mem_cons, not_mem_nil, or_false] at hcall
      rcases hcall with rfl | rfl | rfl
      · exact ⟨hi.size, hi.cmd⟩
      · exact hi.md5
      · exact ⟨hi.address, hi.port⟩
    · have hconnect := receiveAll_keeps md5 hpass (env.arrivals 1) hkeeps
      have hstate : ∀ r : Responder, r.Keeps password →
          (if env.connectOk then r else { r with state := .OTA_IDLE }).Keeps password := by
        intro r hr
        split <;> exact hr
      have hloop := receiveLoop_keeps md5 hpass env.arrivals env.failed 3 (hstate _ hconnect)
      split
      · exact receiveAll_keeps md5 hpass (env.arrivals 2) hloop
      · exact hloop

/-! ## Whole runs -/

def Event.IsHandle : Event → Prop
  | .handle _ => True
  | .datagram _ _ => False

def Event.IsDatagram : Event → Prop
  | .handle _ => False
  | .datagram _ _ => True

/-- The last datagram of the events invited an idle responder, which issued
the nonce for it. -/
def Pending (password : Text) (events : List Event) (nonce : Text) (i : Invitation) : Prop :=
  ∃ before d micros between, events = before ++ .datagram d micros :: between ∧
    (∀ e ∈ between, e.IsHandle) ∧ invitation d = some i ∧ nonce = md5 (decimal micros) ∧
    (receive md5 d micros (after md5 before (.init password))).1 =
      [⟨text "AUTH " ++ nonce, i.address, i.udpPort⟩]

/-- The events end with the proof of the password for a pending invitation,
and datagrams behind it. -/
def Authorized (password : Text) (events : List Event) (i : Invitation) : Prop :=
  ∃ before d micros later nonce, events = before ++ .datagram d micros :: later ∧
    Pending md5 password before nonce i ∧ Authenticates md5 password nonce d ∧
    ∀ e ∈ later, e.IsDatagram

/-- What the state of the responder says about the events so far. -/
structure Explained (password : Text) (events : List Event) (r : Responder) : Prop where
  keeps : r.Keeps password
  waiting : r.state = .OTA_WAITAUTH → ∃ i, Pending md5 password events r.nonce i ∧ r.Holds i
  due : r.state = .OTA_RUNUPDATE → ∃ i, Authorized md5 password events i ∧ r.Holds i

variable {md5} {events : List Event}

theorem explained_of_idle (hkeeps : r.Keeps password) (hidle : r.state = .OTA_IDLE) :
    Explained md5 password events r :=
  ⟨hkeeps, fun h => absurd (hidle.symm.trans h) (by decide),
    fun h => absurd (hidle.symm.trans h) (by decide)⟩

theorem Pending.handle {nonce : Text} {i : Invitation} (h : Pending md5 password events nonce i)
    (env : UpdateEnv) : Pending md5 password (events ++ [.handle env]) nonce i := by
  obtain ⟨before, d, micros, between, rfl, hbetween, hrest⟩ := h
  refine ⟨before, d, micros, between ++ [.handle env], by simp, ?_, hrest⟩
  intro e he
  rcases mem_append.1 he with he | he
  · exact hbetween e he
  · rw [mem_singleton.1 he]
    trivial

theorem Authorized.datagram {i : Invitation} (h : Authorized md5 password events i)
    (d : Datagram) (micros : Nat) :
    Authorized md5 password (events ++ [.datagram d micros]) i := by
  obtain ⟨before, d', micros', later, nonce, rfl, hpending, hauth, hlater⟩ := h
  refine ⟨before, d', micros', later ++ [.datagram d micros], nonce, by simp, hpending, hauth, ?_⟩
  intro e he
  rcases mem_append.1 he with he | he
  · exact hlater e he
  · rw [mem_singleton.1 he]
    trivial

theorem Explained.datagram (hpass : password ≠ [])
    (h : Explained md5 password events (after md5 events (.init password))) (d : Datagram)
    (micros : Nat) : Explained md5 password (events ++ [.datagram d micros])
      (receive md5 d micros (after md5 events (.init password))).2 := by
  generalize hr : after md5 events (.init password) = r at h ⊢
  have hkeeps := receive_keeps md5 d micros hpass h.keeps
  cases hs : r.state with
  | OTA_IDLE =>
    obtain ⟨-, -, hnext⟩ := receive_idle md5 d micros h.keeps.1 hs (h.keeps.2 ▸ hpass)
    cases hinv : invitation d with
    | none =>
      rw [hinv] at hnext
      exact explained_of_idle hkeeps hnext
    | some i =>
      rw [hinv] at hnext
      obtain ⟨hwait, hholds, hnonce, hreply⟩ := hnext
      refine ⟨hkeeps, fun _ => ⟨i, ⟨events, d, micros, [], rfl, ?_, hinv, hnonce, ?_⟩, hholds⟩,
        fun hrun => absurd (hwait.symm.trans hrun) (by decide)⟩
      · rintro e ⟨⟩
      · grind
  | OTA_WAITAUTH =>
    obtain ⟨i, hpending, hholds⟩ := h.waiting hs
    obtain ⟨-, -, hidle | ⟨hrun, hauth, hkeep⟩⟩ := receive_waiting md5 d micros h.keeps.1 hs
    · exact explained_of_idle hkeeps hidle
    · rw [h.keeps.2] at hauth
      refine ⟨hkeeps, fun hwait => absurd (hrun.symm.trans hwait) (by decide), fun _ =>
        ⟨i, ⟨events, d, micros, [], r.nonce, rfl, hpending, hauth, ?_⟩, hkeep i hholds⟩⟩
      rintro e ⟨⟩
  | OTA_RUNUPDATE =>
    obtain ⟨i, hauth, hholds⟩ := h.due hs
    obtain ⟨udp, -, heq⟩ := receive_run md5 d micros h.keeps.1 hs
    rw [heq] at hkeeps ⊢
    exact ⟨hkeeps, fun hwait => absurd (hs.symm.trans hwait) (by decide), fun _ =>
      ⟨i, hauth.datagram d micros,
        ⟨hholds.size, hholds.cmd, hholds.md5, hholds.address, hholds.port⟩⟩⟩

theorem Explained.handle (hpass : password ≠ []) (h : Explained md5 password events r)
    (env : UpdateEnv) :
    Explained md5 password (events ++ [.handle env]) (Ota.handle md5 env r).2 := by
  by_cases hs : r.state = .OTA_RUNUPDATE
  · obtain ⟨i, -, hholds⟩ := h.due hs
    obtain ⟨-, hidle, hkeeps⟩ := handle_run md5 env hpass h.keeps hs hholds
    exact explained_of_idle hkeeps hidle
  · have hsame : Ota.handle md5 env r = ([], r) := if_neg hs
    rw [hsame]
    refine ⟨h.keeps, fun hwait => ?_, fun hrun => absurd hrun hs⟩
    obtain ⟨i, hpending, hholds⟩ := h.waiting hwait
    exact ⟨i, hpending.handle env, hholds⟩

variable (md5)

theorem explained_after (hpass : password ≠ []) (events : List Event) :
    Explained md5 password events (after md5 events (.init password)) := by
  induction events using reverseRecOn with
  | nil => exact explained_of_idle ⟨.inl rfl, rfl⟩ rfl
  | append_singleton events e ih =>
    have hsnoc : after md5 (events ++ [e]) (.init password) =
        e.run md5 (after md5 events (.init password)) := by
      unfold after
      rw [Runs.after_append]
      rfl
    rw [hsnoc]
    cases e with
    | datagram d micros => exact ih.datagram hpass d micros
    | handle env => exact ih.handle hpass env

/-- **Authentication.**  In every run of a responder with a password, an
update is begun only where the datagrams before it end with an invitation of
the idle responder and, next, the proof of the password for the nonce issued
to it, and every call of the update is that invitation's.  While the
responder waits for the proof, any other datagram makes it idle again, and
nothing is begun. -/
theorem ota_authorized (md5 : Text → Text) (password : Text) (hpass : password ≠ [])
    (events : List Event) :
    (∀ env, (handle md5 env (after md5 events (.init password))).1 ≠ [] →
      ∃ i, Authorized md5 password events i ∧
        ∀ call ∈ (handle md5 env (after md5 events (.init password))).1, call.Of i) ∧
    ((after md5 events (.init password)).state = .OTA_WAITAUTH →
      ∃ nonce i, Pending md5 password events nonce i ∧
        ∀ d micros, ¬ Authenticates md5 password nonce d →
          (after md5 (events ++ [.datagram d micros]) (.init password)).state = .OTA_IDLE) := by
  have hexp := explained_after md5 hpass events
  constructor
  · intro env hne
    by_cases hs : (after md5 events (.init password)).state = .OTA_RUNUPDATE
    · obtain ⟨i, hauth, hholds⟩ := hexp.due hs
      exact ⟨i, hauth, (handle_run md5 env hpass hexp.keeps hs hholds).1⟩
    · exact absurd (congrArg Prod.fst (if_neg hs : Ota.handle md5 env _ = ([], _))) hne
  · intro hs
    obtain ⟨i, hpending, -⟩ := hexp.waiting hs
    refine ⟨_, i, hpending, fun d micros hother => ?_⟩
    have hsnoc : after md5 (events ++ [.datagram d micros]) (.init password) =
        (receive md5 d micros (after md5 events (.init password))).2 := by
      unfold after
      rw [Runs.after_append]
      rfl
    rw [hsnoc]
    obtain ⟨-, -, hidle | ⟨-, hauth, -⟩⟩ := receive_waiting md5 d micros hexp.keeps.1 hs
    · exact hidle
    · rw [hexp.keeps.2] at hauth
      exact absurd hauth hother

def firstCharacters (s : Text) : Text := (s ++ List.replicate 32 48).take 32

def sampleEvents : List Event :=
  [.datagram ⟨text "0 8266 100 0123456789abcdef0123456789abcdef\n", 7, 1234⟩ 5,
    .datagram ⟨text "200 fedcba9876543210fedcba9876543210 " ++
      firstCharacters (text "ab:" ++ firstCharacters (decimal 5)) ++ text "\n", 9, 4321⟩ 6]

theorem ota_authorized_sample :
    ∃ i, Authorized firstCharacters (text "ab") sampleEvents i ∧
      .connect 7 8266 = UpdateCall.connect i.address i.port := by
  have hne : (handle firstCharacters ⟨true, true, true, [], fun _ => []⟩
      (after firstCharacters sampleEvents (.init (text "ab")))).1 =
      [.begin 100 0, .setMD5 (text "0123456789abcdef0123456789abcdef"), .connect 7 8266] := by
    decide +kernel
  obtain ⟨i, hauth, hcalls⟩ := (ota_authorized firstCharacters (text "ab") (by decide +kernel)
    sampleEvents).1 ⟨true, true, true, [], fun _ => []⟩ (by rw [hne]; simp)
  rw [hne] at hcalls
  obtain ⟨haddress, hport⟩ := hcalls (.connect 7 8266) (by simp)
  exact ⟨i, hauth, by rw [haddress, hport]⟩

end Ota
