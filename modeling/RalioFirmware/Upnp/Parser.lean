import RalioFirmware.Basis.CString
import RalioFirmware.Basis.Store

/-!
# The parser of SSDP requests

`_update` takes a datagram byte by byte through a state machine with one array
for the words of the request: the method, the URI, and the names and the values
of the headers.  A word ends with a NUL behind its last byte, and what the array
held of a longer one stays behind it.

`Reader` is the machine without the array, with the word in it as a list;
`bytes_refine` says that the parser is that machine and writes inside its array.
-/

namespace Ssdp

open CString Bytes List

/-! ## The parser -/

inductive Method where
  | NONE
  | SEARCH
  | NOTIFY
deriving DecidableEq

inductive States where
  | METHOD
  | URI
  | PROTO
  | KEY
  | VALUE
  | ABORT
deriving DecidableEq

inductive Headers where
  | START
  | MAN
  | ST
  | MX
deriving DecidableEq

def SSDP_METHOD_SIZE : Nat := 10
def SSDP_URI_SIZE : Nat := 2
def SSDP_BUFFER_SIZE : Nat := 64

def mSearch : List UInt8 := [77, 45, 83, 69, 65, 82, 67, 72]

def ssdpAll : List UInt8 := [115, 115, 100, 112, 58, 97, 108, 108]

def strcasecmp (s t : List UInt8) : Int := strcmp (s.map tolower) (t.map tolower)

def strncmp (s t : List UInt8) (n : Nat) : Int := strcmp (s.take n) (t.take n)

/-- What the parser knows of the device: `_deviceType` and `_uuid`. -/
structure Device where
  deviceType : List UInt8
  uuid : List UInt8

/-- The fields of `SSDPClass` that a request changes. -/
structure SSDPClass where
  pending : Bool
  st_is_uuid : Bool
  delay : Nat
  process_time : Nat
  notify_time : Nat
  respondTo : Nat × Nat

structure Parser where
  method : Method
  state : States
  header : Headers
  cursor : Nat
  cr : Nat
  buffer : List UInt8

/-- A byte that is read, with the answers that `millis` and `random` give there. -/
structure Received where
  c : UInt8
  millis : Nat
  random : Int → Int → Int

def isEol (c : UInt8) : Bool := c = 13 || c = 10

/-- `buffer[cursor++] = c; buffer[cursor] = 0` while the cursor is below a limit;
nothing comes of a write outside. -/
def put (limit : Nat) (c : UInt8) (p : Parser) : Option Parser :=
  if p.cursor < limit - 1 then
    (store p.buffer p.cursor c).bind fun buffer =>
      (store buffer (p.cursor + 1) 0).map fun buffer =>
        { p with buffer := buffer, cursor := p.cursor + 1 }
  else some p

def headerOf (buffer : List UInt8) : Headers :=
  if strncmp buffer [77, 65] 2 = 0 then .MAN
  else if strcmp buffer [83, 84] = 0 then .ST
  else if strcmp buffer [77, 88] = 0 then .MX
  else .START

def endValue (dev : Device) (r : Received) (p : Parser) (s : SSDPClass) : Parser × SSDPClass :=
  let (p, s) := match p.header with
    | .START => (p, s)
    | .MAN => (p, s)
    | .ST =>
      let (p, s) :=
        if strcmp p.buffer ssdpAll ≠ 0 then ({ p with state := .ABORT }, s)
        else (p, { s with st_is_uuid := false })
      let (p, s) :=
        if strcasecmp p.buffer dev.deviceType = 0 then
          ({ p with state := .KEY },
            { s with pending := true, st_is_uuid := false, process_time := r.millis })
        else (p, s)
      if strcasecmp p.buffer dev.uuid = 0 then
        ({ p with state := .KEY },
          { s with pending := true, st_is_uuid := true, process_time := r.millis })
      else (p, s)
    | .MX => (p, { s with delay := (r.random 0 (atol p.buffer) * 1000 % 65536).toNat })
  if p.state ≠ .ABORT then ({ p with state := .KEY, header := .START, cursor := 0 }, s)
  else (p, s)

def step (dev : Device) (r : Received) (p : Parser) (s : SSDPClass) :
    Option (Parser × SSDPClass) :=
  let p := { p with cr := if isEol r.c then (p.cr + 1) % 256 else 0 }
  match p.state with
  | .METHOD =>
    if r.c = 32 then
      let method := if strcmp p.buffer mSearch = 0 then .SEARCH else p.method
      some ({ p with
        method := method
        state := if method = .NONE then .ABORT else .URI
        cursor := 0 }, s)
    else (put SSDP_METHOD_SIZE r.c p).map (·, s)
  | .URI =>
    if r.c = 32 then
      some ({ p with state := if strcmp p.buffer [42] ≠ 0 then .ABORT else .PROTO, cursor := 0 }, s)
    else (put SSDP_URI_SIZE r.c p).map (·, s)
  | .PROTO => some (if p.cr = 2 then { p with state := .KEY, cursor := 0 } else p, s)
  | .KEY =>
    if p.cr = 4 then some (p, { s with pending := true, process_time := r.millis })
    else if r.c = 32 then some ({ p with cursor := 0, state := .VALUE }, s)
    else if r.c ≠ 13 ∧ r.c ≠ 10 ∧ r.c ≠ 58 then (put SSDP_BUFFER_SIZE r.c p).map (·, s)
    else some (p, s)
  | .VALUE =>
    if p.cr = 2 then some (endValue dev r p s)
    else if r.c ≠ 13 ∧ r.c ≠ 10 then
      let header := if p.header = .START then headerOf p.buffer else p.header
      (put SSDP_BUFFER_SIZE r.c { p with header := header }).map (·, s)
    else some (p, s)
  | .ABORT => some (p, { s with pending := false, delay := 0 })

def run (dev : Device) : List Received → Parser → SSDPClass → Option (Parser × SSDPClass)
  | [], p, s => some (p, s)
  | r :: rest, p, s => (step dev r p s).bind fun (p, s) => run dev rest p s

def Parser.start : Parser := ⟨.NONE, .METHOD, .START, 0, 0, List.replicate SSDP_BUFFER_SIZE 0⟩

structure Datagram where
  bytes : List Received
  remote : Nat × Nat

def parse (dev : Device) (d : Datagram) (s : SSDPClass) : Option SSDPClass :=
  (run dev d.bytes .start { s with respondTo := d.remote }).map Prod.snd

/-- What `millis` gives behind the loop: for the reply, for the notification, and
where that is noted. -/
structure Clock where
  reply : Nat
  notify : Nat
  noted : Nat

/-- What is sent: a reply names the UUID or the device type as its `ST`. -/
inductive Sent where
  | reply (remote : Nat × Nat) (st_is_uuid : Bool)
  | notify

def SSDPClass.replyDue (clock : Clock) (s : SSDPClass) : Bool :=
  s.pending && decide (Word.sub32 clock.reply s.process_time > s.delay)

def SSDPClass.notifyDue (interval : Nat) (clock : Clock) (s : SSDPClass) : Bool :=
  s.notify_time = 0 || decide (Word.sub32 clock.notify s.notify_time > Word.u32 (interval * 1000))

/-- The part of `_update` behind the loop. -/
def conclude (interval : Nat) (clock : Clock) (s : SSDPClass) : SSDPClass × Option Sent :=
  if s.replyDue clock then
    ({ s with pending := false, delay := 0 }, some (.reply s.respondTo s.st_is_uuid))
  else if s.notifyDue interval clock then
    ({ s with notify_time := clock.noted, st_is_uuid := false }, some .notify)
  else (s, none)

/-- `_update`, with the datagram that `next` comes to. -/
def update (dev : Device) (interval : Nat) (received : Option Datagram) (clock : Clock)
    (s : SSDPClass) : Option (SSDPClass × Option Sent) :=
  let parsed := match received with
    | some d => if s.pending then some s else parse dev d s
    | none => some s
  parsed.map (conclude interval clock)

/-- The first reply that calls of `_update` send. -/
def firstReply (dev : Device) (interval : Nat) :
    List (Option Datagram × Clock) → SSDPClass → Option Bool
  | [], _ => none
  | (received, clock) :: later, s =>
    match update dev interval received clock s with
    | some (_, some (.reply _ st_is_uuid)) => some st_is_uuid
    | some (s, _) => firstReply dev interval later s
    | none => none

/-! ## The reader -/

structure Reader where
  state : States
  header : Headers
  cursor : Nat
  cr : Nat
  text : List UInt8
  pending : Bool
  uuid : Bool

def Reader.start (uuid : Bool) : Reader := ⟨.METHOD, .START, 0, 0, [], false, uuid⟩

def Reader.put (limit : Nat) (c : UInt8) (r : Reader) : Reader :=
  if r.cursor < limit - 1 then
    { r with text := r.text.take r.cursor ++ [c], cursor := r.cursor + 1 }
  else r

def Same (s t : List UInt8) : Prop := (cstr s).map tolower = (cstr t).map tolower

instance (s t : List UInt8) : Decidable (Same s t) := inferInstanceAs (Decidable (_ = _))

def Device.Matches (dev : Device) (t : List UInt8) : Prop :=
  Same t dev.deviceType ∨ Same t dev.uuid

instance (dev : Device) (t : List UInt8) : Decidable (dev.Matches t) :=
  inferInstanceAs (Decidable (_ ∨ _))

def Device.Accepts (dev : Device) (t : List UInt8) : Prop := cstr t = ssdpAll ∨ dev.Matches t

instance (dev : Device) (t : List UInt8) : Decidable (dev.Accepts t) :=
  inferInstanceAs (Decidable (_ ∨ _))

def kindOf (t : List UInt8) : Headers :=
  if (cstr t).take 2 = [77, 65] then .MAN
  else if cstr t = [83, 84] then .ST
  else if cstr t = [77, 88] then .MX
  else .START

def Reader.close (dev : Device) (r : Reader) : Reader :=
  if r.header = .ST then
    if dev.Accepts r.text then
      { r with
        state := .KEY
        header := .START
        cursor := 0
        pending := r.pending || dev.Matches r.text
        uuid := Same r.text dev.uuid }
    else { r with state := .ABORT }
  else { r with state := .KEY, header := .START, cursor := 0 }

def Reader.step (dev : Device) (r : Reader) (c : UInt8) : Reader :=
  let r := { r with cr := if isEol c then (r.cr + 1) % 256 else 0 }
  match r.state with
  | .METHOD =>
    if c = 32 then
      { r with state := if cstr r.text = mSearch then .URI else .ABORT, cursor := 0 }
    else r.put SSDP_METHOD_SIZE c
  | .URI =>
    if c = 32 then { r with state := if cstr r.text = [42] then .PROTO else .ABORT, cursor := 0 }
    else r.put SSDP_URI_SIZE c
  | .PROTO => if r.cr = 2 then { r with state := .KEY, cursor := 0 } else r
  | .KEY =>
    if r.cr = 4 then { r with pending := true }
    else if c = 32 then { r with cursor := 0, state := .VALUE }
    else if isEol c = false ∧ c ≠ 58 then r.put SSDP_BUFFER_SIZE c
    else r
  | .VALUE =>
    if r.cr = 2 then r.close dev
    else if isEol c = false then
      let header := if r.header = .START then kindOf r.text else r.header
      Reader.put SSDP_BUFFER_SIZE c { r with header := header }
    else r
  | .ABORT => { r with pending := false }

def Reader.run (dev : Device) (d : List UInt8) (r : Reader) : Reader := d.foldl (Reader.step dev) r

/-! ## The array -/

theorem strcmp_const {s t : List UInt8} (h : (0 : UInt8) ∉ t) : strcmp s t = 0 ↔ cstr s = t := by
  rw [strcmp_eq_zero_iff, cstr_eq_self h]

theorem cstr_map_tolower (s : List UInt8) : cstr (s.map tolower) = (cstr s).map tolower := by
  have hzero : ∀ b : UInt8, tolower b = 0 ↔ b = 0 := by
    intro b
    unfold tolower
    grind
  rw [cstr, cstr, takeWhile_map]
  congr 2
  funext b
  exact decide_eq_decide.2 (not_congr (hzero b))

theorem strcasecmp_iff (s t : List UInt8) : strcasecmp s t = 0 ↔ Same s t := by
  rw [strcasecmp, strcmp_eq_zero_iff, cstr_map_tolower, cstr_map_tolower, Same]

theorem cstr_take (s : List UInt8) (n : Nat) : cstr (s.take n) = (cstr s).take n := by
  induction s generalizing n with
  | nil => simp
  | cons b rest ih =>
    rcases n with _ | n
    · rfl
    · rw [take_succ_cons]
      by_cases hb : b = 0
      · rw [hb, cstr_zero, cstr_zero, take_nil]
      · rw [cstr_cons hb, cstr_cons hb, take_succ_cons, ih]

theorem headerOf_eq (buffer : List UInt8) : headerOf buffer = kindOf buffer := by
  rw [headerOf, kindOf, strncmp]
  refine if_congr ?_ rfl (if_congr ?_ rfl (if_congr ?_ rfl rfl))
  · rw [strcmp_const (by decide), cstr_take]
    rfl
  · exact strcmp_const (by decide)
  · exact strcmp_const (by decide)

structure Holds (buffer : List UInt8) (cursor : Nat) (text : List UInt8) : Prop where
  room : buffer.length = SSDP_BUFFER_SIZE
  word : buffer.take text.length = text
  nul : buffer[text.length]? = some 0
  cursor_le : cursor ≤ text.length

theorem Holds.cstr_eq {buffer text : List UInt8} {cursor : Nat} (h : Holds buffer cursor text) :
    cstr buffer = cstr text := by
  rw [cstr_of_terminated h.nul, h.word]

theorem kindOf_congr {s t : List UInt8} (h : cstr s = cstr t) : kindOf s = kindOf t := by
  rw [kindOf, kindOf, h]

theorem same_congr {s s' : List UInt8} (h : cstr s = cstr s') (t : List UInt8) :
    Same s t ↔ Same s' t := by
  rw [Same, Same, h]

/-- **A byte that is stored** stays inside the array. -/
theorem Holds.put {buffer text : List UInt8} {cursor : Nat} (h : Holds buffer cursor text)
    (c : UInt8) (hlimit : cursor < SSDP_BUFFER_SIZE - 1) :
    ∃ buffer', ((store buffer cursor c).bind fun buffer => store buffer (cursor + 1) 0) =
        some buffer' ∧ Holds buffer' (cursor + 1) (text.take cursor ++ [c]) := by
  have hroom : buffer.length = 64 := h.room
  have hcursor : cursor + 1 < 64 := Nat.add_lt_of_lt_sub hlimit
  have hlen : (text.take cursor ++ [c]).length = cursor + 1 := by
    rw [length_append, length_take_of_le h.cursor_le]
    rfl
  have htake : buffer.take cursor = text.take cursor := by
    have htext := congrArg (take cursor) h.word
    rwa [take_take, Nat.min_eq_left h.cursor_le] at htext
  refine ⟨(buffer.set cursor c).set (cursor + 1) 0, ?_, ?_, ?_, ?_, ?_⟩
  · rw [store_bind, if_pos (by omega), store, if_pos (by rw [length_set]; omega)]
  · rw [length_set, length_set]
    exact hroom
  · rw [hlen, take_set_of_le (Nat.le_refl _),
      take_succ_eq_append_getElem (by simp; omega),
      take_set_of_le (Nat.le_refl _), htake, getElem_set_self]
  · rw [hlen, getElem?_set_self (by rw [length_set]; omega)]
  · rw [hlen]

/-! ## The parser and the reader -/

structure Refines (p : Parser) (s : SSDPClass) (r : Reader) : Prop where
  method : r.state = .METHOD → p.method = .NONE
  state : p.state = r.state
  header : p.header = r.header
  cursor : p.cursor = r.cursor
  cr : p.cr = r.cr
  holds : Holds p.buffer r.cursor r.text
  pending : s.pending = r.pending
  uuid : s.st_is_uuid = r.uuid

variable {dev : Device} {p : Parser} {s : SSDPClass} {r : Reader} {b : Received}

theorem put_refines (h : Refines p s r) {limit : Nat} (hlimit : limit ≤ SSDP_BUFFER_SIZE)
    (c : UInt8) :
    ∃ p' s', (put limit c p).map (·, s) = some (p', s') ∧ Refines p' s' (r.put limit c) := by
  rw [put, Reader.put, h.cursor]
  split
  · rename_i hcursor
    obtain ⟨buffer, hstore, hholds⟩ := h.holds.put c (by omega)
    obtain ⟨first, hfirst, hsecond⟩ := Option.bind_eq_some_iff.1 hstore
    rw [hfirst, Option.bind_some, hsecond]
    exact ⟨_, _, rfl, h.method, h.state, h.header, rfl, h.cr, hholds, h.pending, h.uuid⟩
  · exact ⟨p, s, rfl, h⟩

/-- **The end of a header** other than `ST`. -/
theorem endValue_other (hstate : p.state = .VALUE) (hheader : p.header ≠ .ST) :
    ∃ delay, endValue dev b p s =
      ({ p with state := .KEY, header := .START, cursor := 0 }, { s with delay := delay }) := by
  rw [endValue.eq_def]
  cases hcase : p.header with
  | START => exact ⟨s.delay, by simp [hstate]⟩
  | MAN => exact ⟨s.delay, by simp [hstate]⟩
  | ST => exact absurd hcase hheader
  | MX => exact ⟨_, by simp [hstate]; rfl⟩

/-- **The end of a header `ST`.** -/
theorem endValue_st (hstate : p.state = .VALUE) (hheader : p.header = .ST) :
    ∃ time, endValue dev b p s =
      if strcasecmp p.buffer dev.uuid = 0 then
        ({ p with state := .KEY, header := .START, cursor := 0 },
          { s with pending := true, st_is_uuid := true, process_time := time })
      else if strcasecmp p.buffer dev.deviceType = 0 then
        ({ p with state := .KEY, header := .START, cursor := 0 },
          { s with pending := true, st_is_uuid := false, process_time := time })
      else if strcmp p.buffer ssdpAll = 0 then
        ({ p with state := .KEY, header := .START, cursor := 0 }, { s with st_is_uuid := false })
      else ({ p with state := .ABORT }, s) := by
  refine ⟨b.millis, ?_⟩
  rw [endValue.eq_def, hheader]
  dsimp only
  by_cases huuid : strcasecmp p.buffer dev.uuid = 0
  · grind
  · grind

theorem endValue_refines (h : Refines p s r) (hstate : r.state = .VALUE) :
    ∃ p' s', endValue dev b p s = (p', s') ∧ Refines p' s' (r.close dev) := by
  have hword := h.holds.cstr_eq
  have hsame : ∀ t, strcasecmp p.buffer t = 0 ↔ Same r.text t := fun t =>
    (strcasecmp_iff _ _).trans (same_congr hword t)
  have hall : strcmp p.buffer ssdpAll = 0 ↔ cstr r.text = ssdpAll := by
    rw [strcmp_const (by decide), hword]
  have hclosed : Holds p.buffer 0 r.text :=
    ⟨h.holds.room, h.holds.word, h.holds.nul, Nat.zero_le _⟩
  have hp : p.state = .VALUE := h.state.trans hstate
  have hmethod : ∀ state, state ≠ States.METHOD → state = .METHOD → p.method = .NONE :=
    fun state hne heq => absurd heq hne
  rw [Reader.close]
  by_cases hst : r.header = .ST
  · obtain ⟨time, hend⟩ := @endValue_st dev p s b hp (h.header.trans hst)
    rw [if_pos hst]
    by_cases huuid : Same r.text dev.uuid
    · rw [if_pos ((hsame _).2 huuid)] at hend
      rw [if_pos (.inr (.inr huuid))]
      exact ⟨_, _, hend, hmethod .KEY (by decide), rfl, rfl, rfl, h.cr, hclosed,
        by simp [Device.Matches, huuid], by simp [huuid]⟩
    · rw [if_neg (mt (hsame _).1 huuid)] at hend
      by_cases htype : Same r.text dev.deviceType
      · rw [if_pos ((hsame _).2 htype)] at hend
        rw [if_pos (.inr (.inl htype))]
        exact ⟨_, _, hend, hmethod .KEY (by decide), rfl, rfl, rfl, h.cr, hclosed,
          by simp [Device.Matches, htype], by simp [huuid]⟩
      · rw [if_neg (mt (hsame _).1 htype)] at hend
        by_cases hcall : cstr r.text = ssdpAll
        · rw [if_pos (hall.2 hcall)] at hend
          rw [if_pos (.inl hcall)]
          exact ⟨_, _, hend, hmethod .KEY (by decide), rfl, rfl, rfl, h.cr, hclosed,
            by simp [Device.Matches, htype, huuid, h.pending], by simp [huuid]⟩
        · rw [if_neg (mt hall.1 hcall)] at hend
          rw [if_neg (fun haccepts : dev.Accepts r.text =>
            haccepts.elim hcall fun hmatches => hmatches.elim htype huuid)]
          exact ⟨_, _, hend, hmethod .ABORT (by decide), rfl, h.header, h.cursor, h.cr, h.holds,
            h.pending, h.uuid⟩
  · obtain ⟨delay, hend⟩ := @endValue_other dev p s b hp (fun heq => hst (h.header ▸ heq))
    rw [if_neg hst]
    exact ⟨_, _, hend, hmethod .KEY (by decide), rfl, rfl, rfl, h.cr, hclosed, h.pending, h.uuid⟩

theorem Refines.goto (h : Refines p s r) (method : Method) {state : States}
    (hstate : state ≠ .METHOD) :
    Refines { p with method := method, state := state, cursor := 0 } s
      { r with state := state, cursor := 0 } where
  method := fun heq => absurd heq hstate
  state := rfl
  header := h.header
  cursor := rfl
  cr := h.cr
  holds := ⟨h.holds.room, h.holds.word, h.holds.nul, Nat.zero_le _⟩
  pending := h.pending
  uuid := h.uuid

/-- **One byte**: the parser goes on as the reader does. -/
theorem step_refines (h : Refines p s r) :
    ∃ p' s', step dev b p s = some (p', s') ∧ Refines p' s' (r.step dev b.c) := by
  obtain ⟨method, state, header, cursor, cr, buffer⟩ := p
  obtain ⟨state', header', cursor', cr', text, pending, uuid⟩ := r
  obtain ⟨hmethod, hstate, hheader, hcursor, hcr, hholds, hpending, huuid⟩ := h
  dsimp only at hmethod hstate hheader hcursor hcr hholds hpending huuid
  subst hstate hheader hcursor hcr
  have hword := hholds.cstr_eq
  have heol : (b.c ≠ 13 ∧ b.c ≠ 10) ↔ isEol b.c = false := by
    simp [isEol]
  rw [step, Reader.step]
  generalize (if isEol b.c then (cr + 1) % 256 else 0) = cr
  have hcounted : Refines ⟨method, state, header, cursor, cr, buffer⟩ s
      ⟨state, header, cursor, cr, text, pending, uuid⟩ :=
    ⟨hmethod, rfl, rfl, rfl, rfl, hholds, hpending, huuid⟩
  cases state with
  | METHOD =>
    dsimp only
    obtain rfl := hmethod rfl
    by_cases hblank : b.c = 32
    · rw [if_pos hblank, if_pos hblank]
      have hm : strcmp buffer mSearch = 0 ↔ cstr text = mSearch := by
        rw [strcmp_const (by decide), hword]
      by_cases hsearch : cstr text = mSearch
      · rw [if_pos (hm.2 hsearch), if_pos hsearch]
        exact ⟨_, _, rfl, hcounted.goto .SEARCH (by decide)⟩
      · rw [if_neg (mt hm.1 hsearch), if_neg hsearch]
        exact ⟨_, _, rfl, hcounted.goto .NONE (by decide)⟩
    · rw [if_neg hblank, if_neg hblank]
      exact put_refines hcounted (by decide) _
  | URI =>
    dsimp only
    by_cases hblank : b.c = 32
    · rw [if_pos hblank, if_pos hblank]
      have hu : strcmp buffer [42] = 0 ↔ cstr text = [42] := by
        rw [strcmp_const (by decide), hword]
      by_cases hstar : cstr text = [42]
      · rw [if_neg (not_not.2 (hu.2 hstar)), if_pos hstar]
        exact ⟨_, _, rfl, hcounted.goto method (by decide)⟩
      · rw [if_pos (mt hu.1 hstar), if_neg hstar]
        exact ⟨_, _, rfl, hcounted.goto method (by decide)⟩
    · rw [if_neg hblank, if_neg hblank]
      exact put_refines hcounted (by decide) _
  | PROTO =>
    dsimp only
    refine ⟨_, _, rfl, ?_⟩
    split
    · exact hcounted.goto method (by decide)
    · exact hcounted
  | KEY =>
    dsimp only
    by_cases hempty : cr = 4
    · rw [if_pos hempty, if_pos hempty]
      exact ⟨_, _, rfl, hmethod, rfl, rfl, rfl, rfl, hholds, rfl, huuid⟩
    · rw [if_neg hempty, if_neg hempty]
      by_cases hblank : b.c = 32
      · rw [if_pos hblank, if_pos hblank]
        exact ⟨_, _, rfl, hcounted.goto method (by decide)⟩
      · rw [if_neg hblank, if_neg hblank]
        by_cases hkey : isEol b.c = false ∧ b.c ≠ 58
        · rw [if_pos hkey, if_pos ⟨(heol.2 hkey.1).1, (heol.2 hkey.1).2, hkey.2⟩]
          exact put_refines hcounted (by decide) _
        · grind
  | VALUE =>
    dsimp only
    by_cases hend : cr = 2
    · rw [if_pos hend, if_pos hend]
      obtain ⟨p', s', heq, hrefines⟩ := @endValue_refines dev _ _ _ b hcounted rfl
      exact ⟨p', s', congrArg some heq, hrefines⟩
    · rw [if_neg hend, if_neg hend]
      by_cases hvalue : isEol b.c = false
      · rw [if_pos hvalue, if_pos (heol.2 hvalue), headerOf_eq, kindOf_congr hword]
        exact put_refines ⟨hmethod, rfl, rfl, rfl, rfl, hholds, hpending, huuid⟩ (by decide) _
      · grind
  | ABORT => exact ⟨_, _, rfl, hmethod, rfl, rfl, rfl, rfl, hholds, rfl, huuid⟩

/-- **The parser writes inside its array**, and goes on as the reader does. -/
theorem bytes_refine (dev : Device) (received : List Received) (h : Refines p s r) :
    ∃ p' s', run dev received p s = some (p', s') ∧
      Refines p' s' (r.run dev (received.map Received.c)) := by
  induction received generalizing p s r with
  | nil => exact ⟨p, s, rfl, h⟩
  | cons b rest ih =>
    obtain ⟨p', s', hstep, hnext⟩ := @step_refines dev p s r b h
    rw [run, hstep, Option.bind_some]
    exact ih hnext

end Ssdp
