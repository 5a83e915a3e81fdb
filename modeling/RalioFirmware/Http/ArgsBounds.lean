import RalioFirmware.Http.Form

/-!
# Indices of request arguments

Over the requests that a server serves, its arrays have room for what the counters say,
and for the body behind it, with two exceptions: a form with more fields than its array
has elements, and the body of an earlier request, which is still counted behind the
arguments of a form.
-/

namespace Http

open CString Runs List

/-- A server and how it stands: it runs, or it has come to a halt. -/
structure World where
  server : Server
  status : Option Halt

inductive Action
  | serve (r : Request)
  | ask (q : Server.Query)

namespace World

def init : World := ⟨.init, none⟩

def step (a : Action) (w : World) : World :=
  match w.status with
  | some _ => w
  | none =>
    match a with
    | .serve r =>
      match w.server.parseRequest r with
      | .ok (_, server) => ⟨server, none⟩
      | .error e => { w with status := some e }
    | .ask q =>
      match w.server.ask q with
      | .ok _ => w
      | .error e => { w with status := some e }

end World

/-! ## When the indices are right -/

/-- The fields of a form, up to its end or to where it is given up. -/
def fieldsOf (boundary : Text) : Nat → List Event → Nat
  | 0, _ => 0
  | fuel + 1, events =>
    match readPart boundary events with
    | .error _ => 0
    | .ok (.other, events) => fieldsOf boundary fuel events
    | .ok (.field _ _ last, events) => 1 + if last then 0 else fieldsOf boundary fuel events
    | .ok (.file _ _ _ whole _ last, events) =>
      if whole && !last then fieldsOf boundary fuel events else 0

/-- The fields that the server comes to read of a request. -/
def Request.fields (r : Request) : Nat :=
  if r.hasBody && r.isForm then
    match parseArgumentsPrivate nullArgHandler (Server.searchOf r []) (),
        Server.firstLine 3 r.events with
    | .ok _, .ok (line, events) =>
      if line.equals (text "--" ++ r.boundaryStr) then
        fieldsOf r.boundaryStr (events.length + 1) events
      else 0
    | _, _ => 0
  else 0

/-- The arguments are those of a form, and the body of an earlier request is counted behind
them. -/
def Server.Overcounts (s : Server) : Prop :=
  s.currentArgs.map List.length = some s.currentArgCount ∧ s.currentArgsHavePlain ≠ 0

/-- What is asked for comes before the end of the arguments. -/
def Server.Query.Before (s : Server) : Server.Query → Prop
  | .arg i | .argName i => i ≠ s.currentArgCount
  | .argNamed name | .hasArg name => ∃ a ∈ s.currentArgs.getD [], a.named name = true
  | .args => True

/-- A form has no more fields than there is room for; and where the body of an earlier request
is counted behind the arguments of a form, nothing is asked that leads to their end. -/
def World.Fits (a : Action) (w : World) : Prop :=
  w.status = none → match a with
  | .serve r => r.fields ≤ maxPostArgs
  | .ask q => w.server.Overcounts → q.Before w.server

/-! ## Arrays -/

section

variable {as : List RequestArgument} {i n : Nat} {name : Text}

theorem load_of_lt (h : i < as.length) : load (some as) i = .ok as[i] := by
  rw [load, Option.bind_some, getElem?_eq_getElem h]

theorem load_of_ge (h : as.length ≤ i) : load (some as) i = .error .outOfBounds := by
  rw [load, Option.bind_some, getElem?_eq_none h]

theorem store_of_lt (h : i < as.length) (a : RequestArgument) :
    store (some as) i a = .ok (some (as.set i a)) := if_pos h

theorem search_of_le (h : i + n ≤ as.length) :
    search (some as) name n i =
      .ok (((as.drop i).take n).find? (RequestArgument.named name)) := by
  induction n generalizing i with
  | zero => rw [take_zero]; rfl
  | succ n ih =>
    have hi : i < as.length := by omega
    rw [search, load_of_lt hi, drop_eq_getElem_cons hi, take_succ_cons]
    simp only [bind, Except.bind, pure, Except.pure]
    by_cases hkey : as[i].named name = true
    · rw [if_pos hkey, find?_cons_of_pos hkey]
    · rw [if_neg hkey, find?_cons_of_neg hkey, ih (by omega)]

theorem search_succ (h : i + n = as.length) :
    search (some as) name (n + 1) i =
      match (as.drop i).find? (RequestArgument.named name) with
      | some a => .ok (some a)
      | none => .error .outOfBounds := by
  induction n generalizing i with
  | zero =>
    rw [search, load_of_ge (by omega), drop_eq_nil_of_le (by omega)]
    rfl
  | succ n ih =>
    have hi : i < as.length := by omega
    rw [search, load_of_lt hi, drop_eq_getElem_cons hi]
    simp only [bind, Except.bind, pure, Except.pure]
    by_cases hkey : as[i].named name = true
    · rw [if_pos hkey, find?_cons_of_pos hkey]
    · rw [if_neg hkey, find?_cons_of_neg hkey, ih (by omega)]

end

/-! ## The arguments of a text -/

section

variable {data : Text}

theorem indexOf_cases {ch : UInt8} (hch : ch ≠ 0) (pos : Nat) :
    data.indexOf ch pos = -1 ∨
      ∃ i : Nat, data.indexOf ch pos = i ∧ pos ≤ i ∧ i < data.length := by
  rw [Text.indexOf]
  split
  · exact .inl rfl
  · cases hfound : strchr ch (data.drop pos) with
    | none => exact .inl rfl
    | some i =>
      have hlt := strchr_lt hch hfound
      rw [length_drop] at hlt
      exact .inr ⟨pos + i, rfl, Nat.le_add_right _ _, by omega⟩

theorem le_skipEmpty (data : Text) (n pos : Nat) : pos ≤ skipEmpty data n pos := by
  induction n generalizing pos with
  | zero => exact Nat.le_refl _
  | succ n ih =>
    rw [skipEmpty]
    split
    · split
      · exact Nat.le_succ _
      · exact Nat.le_of_succ_le (ih (pos + 1))
    · exact Nat.le_refl _

theorem locate_next (data : Text) (pos : Nat) :
    (locate data pos).next_index = -1 ∨
      ∃ i : Nat, (locate data pos).next_index = i ∧ pos ≤ i ∧ i < data.length := by
  have h₁ := @indexOf_cases data 38 (by decide) pos
  have h₂ := @indexOf_cases data 59 (by decide) pos
  simp only [locate]
  split
  · exact h₂
  · exact h₁

theorem parseLoop_succ {A : Type} (handler : Place → Nat → A → Except Halt A)
    (fuel pos k : Nat) (as : A) {p : Place}
    (hp : locate data (skipEmpty data data.length pos) = p) :
    parseLoop handler data (fuel + 1) pos k as =
      if (p.pos : Int) < p.key_end_pos then
        match handler p k as with
        | .error e => .error e
        | .ok as =>
          if p.next_index = -1 then .ok (k + 1, as)
          else parseLoop handler data fuel (p.next_index.toNat + 1) (k + 1) as
      else if p.next_index = -1 then .ok (k, as) else .error .loops := by
  rw [parseLoop, hp]
  simp only [bind, Except.bind, pure, Except.pure]
  split
  · cases handler p k as with
    | error e => rfl
    | ok as => rfl
  · rfl

theorem parseLoop_store {fuel pos k n : Nat} {as : List RequestArgument}
    (hcount : parseLoop nullArgHandler data fuel pos k () = .ok (n, ())) (hroom : n ≤ as.length) :
    k ≤ n ∧ ∃ as', as'.length = as.length ∧
      parseLoop (storeArgHandler data) data fuel pos k (some as) = .ok (n, some as') := by
  induction fuel generalizing pos k as with
  | zero => cases hcount
  | succ fuel ih =>
    obtain ⟨p, hp⟩ : ∃ p, locate data (skipEmpty data data.length pos) = p := ⟨_, rfl⟩
    rw [parseLoop_succ _ _ _ _ _ hp] at hcount ⊢
    by_cases hkey : (p.pos : Int) < p.key_end_pos
    · rw [if_pos hkey] at hcount ⊢
      simp only [nullArgHandler] at hcount
      -- The argument is counted, and stored behind those before it.
      have hstore : k < as.length → storeArgHandler data p k (some as) =
          .ok (some (as.set k (storeArg data p (as.getD k ⟨[], []⟩)))) := fun hk => by
        rw [storeArgHandler, load_of_lt hk]
        simp only [bind, Except.bind, store_of_lt hk, getD_eq_getElem?_getD,
          getElem?_eq_getElem hk, Option.getD_some]
      by_cases hlast : p.next_index = -1
      · rw [if_pos hlast, Except.ok.injEq, Prod.mk.injEq] at hcount
        obtain ⟨rfl, -⟩ := hcount
        rw [hstore (by omega)]
        simp only [if_pos hlast]
        exact ⟨Nat.le_succ k, _, length_set, rfl⟩
      · rw [if_neg hlast] at hcount
        have hle := (ih hcount hroom).1
        rw [hstore (by omega)]
        simp only [if_neg hlast]
        obtain ⟨-, as', hlen, hrun⟩ :=
          @ih _ _ (as.set k (storeArg data p (as.getD k ⟨[], []⟩))) hcount (by simpa using hroom)
        exact ⟨by omega, as', hlen.trans length_set, hrun⟩
    · rw [if_neg hkey] at hcount ⊢
      by_cases hlast : p.next_index = -1
      · rw [if_pos hlast, Except.ok.injEq, Prod.mk.injEq] at hcount
        obtain ⟨rfl, -⟩ := hcount
        rw [if_pos hlast]
        exact ⟨Nat.le_refl k, as, rfl, rfl⟩
      · rw [if_neg hlast] at hcount
        cases hcount

theorem parseLoop_null {fuel pos k : Nat} (hpos : pos ≤ data.length)
    (hfuel : data.length < fuel + pos) :
    (∃ n, parseLoop nullArgHandler data fuel pos k () = .ok (n, ())) ∨
      parseLoop nullArgHandler data fuel pos k () = .error .loops := by
  induction fuel generalizing pos k with
  | zero => omega
  | succ fuel ih =>
    obtain ⟨p, hp⟩ : ∃ p, locate data (skipEmpty data data.length pos) = p := ⟨_, rfl⟩
    rw [parseLoop_succ _ _ _ _ _ hp]
    by_cases hkey : (p.pos : Int) < p.key_end_pos
    · rw [if_pos hkey]
      simp only [nullArgHandler]
      by_cases hlast : p.next_index = -1
      · exact .inl ⟨k + 1, if_pos hlast⟩
      · rw [if_neg hlast]
        have hnext := locate_next data (skipEmpty data data.length pos)
        rw [hp] at hnext
        obtain ⟨i, hi, hle, hlt⟩ := hnext.resolve_left hlast
        have hskip := le_skipEmpty data data.length pos
        rw [hi, Int.toNat_natCast]
        exact ih (by omega) (by omega)
    · grind

end

namespace Server

structure Sized (s : Server) : Prop where
  plain_le : s.currentArgsHavePlain ≤ 1
  current : (s.currentArgs = none ∧ s.currentArgCount = 0 ∧ s.currentArgsHavePlain = 0) ∨
    ∃ as, s.currentArgs = some as ∧ (as.length = s.currentArgCount + 1 ∨
      (as.length = s.currentArgCount ∧ s.postArgsLen = 0))
  post : s.postArgsLen = 0 ∨
    ∃ ps, s.postArgs = some ps ∧ ps.length = maxPostArgs ∧ s.postArgsLen ≤ maxPostArgs

variable {s : Server}

theorem sized_init : Sized init := ⟨by decide, .inl ⟨rfl, rfl, rfl⟩, .inl rfl⟩

/-- **The arguments of a text** take an array that has one element more. -/
theorem parseArguments_cases (s : Server) (data : Text) :
    (∃ as n, s.parseArguments data = .ok { s with currentArgs := some as, currentArgCount := n } ∧
      parseArgumentsPrivate nullArgHandler data () = .ok (n, ()) ∧ as.length = n + 1) ∨
    (s.parseArguments data = .error .loops ∧
      parseArgumentsPrivate nullArgHandler data () = .error .loops) := by
  rcases @parseLoop_null data _ 0 0 (Nat.zero_le _)
    (show data.length < data.length + 1 + 0 by omega) with ⟨n, hcount⟩ | hloops
  · left
    have hlen : n ≤ (replicate (n + 1) (⟨[], []⟩ : RequestArgument)).length := by simp
    obtain ⟨-, as, has, hstore⟩ := parseLoop_store hcount hlen
    refine ⟨as, n, ?_, hcount, by simpa using has⟩
    rw [Server.parseArguments, parseArgumentsPrivate, hcount]
    simp only [bind, Except.bind, pure, Except.pure, newArgs, parseArgumentsPrivate, hstore]
  · refine .inr ⟨?_, hloops⟩
    rw [Server.parseArguments, parseArgumentsPrivate, hloops]
    rfl

/-! ## What a handler asks -/

theorem Sized.search_post (hs : s.Sized) (name : Text) :
    ∃ a, search s.postArgs name s.postArgsLen 0 = .ok a := by
  rcases hs.post with hzero | ⟨ps, hps, hlen, hle⟩
  · exact ⟨none, by rw [hzero]; rfl⟩
  · rw [hps]
    exact ⟨_, search_of_le (by omega)⟩

theorem Sized.find_ok (hs : s.Sized) (hcount : ¬ s.Overcounts) (name : Text) :
    ∃ a, s.find name = .ok a := by
  obtain ⟨a, ha⟩ := hs.search_post name
  have hcurrent : ∃ a, search s.currentArgs name
      (s.currentArgCount + s.currentArgsHavePlain) 0 = .ok a := by
    rcases hs.current with ⟨-, hzero, hplain⟩ | ⟨as, has, hlen⟩
    · exact ⟨none, by rw [hzero, hplain]; rfl⟩
    · have hplain := hs.plain_le
      have hle : 0 + (s.currentArgCount + s.currentArgsHavePlain) ≤ as.length := by
        rcases hlen with hlen | ⟨hlen, -⟩
        · omega
        · have hnone : s.currentArgsHavePlain = 0 := by
            by_contra hne
            exact hcount ⟨by rw [has, Option.map_some, hlen], hne⟩
          omega
      rw [has]
      exact ⟨_, search_of_le hle⟩
  obtain ⟨b, hb⟩ := hcurrent
  rw [find, ha]
  cases a with
  | none => exact ⟨b, hb⟩
  | some a => exact ⟨some a, rfl⟩

theorem Sized.find_overcounted (hs : s.Sized) (hover : s.Overcounts) (name : Text) :
    s.find name = match (s.currentArgs.getD []).find? (RequestArgument.named name) with
      | some a => .ok (some a)
      | none => .error .outOfBounds := by
  obtain ⟨hlen, hplain⟩ := hover
  obtain ⟨as, has, hcount⟩ := Option.map_eq_some_iff.mp hlen
  have hone : s.currentArgsHavePlain = 1 := by
    have hle := hs.plain_le
    omega
  have hpost : s.postArgsLen = 0 := by
    rcases hs.current with ⟨hnone, -⟩ | ⟨as', has', hlen'⟩
    · rw [hnone] at has
      cases has
    · rw [has, Option.some.injEq] at has'
      subst has'
      omega
  rw [find, hpost, hone, has, search]
  exact search_succ (by omega)

theorem Sized.nth_ok (hs : s.Sized) {i : Int}
    (hi : s.Overcounts → i ≠ s.currentArgCount) : ∃ a, s.nth i = .ok a := by
  rw [nth]
  split
  · rename_i hrange
    rcases hs.current with ⟨-, hzero, hplain⟩ | ⟨as, has, hlen⟩
    · omega
    · have hplain := hs.plain_le
      have hlt : i.toNat < as.length := by
        rcases hlen with hlen | ⟨hlen, -⟩
        · omega
        · by_contra hge
          have hne : s.currentArgsHavePlain ≠ 0 := by omega
          exact hi ⟨by rw [has, Option.map_some, hlen], hne⟩ (by omega)
      rw [has, load_of_lt hlt]
      exact ⟨_, rfl⟩
  · exact ⟨none, rfl⟩

theorem Sized.nth_overcounted (hover : s.Overcounts) :
    s.nth s.currentArgCount = .error .outOfBounds := by
  obtain ⟨hlen, hplain⟩ := hover
  obtain ⟨as, has, hcount⟩ := Option.map_eq_some_iff.mp hlen
  rw [nth, if_pos (by omega), has, load_of_ge (by omega)]
  rfl

theorem Sized.find_cases (hs : s.Sized) (name : Text) :
    ((s.Overcounts → ∃ a ∈ s.currentArgs.getD [], a.named name = true) ∧
      ∃ a, s.find name = .ok a) ∨
    ((s.Overcounts ∧ ¬ ∃ a ∈ s.currentArgs.getD [], a.named name = true) ∧
      s.find name = .error .outOfBounds) := by
  by_cases hover : s.Overcounts
  · have hfind := hs.find_overcounted hover name
    cases hfound : (s.currentArgs.getD []).find? (RequestArgument.named name) with
    | none =>
      grind
    | some a =>
      grind
  · exact .inl ⟨fun h => absurd h hover, hs.find_ok hover name⟩

theorem Sized.nth_cases (hs : s.Sized) (i : Int) :
    ((s.Overcounts → i ≠ s.currentArgCount) ∧ ∃ a, s.nth i = .ok a) ∨
    ((s.Overcounts ∧ ¬ i ≠ s.currentArgCount) ∧ s.nth i = .error .outOfBounds) := by
  by_cases hover : s.Overcounts ∧ ¬ i ≠ s.currentArgCount
  · refine .inr ⟨hover, ?_⟩
    rw [not_not.mp hover.2]
    exact nth_overcounted hover.1
  · have hi : s.Overcounts → i ≠ s.currentArgCount := fun h hne =>
      hover ⟨h, fun hne' => hne' hne⟩
    exact .inl ⟨hi, hs.nth_ok hi⟩

/-- **What a handler asks** is found in the arrays, or is one further than they go. -/
theorem Sized.ask_cases (hs : s.Sized) (q : Query) :
    ((s.Overcounts → q.Before s) ∧ s.ask q = .ok ()) ∨
      ((s.Overcounts ∧ ¬ q.Before s) ∧ s.ask q = .error .outOfBounds) := by
  cases q with
  | arg i =>
    rcases hs.nth_cases i with ⟨hi, a, ha⟩ | ⟨hi, ha⟩
    · exact .inl ⟨hi, by rw [ask, arg, ha]; rfl⟩
    · exact .inr ⟨hi, by rw [ask, arg, ha]; rfl⟩
  | argName i =>
    rcases hs.nth_cases i with ⟨hi, a, ha⟩ | ⟨hi, ha⟩
    · exact .inl ⟨hi, by rw [ask, argName, ha]; rfl⟩
    · exact .inr ⟨hi, by rw [ask, argName, ha]; rfl⟩
  | argNamed name =>
    rcases hs.find_cases name with ⟨hname, a, ha⟩ | ⟨hname, ha⟩
    · exact .inl ⟨hname, by rw [ask, argNamed, ha]; rfl⟩
    · exact .inr ⟨hname, by rw [ask, argNamed, ha]; rfl⟩
  | hasArg name =>
    rcases hs.find_cases name with ⟨hname, a, ha⟩ | ⟨hname, ha⟩
    · exact .inl ⟨hname, by rw [ask, hasArg, ha]; rfl⟩
    · exact .inr ⟨hname, by rw [ask, hasArg, ha]; rfl⟩
  | args => exact .inl ⟨fun _ => trivial, rfl⟩

theorem Sized.askAll_ok (hs : s.Sized) (hcount : ¬ s.Overcounts) (asked : List Query) :
    s.askAll asked = .ok () := by
  induction asked with
  | nil => rfl
  | cons q rest ih =>
    rcases hs.ask_cases q with ⟨-, hq⟩ | ⟨⟨hover, -⟩, -⟩
    · rw [askAll, hq]
      exact ih
    · exact absurd hover hcount

/-! ## The parts of a form -/

/-- A read gives no more events than there were, or nothing comes. -/
def Reads {A : Type} (n : Nat) (x : Except Halt (A × List Event)) : Prop :=
  x = .error .waits ∨ ∃ a events, x = .ok (a, events) ∧ events.length ≤ n

theorem Reads.bind {A B : Type} {m n : Nat} {x : Except Halt (A × List Event)}
    {f : A × List Event → Except Halt (B × List Event)} (hx : Reads m x)
    (hf : ∀ a events, events.length ≤ m → Reads n (f (a, events))) : Reads n (x >>= f) := by
  rcases hx with hwaits | ⟨a, events, hok, hlen⟩
  · exact .inl (by rw [hwaits]; rfl)
  · rw [hok]
    exact hf a events hlen

variable {events : List Event}

theorem Reads.ok {A : Type} {n : Nat} {a : A} (h : events.length ≤ n) :
    Reads n (.ok (a, events)) := .inr ⟨a, events, rfl, h⟩

theorem reads_readLine {n : Nat} {events : List Event} (h : events.length ≤ n + 1) :
    Reads n (readLine events) := by
  cases events with
  | nil => exact .inl rfl
  | cons e events =>
    cases e with
    | line s => exact .ok (by simpa using h)
    | content whole asked => exact .inl rfl

theorem reads_readType {n : Nat} (h : events.length ≤ n) :
    Reads n (readType events) := by
  refine (reads_readLine (n := n) (by omega)).bind fun line events hlen => ?_
  show Reads n (if _ then _ else _)
  split
  · exact (reads_readLine (n := n) (by omega)).bind fun _ events hlen => .ok hlen
  · exact .ok hlen

theorem reads_readValue (boundary : Text) {n : Nat} (value : Text)
    (h : events.length ≤ n) : Reads n (readValue boundary events value) := by
  induction events generalizing value with
  | nil => exact .inl rfl
  | cons e events ih =>
    have hlen : events.length ≤ n := by grind
    cases e with
    | content whole asked => exact .inl rfl
    | line s =>
      rw [readValue]
      split
      · exact .ok hlen
      · exact ih _ hlen

theorem reads_readFile (name filename type : Text) {n : Nat}
    (h : events.length ≤ n) : Reads n (readFile name filename type events) := by
  cases events with
  | nil => exact .inl rfl
  | cons e events =>
    have hlen : events.length ≤ n := by grind
    cases e with
    | line s => exact .inl rfl
    | content whole asked =>
      cases whole with
      | false => exact .ok hlen
      | true =>
        exact (reads_readLine (n := n) (by omega)).bind fun _ events hlen => .ok hlen

theorem reads_readPart (boundary : Text) {n : Nat} {events : List Event}
    (h : events.length ≤ n + 1) : Reads n (readPart boundary events) := by
  refine (reads_readLine h).bind fun line events hlen => ?_
  dsimp only
  cases disposition line with
  | none => exact .ok hlen
  | some names =>
    obtain ⟨name, filename⟩ := names
    refine (reads_readType hlen).bind fun type events hlen => ?_
    cases filename with
    | some filename => exact reads_readFile name filename type hlen
    | none => exact (reads_readValue boundary [] hlen).bind fun _ events hlen => .ok hlen

/-! ## A form -/

/-- While a form is read, its array has room for the fields that are allowed. -/
structure Reading (s : Server) : Prop where
  plain_le : s.currentArgsHavePlain ≤ 1
  current : ∃ as, s.currentArgs = some as ∧ as.length = s.currentArgCount + 1
  post : ∃ ps, s.postArgs = some ps ∧ ps.length = maxPostArgs
  len_le : s.postArgsLen ≤ maxPostArgs

theorem Reading.sized (hs : s.Reading) : s.Sized := by
  obtain ⟨as, has, hlen⟩ := hs.current
  obtain ⟨ps, hps, hmax⟩ := hs.post
  exact ⟨hs.plain_le, .inr ⟨as, has, .inl hlen⟩, .inr ⟨ps, hps, hmax, hs.len_le⟩⟩

theorem Reading.not_overcounts (hs : s.Reading) : ¬ s.Overcounts := by
  intro hover
  obtain ⟨as, has, hlen⟩ := hs.current
  have hcount := hover.1
  rw [has, Option.map_some, Option.some.injEq] at hcount
  omega

theorem Reading.store (hs : s.Reading) (a : RequestArgument) :
    (s.postArgsLen < maxPostArgs ∧ ∃ ps, Http.store s.postArgs s.postArgsLen a = .ok ps ∧
      Reading { s with postArgs := ps, postArgsLen := s.postArgsLen + 1 }) ∨
    (s.postArgsLen = maxPostArgs ∧
      Http.store s.postArgs s.postArgsLen a = .error .outOfBounds) := by
  obtain ⟨ps, hps, hlen⟩ := hs.post
  have hle := hs.len_le
  by_cases hlt : s.postArgsLen < maxPostArgs
  · refine .inl ⟨hlt, some (ps.set s.postArgsLen a), ?_, hs.plain_le, hs.current,
      ⟨_, rfl, by rw [length_set, hlen]⟩, hlt⟩
    rw [hps, store_of_lt (by omega)]
  · refine .inr ⟨by omega, ?_⟩
    rw [hps, Http.store, if_neg (by omega)]

theorem Reading.appendArgs (hs : s.Reading) {n iarg : Nat} (hi : iarg + n ≤ s.currentArgCount)
    (hn : s.postArgsLen + n ≤ maxPostArgs) : ∃ s', s.appendArgs n iarg = .ok s' ∧ s'.Reading := by
  induction n generalizing s iarg with
  | zero => exact ⟨s, rfl, hs⟩
  | succ n ih =>
    obtain ⟨as, has, hlen⟩ := hs.current
    have hlt : iarg < as.length := by omega
    have hload : load s.currentArgs iarg = .ok as[iarg] := by rw [has, load_of_lt hlt]
    rcases hs.store as[iarg] with ⟨-, ps, hstore, hs'⟩ | ⟨hfull, -⟩
    · obtain ⟨s', happend, hs''⟩ := ih hs'
        (show iarg + 1 + n ≤ s.currentArgCount by omega)
        (show s.postArgsLen + 1 + n ≤ maxPostArgs by omega)
      refine ⟨s', ?_, hs''⟩
      rw [Server.appendArgs, hload]
      simp only [hstore, happend, bind, Except.bind]
    · omega

theorem copyArgs_ok {as ps : List RequestArgument} (hps : s.postArgs = some ps) {n iarg : Nat}
    (has : s.currentArgs = some as) (hi : iarg + n ≤ as.length) (hle : iarg + n ≤ ps.length) :
    ∃ as', s.copyArgs n iarg = .ok { s with currentArgs := some as' } ∧
      as'.length = as.length := by
  induction n generalizing s as iarg with
  | zero => exact ⟨as, by rw [copyArgs, ← has], rfl⟩
  | succ n ih =>
    have hlt : iarg < ps.length := by omega
    have hload : load s.postArgs iarg = .ok ps[iarg] := by rw [hps, load_of_lt hlt]
    have hstore : Http.store s.currentArgs iarg ps[iarg] = .ok (some (as.set iarg ps[iarg])) := by
      rw [has, store_of_lt (by omega)]
    obtain ⟨as', hcopy, hlen⟩ :=
      @ih { s with currentArgs := some (as.set iarg ps[iarg]) } _ hps (iarg + 1) rfl
        (by rw [length_set]; omega) (by omega)
    refine ⟨as', ?_, hlen.trans length_set⟩
    rw [copyArgs]
    simp only [hload, hstore, hcopy, bind, Except.bind]

/-- **The end of a form.**  The arguments get an array of their number. -/
theorem Reading.finishForm (hs : s.Reading) : ∃ s', s.finishForm = .ok s' ∧ s'.Sized := by
  have hle := hs.len_le
  obtain ⟨n, hn, hcount, hroom⟩ : ∃ n, (if (maxPostArgs : Int) - s.postArgsLen < s.currentArgCount
      then (maxPostArgs : Int) - s.postArgsLen else s.currentArgCount).toNat = n ∧
      0 + n ≤ s.currentArgCount ∧ s.postArgsLen + n ≤ maxPostArgs := by
    refine ⟨_, rfl, ?_, ?_⟩
    · split <;> omega
    · split <;> omega
  obtain ⟨t, happend, ht⟩ := hs.appendArgs hcount hroom
  obtain ⟨ps, hps, hlen⟩ := ht.post
  have htle := ht.len_le
  obtain ⟨as, hcopy, has⟩ := @copyArgs_ok
    { t with currentArgs := newArgs t.postArgsLen } _ _ hps t.postArgsLen 0 rfl (by simp) (by omega)
  refine ⟨⟨some as, t.postArgsLen, t.currentArgsHavePlain, none, 0⟩, ?_, ht.plain_le,
    .inr ⟨as, rfl, .inr ⟨?_, rfl⟩⟩, .inl rfl⟩
  · rw [Server.finishForm]
    simp only [hn, happend, hcopy, bind, Except.bind, pure, Except.pure]
  · simpa using has

theorem Reading.takeFile (hs : s.Reading) (name filename type : Text) (whole : Bool)
    (asked : List Query) (last : Bool) :
    s.takePart (.file name filename type whole asked last) =
      .ok (s, if !whole then some false else if last then some true else none) := by
  obtain ⟨a, ha⟩ := hs.sized.find_ok hs.not_overcounts (text "filename")
  have hasked := hs.sized.askAll_ok hs.not_overcounts asked
  rw [takePart]
  by_cases hblob : filename.equals (text "blob") = true
  · simp only [hblob, if_true, hasArg, argNamed, ha, hasked, bind, Except.bind, pure, Except.pure]
    cases a with
    | none => rfl
    | some a => rfl
  · simp only [hblob, Bool.false_eq_true, if_false, hasked, bind, Except.bind, pure, Except.pure]

/-- **The parts of a form.**  They find room as long as the fields among them do. -/
theorem Reading.formLoop (hs : s.Reading) (boundary : Text) {fuel : Nat}
    (hfuel : events.length < fuel) :
    (s.postArgsLen + fieldsOf boundary fuel events ≤ maxPostArgs ∧
      ((∃ b s', formLoop boundary fuel events s = .ok (b, s') ∧ s'.Sized) ∨
        formLoop boundary fuel events s = .error .waits)) ∨
    (maxPostArgs < s.postArgsLen + fieldsOf boundary fuel events ∧
      formLoop boundary fuel events s = .error .outOfBounds) := by
  induction fuel generalizing s events with
  | zero => omega
  | succ fuel ih =>
    have hle := hs.len_le
    cases events with
    | nil => exact .inl ⟨hle, .inr rfl⟩
    | cons e events =>
      rw [Server.formLoop, fieldsOf]
      rcases @reads_readPart boundary events.length (e :: events)
        (Nat.le_refl _) with hwaits | ⟨part, rest, hpart, hlen⟩
      · rw [hwaits]
        exact .inl ⟨hle, .inr rfl⟩
      rw [hpart]
      have hend : rest.length < fuel := by grind
      cases part with
      | other => exact ih hs hend
      | file name filename type whole asked last =>
        simp only [hs.takeFile, bind, Except.bind, pure, Except.pure]
        cases whole with
        | false => exact .inl ⟨hle, .inl ⟨false, s, rfl, hs.sized⟩⟩
        | true =>
          cases last with
          | false => exact ih hs hend
          | true =>
            obtain ⟨s', hfinish, hs'⟩ := hs.finishForm
            exact .inl ⟨hle, .inl ⟨true, s', by simp [hfinish], hs'⟩⟩
      | field name value last =>
        rcases hs.store ⟨name, value⟩ with ⟨hlt, ps, hstore, hs'⟩ | ⟨hfull, hstore⟩
        · simp only [takePart, hstore, bind, Except.bind, pure, Except.pure]
          cases last with
          | true =>
            obtain ⟨t, hfinish, ht⟩ := hs'.finishForm
            exact .inl ⟨hlt, .inl ⟨true, t, by simp [hfinish], ht⟩⟩
          | false =>
            have hrest := ih hs' hend
            simp only [Bool.false_eq_true, if_false, ← Nat.add_assoc]
            exact hrest
        · simp only [takePart, hstore, bind, Except.bind]
          exact .inr ⟨by omega, trivial⟩

theorem firstLine_cases (retries : Nat) (events : List Event) :
    firstLine retries events = .error .waits ∨ ∃ line rest,
      firstLine retries events = .ok (line, rest) := by
  induction retries generalizing events with
  | zero => exact .inr ⟨[], events, rfl⟩
  | succ retries ih =>
    rw [firstLine]
    rcases @reads_readLine events.length events (Nat.le_succ _) with
      hwaits | ⟨line, rest, hline, -⟩
    · rw [hwaits]
      exact .inl rfl
    · rw [hline]
      simp only [bind, Except.bind]
      split
      · exact ih rest
      · exact .inr ⟨line, rest, rfl⟩

theorem Sized.reading (hs : s.Sized) {as : List RequestArgument} {n : Nat}
    (has : as.length = n + 1) :
    Reading ⟨some as, n, s.currentArgsHavePlain, newArgs maxPostArgs, 0⟩ :=
  ⟨hs.plain_le, ⟨as, rfl, has⟩, ⟨_, rfl, by simp⟩, Nat.zero_le _⟩

theorem Sized.withArgs (hs : s.Sized) {as : List RequestArgument} {n plain : Nat}
    (has : as.length = n + 1) (hplain : plain ≤ 1) :
    Sized ⟨some as, n, plain, s.postArgs, s.postArgsLen⟩ :=
  ⟨hplain, .inr ⟨as, rfl, .inl has⟩, hs.post⟩

/-- **A request.**  It leaves arrays of the right sizes, or has no end, or has more fields
than there is room for. -/
theorem Sized.parseRequest (hs : s.Sized) (r : Request) :
    (r.fields ≤ maxPostArgs ∧ ((∃ b s', s.parseRequest r = .ok (b, s') ∧ s'.Sized) ∨
      s.parseRequest r = .error .loops ∨ s.parseRequest r = .error .waits)) ∨
    (maxPostArgs < r.fields ∧ s.parseRequest r = .error .outOfBounds) := by
  rw [Request.fields, Server.parseRequest]
  cases hbody : r.hasBody with
  | false =>
    left
    refine ⟨Nat.zero_le _, ?_⟩
    rcases parseArguments_cases s r.searchStr with ⟨as, n, hparse, -, has⟩ | ⟨hloops, -⟩
    · refine .inl ⟨true, _, ?_, hs.withArgs has hs.plain_le⟩
      simp only [hparse, Bool.false_eq_true, if_false, bind, Except.bind, pure, Except.pure]
    · refine .inr (.inl ?_)
      simp only [hloops, Bool.false_eq_true, if_false, bind, Except.bind]
  | true =>
    cases hform : r.isForm with
    | false =>
      left
      refine ⟨Nat.zero_le _, ?_⟩
      simp only [if_true, Bool.false_eq_true, if_false]
      cases r.plainBuf with
      | none => exact .inl ⟨false, s, rfl, hs⟩
      | some plainBuf =>
        simp only
        by_cases hshort : plainBuf.length < r.contentLength
        · grind
        rw [if_neg hshort]
        rcases parseArguments_cases s (searchOf r plainBuf) with
          ⟨as, n, hparse, -, has⟩ | ⟨hloops, -⟩
        · left
          simp only [hparse, bind, Except.bind, pure, Except.pure]
          by_cases hzero : r.contentLength ≠ 0
          · -- The body takes the element behind the arguments.
            simp only [if_pos hzero, store_of_lt (show n < as.length by omega)]
            exact ⟨true, _, rfl, hs.withArgs (by rw [length_set, has]) (Nat.le_refl 1)⟩
          · simp only [if_neg hzero]
            exact ⟨true, _, rfl, hs.withArgs has hs.plain_le⟩
        · refine .inr (.inl ?_)
          simp only [hloops, bind, Except.bind]
    | true =>
      simp only [Bool.and_self, if_true]
      rcases parseArguments_cases s (searchOf r []) with
        ⟨as, n, hparse, hcount, has⟩ | ⟨hloops, hcount⟩
      · simp only [hparse, hcount, parseForm, bind, Except.bind]
        rcases firstLine_cases 3 r.events with hwaits | ⟨line, rest, hline⟩
        · grind
        · simp only [hline]
          by_cases hfirst : line.equals (text "--" ++ r.boundaryStr) = true
          · simp only [if_pos hfirst]
            have hloop := (hs.reading has).formLoop r.boundaryStr (Nat.lt_succ_self rest.length)
            rw [Nat.zero_add] at hloop
            rcases hloop with ⟨hle, hok | hwaits⟩ | hout
            · exact .inl ⟨hle, .inl hok⟩
            · exact .inl ⟨hle, .inr (.inr hwaits)⟩
            · exact .inr hout
          · simp only [if_neg hfirst]
            exact .inl ⟨Nat.zero_le _, .inl ⟨false, _, rfl, hs.withArgs has hs.plain_le⟩⟩
      · simp only [hloops, hcount, bind, Except.bind]
        exact .inl ⟨Nat.zero_le _, .inr (.inl trivial)⟩

end Server

/-! ## Runs -/

namespace World

def Sound (w : World) : Prop :=
  w.status ≠ some .outOfBounds ∧ (w.status = none → w.server.Sized)

theorem sound_init : init.Sound := ⟨by decide, fun _ => Server.sized_init⟩

/-- **One action.**  It leaves the arrays exactly where it does not fit. -/
theorem Sound.step {w : World} (hw : w.Sound) (a : Action) :
    (w.Fits a ∧ (w.step a).Sound) ∨ (¬ w.Fits a ∧ (w.step a).status = some .outOfBounds) := by
  obtain ⟨s, status⟩ := w
  cases status with
  | some e => exact .inl ⟨fun h => (by cases h), hw⟩
  | none =>
    have hs : s.Sized := hw.2 rfl
    cases a with
    | serve r =>
      rcases hs.parseRequest r with
        ⟨hle, ⟨_, s', hok, hs'⟩ | hloops | hwaits⟩ | ⟨hgt, hout⟩
      · have hstep : World.step (.serve r) ⟨s, none⟩ = ⟨s', none⟩ := by
          simp only [World.step, hok]
        exact .inl ⟨fun _ => hle, by rw [hstep]; exact ⟨nofun, fun _ => hs'⟩⟩
      · exact .inl ⟨fun _ => hle, by simp [World.Sound, World.step, hloops]⟩
      · exact .inl ⟨fun _ => hle, by simp [World.Sound, World.step, hwaits]⟩
      · exact .inr ⟨fun h => absurd (h rfl) (Nat.not_le.mpr hgt), by simp [World.step, hout]⟩
    | ask q =>
      rcases hs.ask_cases q with ⟨hbefore, hok⟩ | ⟨⟨hover, hbehind⟩, hout⟩
      · exact .inl ⟨fun _ => hbefore, by simpa only [World.step, hok] using hw⟩
      · exact .inr ⟨fun h => hbehind (h rfl hover), by simp [World.step, hout]⟩

theorem after_outOfBounds {w : World} (hw : w.status = some .outOfBounds)
    (actions : List Action) : (after step actions w).status = some .outOfBounds := by
  have hfixed : ∀ a ∈ actions, step a w = w := fun a _ => by simp only [step, hw]
  rw [after_of_fixed hfixed, hw]

theorem Sound.run {w : World} (hw : w.Sound) (actions : List Action) :
    (after World.step actions w).status ≠ some .outOfBounds ↔
      AllFit World.step World.Fits actions w := by
  induction actions generalizing w with
  | nil => exact ⟨fun _ => trivial, fun _ => hw.1⟩
  | cons a rest ih =>
    rcases hw.step a with ⟨hfits, hnext⟩ | ⟨hunfit, hout⟩
    · exact (ih hnext).trans ⟨fun h => ⟨hfits, h⟩, fun h => h.2⟩
    · exact ⟨fun h => absurd (after_outOfBounds hout rest) h, fun h => absurd h.1 hunfit⟩

/-- **Indices of request arguments.**  Whatever one server serves, and whatever is asked of it
in between, every index is inside of its array exactly if every form has no more fields than
there is room for, and nothing leads to the end of the arguments of a form while the body of
an earlier request is counted behind them. -/
theorem run_in_bounds (actions : List Action) :
    (after step actions init).status ≠ some .outOfBounds ↔ AllFit step Fits actions init :=
  sound_init.run actions

/-- A body of one byte, then a form of one field, and then a name that is not in it. -/
theorem not_run_in_bounds :
    ¬ ∀ actions : List Action, (after step actions init).status ≠ some .outOfBounds := by
  intro h
  refine h [.serve ⟨true, [], false, false, 1, some (text "x"), [], []⟩,
    .serve ⟨true, [], true, false, 0, none, text "b",
      [.line (text "--b"), .line (text "Content-Disposition: form-data; name=\"k\""), .line [],
        .line (text "v"), .line (text "--b--")]⟩,
    .ask (.hasArg (text "plain"))] ?_
  decide +kernel

end World

end Http
