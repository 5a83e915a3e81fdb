import RalioFirmware.Basis.Links
import RalioFirmware.Basis.Runs

/-!
# Scheduled functions

`Schedule.cpp` keeps functions that an interrupt wants to have called later: at most
32 nodes, on a list of pending ones with a pointer to its end and on a list of unused
ones.  `schedule_function` runs with interrupts locked and is one step here, whoever
calls it; `run_scheduled_functions` is interruptible, and goes step by step from one
reading of the list to the next.
-/

namespace Schedule

/-- `SCHEDULED_FN_MAX_COUNT`. -/
def maxCount : Nat := 32

/-- `scheduled_fn_t`. -/
structure Node (Fn : Type) where
  mNext : Option Nat
  mFunc : Option Fn

/-- The list heads and the nodes, which go by the order they were allocated in. -/
structure Lists (Fn : Type) where
  nodes : Nat → Node Fn
  sFirst : Option Nat
  sLast : Option Nat
  sUnused : Option Nat
  sCount : Nat

namespace Lists

variable {Fn : Type}

def setNext (l : Lists Fn) (n : Nat) (next : Option Nat) : Lists Fn :=
  { l with nodes := Function.update l.nodes n { l.nodes n with mNext := next } }

def setFunc (l : Lists Fn) (n : Nat) (fn : Option Fn) : Lists Fn :=
  { l with nodes := Function.update l.nodes n { l.nodes n with mFunc := fn } }

/-- `get_fn_unsafe`; `granted` says whether `new` finds memory. -/
def get_fn_unsafe (l : Lists Fn) (granted : Bool) : Option Nat × Lists Fn :=
  match l.sUnused with
  | some result => (some result, { l with sUnused := (l.nodes result).mNext })
  | none =>
    if l.sCount < maxCount then
      if granted then
        (some l.sCount,
          { l with nodes := Function.update l.nodes l.sCount ⟨none, none⟩,
                   sCount := l.sCount + 1 })
      else (none, l)
    else (none, l)

def recycle_fn_unsafe (l : Lists Fn) (fn : Nat) : Lists Fn :=
  { (l.setFunc fn none).setNext fn l.sUnused with sUnused := some fn }

/-- `schedule_function`; an empty function is none.  No result is a write through a null
pointer. -/
def schedule_function (l : Lists Fn) (fn : Option Fn) (granted : Bool) :
    Option (Bool × Lists Fn) :=
  match fn with
  | none => some (false, l)
  | some f =>
    match l.get_fn_unsafe granted with
    | (none, l) => some (false, l)
    | (some item, l) =>
      let l := (l.setFunc item (some f)).setNext item none
      match l.sFirst, l.sLast with
      | some _, some last => some (true, { l.setNext last (some item) with sLast := some item })
      | some _, none => none
      | none, _ => some (true, { l with sFirst := some item, sLast := some item })

/-- The block of `run_scheduled_functions` that takes the first node from the list. -/
def removeFirst (l : Lists Fn) (to_recycle : Nat) : Lists Fn :=
  let l := if l.sLast = some to_recycle then { l with sLast := none } else l
  let l := { l with sFirst := (l.nodes to_recycle).mNext }
  l.recycle_fn_unsafe to_recycle

end Lists

/-- Where `run_scheduled_functions` stands: not called, at the test of its loop, before
the comparison with `stop`, before the call, or during the call and up to the removal.
`fault` is an access through a null pointer or the call of an empty function. -/
inductive Pc
  | idle
  | test (stop : Option Nat) (done : Bool)
  | mark (stop : Option Nat)
  | call (stop : Option Nat) (done : Bool)
  | remove (stop : Option Nat) (done : Bool)
  | fault
deriving DecidableEq

/-- The system; with it, for reference, the functions whose scheduling returned true, those
that have been called, and how many had been scheduled when the latest run started. -/
structure World (Fn : Type) where
  lists : Lists Fn
  pc : Pc
  accepted : List Fn
  called : List Fn
  due : Nat

/-- What may happen next: somebody schedules a function, the program starts a run, or the
run goes on. -/
inductive Action (Fn : Type)
  | schedule (fn : Option Fn) (granted : Bool)
  | start
  | tick

namespace World

variable {Fn : Type}

def init : World Fn where
  lists := ⟨fun _ => ⟨none, none⟩, none, none, none, 0⟩
  pc := .idle
  accepted := []
  called := []
  due := 0

def schedule (fn : Option Fn) (granted : Bool) (w : World Fn) : World Fn :=
  match w.lists.schedule_function fn granted with
  | some (true, lists) => { w with lists := lists, accepted := w.accepted ++ fn.toList }
  | some (false, lists) => { w with lists := lists }
  | none => { w with pc := .fault }

/-- A step of `run_scheduled_functions`. -/
def tick (w : World Fn) : World Fn :=
  match w.pc with
  | .idle => w
  | .test stop done =>
    if w.lists.sFirst ≠ none ∧ done = false then { w with pc := .mark stop }
    else { w with pc := .idle }
  | .mark stop => { w with pc := .call stop (decide (w.lists.sFirst = stop)) }
  | .call stop done =>
    match w.lists.sFirst.bind fun first => (w.lists.nodes first).mFunc with
    | some f => { w with pc := .remove stop done, called := w.called ++ [f] }
    | none => { w with pc := .fault }
  | .remove stop done =>
    match w.lists.sFirst with
    | some first => { w with pc := .test stop done, lists := w.lists.removeFirst first }
    | none => { w with pc := .fault }
  | .fault => w

/-- Runs do not nest: a run starts when none is in progress. -/
def step : Action Fn → World Fn → World Fn
  | .schedule fn granted, w => w.schedule fn granted
  | .start, w =>
    if w.pc = .idle then { w with pc := .test w.lists.sLast false, due := w.accepted.length }
    else w
  | .tick, w => w.tick

/-- Nothing is scheduled between the start of a run that finds nothing pending and its
first look at the list. -/
def Fits : Action Fn → World Fn → Prop
  | .schedule _ _, w => ¬ (w.pc = .test none false ∧ w.lists.sFirst = none)
  | _, _ => True

instance : ∀ (a : Action Fn) (w : World Fn), Decidable (Fits a w)
  | .schedule _ _, w =>
    inferInstanceAs (Decidable (¬ (w.pc = .test none false ∧ w.lists.sFirst = none)))
  | .start, _ => isTrue trivial
  | .tick, _ => isTrue trivial

end World

end Schedule
