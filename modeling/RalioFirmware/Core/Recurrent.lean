import Mathlib.Data.List.Nodup
import RalioFirmware.Basis.Links
import RalioFirmware.Basis.Runs

/-!
# Recurrent scheduled functions

The other half of `Schedule.cpp`: functions that are called again and again until
they return false.  A pass goes along their list with two pointers and takes the nodes
out in place, while the callbacks may put new ones behind the last.  A node that is
deleted leaves its address to whatever is allocated next; memory that is not allocated
is `none` here, and an access to it is a fault.
-/

namespace Recurrent

open Links Runs

/-- `recurrent_fn_t`; with it, for reference, the number of the scheduling. -/
structure Node (Fn : Type) where
  mNext : Option Nat
  mFunc : Fn
  serial : Nat

/-- Where `run_scheduled_recurrent_functions` stands: not called, before it reads `rLast`,
before the comparison with `stop`, before the tests of alarm and time, in the callback,
and at the test of its loop. -/
inductive Pc
  | idle
  | begin (current : Nat)
  | mark (current : Nat) (prev stop : Option Nat)
  | check (current : Nat) (prev stop : Option Nat) (done : Bool)
  | calling (current : Nat) (prev stop : Option Nat) (done : Bool)
  | test (current prev stop : Option Nat) (done : Bool)
  | fault
deriving DecidableEq

/-- The list and the pass; with them, for reference, the functions whose scheduling returned
true, the numbers of those that have returned false, and of those that the latest pass has
invoked. -/
structure World (Fn : Type) where
  nodes : Nat → Option (Node Fn)
  rFirst : Option Nat
  rLast : Option Nat
  fence : Bool
  pc : Pc
  scheduled : List Fn
  cancelled : List Nat
  invoked : List Nat

/-- What may happen next: somebody schedules a function, for which `new` gives a place or
not; somebody starts a pass; or the pass goes on, where a function is due or not and
returns what it likes. -/
inductive Action (Fn : Type)
  | schedule (fn : Option Fn) (item : Option Nat)
  | start
  | tick (due result : Bool)

namespace World

variable {Fn : Type}

def init : World Fn where
  nodes _ := none
  rFirst := none
  rLast := none
  fence := false
  pc := .idle
  scheduled := []
  cancelled := []
  invoked := []

def next (w : World Fn) (n : Nat) : Option Nat := (w.nodes n).bind Node.mNext

def serial (w : World Fn) (n : Nat) : Option Nat := (w.nodes n).map Node.serial

def setNext (w : World Fn) (n : Nat) (r : Option Nat) : World Fn :=
  match w.nodes n with
  | some node => { w with nodes := Function.update w.nodes n (some { node with mNext := r }) }
  | none => { w with pc := .fault }

/-- `schedule_recurrent_function_us`; `new` does not give a place that is in use. -/
def schedule (fn : Option Fn) (item : Option Nat) (w : World Fn) : World Fn :=
  match fn, item with
  | some f, some item =>
    if (w.nodes item).isSome then w
    else
      let node := ⟨none, f, w.scheduled.length⟩
      let w := { w with nodes := Function.update w.nodes item (some node),
                        scheduled := w.scheduled ++ [f] }
      let w := match w.rLast with
        | some last => w.setNext last (some item)
        | none => { w with rFirst := some item }
      { w with rLast := some item }
  | _, _ => w

def advance (current : Nat) (stop : Option Nat) (done : Bool) (w : World Fn) : World Fn :=
  match w.nodes current with
  | some node => { w with pc := .test node.mNext (some current) stop done }
  | none => { w with pc := .fault }

def remove (current : Nat) (prev stop : Option Nat) (done : Bool) (w : World Fn) : World Fn :=
  match w.nodes current with
  | some node =>
    let w := { w with rLast := if w.rLast = some current then prev else w.rLast,
                      pc := .test node.mNext prev stop done }
    let w := match prev with
      | some prev => w.setNext prev node.mNext
      | none => { w with rFirst := node.mNext }
    { w with nodes := Function.update w.nodes current none,
             cancelled := w.cancelled ++ [node.serial] }
  | none => { w with pc := .fault }

/-- A step of `run_scheduled_recurrent_functions`. -/
def tick (due result : Bool) (w : World Fn) : World Fn :=
  match w.pc with
  | .idle => w
  | .begin current => { w with pc := .mark current none w.rLast }
  | .mark current prev stop =>
    { w with pc := .check current prev stop (decide (some current = stop)) }
  | .check current prev stop done =>
    if due then
      match w.nodes current with
      | some node => { w with pc := .calling current prev stop done,
                              invoked := w.invoked ++ [node.serial] }
      | none => { w with pc := .fault }
    else w.advance current stop done
  | .calling current prev stop done =>
    if result then w.advance current stop done else w.remove current prev stop done
  | .test (some current) prev stop false => { w with pc := .mark current prev stop }
  | .test _ _ _ _ => { w with pc := .idle, fence := false }
  | .fault => w

/-- A pass that is started while another is in progress returns at the fence. -/
def step : Action Fn → World Fn → World Fn
  | .schedule fn item, w => w.schedule fn item
  | .start, w =>
    match w.rFirst with
    | none => w
    | some current =>
      if w.fence then w else { w with fence := true, pc := .begin current, invoked := [] }
  | .tick due result, w => w.tick due result

end World

end Recurrent
