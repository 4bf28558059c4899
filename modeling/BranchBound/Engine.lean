import BranchBound.Engine.Queue
import BranchBound.Engine.WatchList

/-! # The engine

An engine holds a space together with the propagators that narrow it, and calls them until
none of them has a reason to be called any more.

`propagate` first delivers the events that are pending.  Then it calls the propagators in the
queue one after another, and delivers the events of each before it calls the next.  An event
goes to everyone who watches it; who answers that it wants to be called is queued, except
that nobody is queued because of its own changes.  If a propagator refutes the domains, the
queue and the events are dropped; what is left of the space is good for nothing but returning
to an earlier level (`restore`).

An engine can keep a journal of the calls that it makes. -/
namespace BranchBound

/-- An entry of the journal.  The cells are the trailed integers of the propagator. -/
inductive Note
  | notified (propagator position : Nat) (event : Event) (cells : List Int)
  | synchronised (propagator : Nat) (cells : List Int)
  | propagated (propagator : Nat)
  | refuted (propagator : Nat) (cause : Inconsistency)
  | solved (objective : Int)
  deriving Repr, DecidableEq

/-- The notes on what an engine did, if anyone wants to know. -/
structure Journal where
  recording : Bool := false
  /-- Latest first. -/
  notes : List Note := []
  deriving Repr, DecidableEq

def Journal.add (j : Journal) (note : Note) : Journal :=
  if j.recording then { j with notes := note :: j.notes } else j

/-- The notes in the order in which they were taken. -/
def Journal.toList (j : Journal) : List Note := j.notes.reverse

/-- A propagator that was posted, with the variables and the trailed integers that it asked for. -/
structure Posted (π : Type) where
  propagator : π
  /-- Increasing. -/
  scope : List Var
  cells : List Nat

/-- Why propagation ended early: a refutation, by a propagator or from outside, or a fault. -/
inductive Failure
  | refuted (source : Option Nat) (cause : Inconsistency)
  | fault (cause : Fault)
  deriving Repr, DecidableEq

structure Engine (π : Type) where
  space : Space := {}
  watchList : WatchList := {}
  queue : Queue := {}
  posted : Arena (Posted π) := {}
  /-- The number of calls of `propagate`. -/
  numPropagations : Nat := 0
  journal : Journal := {}

namespace Engine
variable {π : Type} [Propagator π]

instance : Inhabited (Engine π) := ⟨{}⟩

section
variable (e : Engine π)

def store : Store := e.space.store

def level : Nat := e.space.level

def numPropagators : Nat := e.posted.size

def propagator? (id : Nat) : Option π := (e.posted.get? id).map Posted.propagator

/-- The variables that a propagator watches. -/
def scope? (id : Nat) : Option (List Var) := (e.posted.get? id).map Posted.scope

def note (n : Note) : Engine π := { e with journal := e.journal.add n }

/-! ## Building -/

/-- Declares a variable. -/
def declare (lower upper : Int) : Except Fault (Engine π) := do
  let store ← e.store.declare lower upper
  return { e with space := { e.space with store }, watchList := e.watchList.grow }

/-- Variables in increasing order, each once. -/
def scopeOf (watches : List (Var × List Event)) : List Var :=
  ((watches.map Prod.fst).mergeSort (· ≤ ·)).eraseDups

/-- Adds a propagator and queues it for its first call. -/
def post (p : π) : Except Fault (Engine π) := do
  let id := e.numPropagators
  if !Propagator.fits p then throw .mismatch
  let watches := Propagator.watches p
  let watchList ← watches.zipIdx.foldlM
    (fun w ((v, events), position) => w.watch ⟨id, position⟩ v events) e.watchList
  let initial := Propagator.cells p
  let firstCell := e.space.cells.values.size
  return { e with
    space := { e.space with cells := initial.foldl Cells.grow e.space.cells }
    watchList
    posted := e.posted.push {
      propagator := Propagator.attach p firstCell e.store
      scope := scopeOf watches
      cells := List.range' firstCell initial.length }
    queue := e.queue.enqueue id (Propagator.priority p).lane }

/-! ## Levels -/

def checkpoint : Engine π := { e with space := e.space.checkpoint }

/-- The trailed integers of a propagator. -/
def cellsOf (id : Nat) : List Int :=
  ((e.posted.get? id).map fun p => p.cells.map e.space.cells.value).getD []

/-- Tells a propagator that the space returned to an earlier level. -/
def synchronise (id : Nat) : Engine π :=
  { e with
    posted := e.posted.modify id fun p =>
      { p with propagator := Propagator.synchronise p.propagator e.space }
    journal := e.journal.add (.synchronised id (e.cellsOf id)) }

/-- Returns to a level below the current one; nothing is pending and nobody waits afterwards. -/
def restore (target : Nat) : Except Fault (Engine π) := do
  if e.level ≤ target then throw .mismatch
  let space ← e.space.restore target
  return e.posted.keys.foldl synchronise { e with space, queue := e.queue.clear }

/-! ## Propagation -/

/-- An event on its way to one of its watchers. -/
structure Delivery where
  watcher : Watcher
  event : Event
  deriving Repr, DecidableEq

/-- The pending events with their watchers, in the order of delivery. -/
def deliveries : List Delivery :=
  e.store.pending.flatMap fun (v, event) =>
    (e.watchList.affected event v).map fun watcher => ⟨watcher, event⟩

/-- Delivers an event that `source` caused. -/
def deliver (source : Option Nat) (e : Engine π) (d : Delivery) : Engine π :=
  let id := d.watcher.propagator
  match e.posted.get? id with
  | none => e
  | some p =>
    let (propagator, wanted) :=
      Propagator.notify p.propagator e.space d.watcher.position d.event
    { e with
      posted := e.posted.set id { p with propagator }
      queue :=
        if wanted && source ≠ some id then
          e.queue.enqueue id (Propagator.priority propagator).lane
        else e.queue
      journal := e.journal.add (.notified id d.watcher.position d.event (e.cellsOf id)) }

/-- Delivers all pending events. -/
def deliverAll (source : Option Nat) : Engine π :=
  e.deliveries.foldl (deliver source)
    { e with space := { e.space with store := e.store.drain } }

/-- What is left when a propagator refuted the domains. -/
def abandon (id : Nat) (cause : Inconsistency) : Engine π :=
  { e with
    space := { e.space with store := e.store.drain }
    queue := e.queue.clear
    journal := e.journal.add (.refuted id cause) }

/-- Calls a propagator. -/
def call (id : Nat) (p : Posted π) : EStateM.Result Failure (Engine π) Unit :=
  let called (after : π × Space) : Engine π :=
    { e with
      space := after.2
      posted := e.posted.set id { p with propagator := after.1 }
      numPropagations := e.numPropagations + 1
      journal := e.journal.add (.propagated id) }
  match Propagator.propagate p.propagator e.space with
  | .ok _ after => .ok () ((called after).deliverAll (some id))
  | .error (.inconsistent cause) after =>
    .error (.refuted (some id) cause) ((called after).abandon id cause)
  | .error (.fault cause) after => .error (.fault cause) (called after)

end

/-- Calls the propagator whose turn it is; answers whether there was one. -/
def turn : EStateM Failure (Engine π) Bool := fun e =>
  match e.queue.pop with
  | none => .ok false e
  | some (id, queue) =>
    match e.posted.get? id with
    | none => .ok false e
    | some p =>
      match { e with queue }.call id p with
      | .ok _ e => .ok true e
      | .error f e => .error f e

/-- A call that narrows no domain causes no events, and takes one propagator off the queue. -/
def potential (e : Engine π) : Nat :=
  e.space.numValues * (e.numPropagators + 1) + e.queue.length

/-- Calls propagators until nobody has a reason to be called. -/
def propagate (e : Engine π) : EStateM.Result Failure (Engine π) Unit :=
  descend potential turn (e.deliverAll none)

end Engine
end BranchBound
