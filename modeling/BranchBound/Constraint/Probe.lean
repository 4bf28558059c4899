import BranchBound.Propagator

/-! # Probes

A propagator that carries out a fixed list of narrowings whenever it is called, and fails on
request.  Together with the journal of an engine it shows when an engine calls whom.  A probe
can count its calls in a trailed integer, and it can ask not to be called because of some
events. -/
namespace BranchBound

/-- One narrowing of a variable by a number. -/
inductive Action
  | setLower (v : Var) (x : Int)
  | setUpper (v : Var) (x : Int)
  | remove (v : Var) (x : Int)
  | assign (v : Var) (x : Int)
  deriving Repr, DecidableEq

def Action.run : Action → Filter Bool
  | .setLower v x => Filter.setLower v x
  | .setUpper v x => Filter.setUpper v x
  | .remove v x => Filter.remove v x
  | .assign v x => Filter.assign v x

structure Probe where
  /-- What the probe is called by its owner. -/
  tag : Int
  watches : List (Var × List Event)
  priority : Priority
  /-- The events that it does not want to be called for. -/
  ignored : List Event := []
  actions : List Action := []
  /-- Fails when this variable is fixed after the actions. -/
  failIfFixed : Option Var := none
  /-- Where it starts counting its calls, if it does. -/
  countFrom : Option Int := none
  firstCell : Nat := 0
  deriving Repr, DecidableEq

namespace Probe
variable (p : Probe)

def count : Filter Unit := do
  if p.countFrom.isSome then
    let n := (← get).cells.value p.firstCell
    Filter.assignCell p.firstCell (n + 1)

def provoke : Filter Unit := do
  match p.failIfFixed with
  | none => pure ()
  | some v =>
    let d ← demand (← Filter.read (·.domain? v))
    if d.isFixed then refute (.conflict .provoked)

def filter : Filter Unit := do
  p.count
  p.actions.forM fun action => discard action.run
  p.provoke

end Probe

instance : Propagator Probe where
  name _ := "Probe"
  priority := Probe.priority
  fits _ := true
  watches := Probe.watches
  cells p := p.countFrom.toList
  attach p firstCell _ := { p with firstCell }
  notify p _ _ event := (p, !p.ignored.contains event)
  synchronise p _ := p
  propagate p := p.filter.run p

end BranchBound
