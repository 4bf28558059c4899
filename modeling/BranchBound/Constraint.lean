import BranchBound.Constraint.ChangeoverCost
import BranchBound.Constraint.Circuit
import BranchBound.Constraint.CumulativeProduction
import BranchBound.Constraint.LinearSum
import BranchBound.Constraint.ProductionLink
import BranchBound.Constraint.StockingCost
import BranchBound.Constraint.TimeWindow

/-! # Constraints

The constraints that models are made of.  Apart from `circuit` none of them has a memory, and
all of them are called for every event that they watch. -/
namespace BranchBound

inductive Constraint
  | circuit (c : Circuit)
  | timeWindow (c : TimeWindow)
  | linearSum (c : LinearSum)
  | productionLink (c : ProductionLink)
  | cumulativeProduction (c : CumulativeProduction)
  | demandCapacity (c : DemandCapacity)
  | stockingCost (c : StockingCost)
  | changeoverCost (c : ChangeoverCost)
  deriving Repr, DecidableEq

namespace Constraint

def name : Constraint → String
  | .circuit _ => "Circuit"
  | .timeWindow _ => "TimeWindow"
  | .linearSum _ => "LinearSum"
  | .productionLink _ => "ProductionLink"
  | .cumulativeProduction _ => "CumulativeProduction"
  | .demandCapacity _ => "DemandCapacity"
  | .stockingCost _ => "StockingCost"
  | .changeoverCost _ => "ChangeoverCost"

def priority : Constraint → Priority
  | .linearSum _ | .productionLink _ => .high
  | .circuit _ | .cumulativeProduction _ | .demandCapacity _ => .medium
  | .timeWindow _ | .stockingCost _ => .low
  | .changeoverCost _ => .veryLow

def fits : Constraint → Bool
  | .cumulativeProduction c => c.fits
  | .demandCapacity c => c.fits
  | .stockingCost c => c.fits
  | .changeoverCost c => c.fits
  | .circuit _ | .timeWindow _ | .linearSum _ | .productionLink _ => true

def watches : Constraint → List (Var × List Event)
  | .circuit c => c.watches
  | .timeWindow c => c.watches
  | .linearSum c => c.watches
  | .productionLink c => c.watches
  | .cumulativeProduction c => c.watches
  | .demandCapacity c => c.watches
  | .stockingCost c => c.watches
  | .changeoverCost c => c.watches

def cells : Constraint → List Int
  | .circuit c => c.initialCells
  | _ => []

def attach (c : Constraint) (firstCell : Nat) (s : Store) : Constraint :=
  match c with
  | .circuit c => .circuit (c.attach firstCell s)
  | c => c

def notify (c : Constraint) (i : Nat) (event : Event) : Constraint :=
  match c with
  | .circuit c => .circuit (c.notify i event)
  | c => c

def synchronise : Constraint → Constraint
  | .circuit c => .circuit c.synchronise
  | c => c

def propagate (c : Constraint) (s : Space) : EStateM.Result Halt (Constraint × Space) Unit :=
  match c with
  | .circuit c =>
    match c.propagate s with
    | .ok _ (c, s) => .ok () (.circuit c, s)
    | .error e (c, s) => .error e (.circuit c, s)
  | .timeWindow d => d.filter.run c s
  | .linearSum d => d.filter.run c s
  | .productionLink d => d.filter.run c s
  | .cumulativeProduction d => d.filter.run c s
  | .demandCapacity d => d.filter.run c s
  | .stockingCost d => d.filter.run c s
  | .changeoverCost d => d.filter.run c s

end Constraint

instance : Propagator Constraint where
  name := Constraint.name
  priority := Constraint.priority
  fits := Constraint.fits
  watches := Constraint.watches
  cells := Constraint.cells
  attach := Constraint.attach
  notify c _ i event := (c.notify i event, true)
  synchronise c _ := c.synchronise
  propagate := Constraint.propagate

end BranchBound
