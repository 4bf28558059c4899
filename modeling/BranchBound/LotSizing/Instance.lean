import BranchBound.Error
import BranchBound.Fault
import BranchBound.Matrix
import BranchBound.Sum

/-! # Lot sizing

A machine produces at most one item in each period.  Every demand has to be produced by the
period in which it is due, and no more than is demanded.  Producing early costs a stocking cost
per unit and period, and switching from one item to another costs a changeover cost.

The costs of an `Instance` are small enough for the value of a variable, whatever the plan.  Amounts and
costs are added up exactly here.  In a machine their sums have 64 bits and are cut beyond; no amounts are
meant to come near that. -/
namespace BranchBound.LotSizing

/-- What is produced in every period; nothing if the machine is idle. -/
abbrev Plan := List (Option Nat)

/-- The sums of the entries of a row up to and including each. -/
def runningSums (sofar : Int) : List Int → List Int
  | [] => []
  | x :: row => (sofar + x) :: runningSums (sofar + x) row

/-- How much of every item is due by every period; the sums are not cut. -/
def dueBy (demands : Matrix Int) : Matrix Int :=
  let sums := (demands.rows.map fun row => (runningSums 0 row).toArray).toArray
  .ofFn demands.numRows demands.numColumns fun item period => (sums.getD item #[]).getD period 0

/-- The most that stocking can cost: everything is stocked over the whole horizon. -/
def maxStockingCost (stockingCosts : List Int) (demands : Matrix Int) : Int :=
  let total (item : Nat) := sumInt ((demands.row? item).getD [])
  sumInt (stockingCosts.zipIdx.map fun (cost, item) => cost * total item * demands.numColumns)

/-- The most that changeovers can cost: the dearest in every period. -/
def maxChangeoverCost (changeovers demands : Matrix Int) : Int :=
  (changeovers.toList.max?.getD 0) * demands.numColumns

/-- The first thing that is wrong with an instance.  No table is as large as it may not be at all: the memory
ends before. -/
def defect? (changeovers : Matrix Int) (stockingCosts : List Int) (demands : Matrix Int) :
    Option InvalidInput :=
  let numItems := stockingCosts.length
  if numItems = 0 then some .noItems
  else if changeovers.numRows ≠ numItems ∨ changeovers.numColumns ≠ numItems then
    some (.changeoversNotSquare numItems)
  else if demands.numRows ≠ numItems ∨ demands.numColumns = 0 then
    some (.demandsNotRectangular numItems)
  else if (changeovers.toList ++ stockingCosts ++ demands.toList).any (· < 0) then
    some .negativeAmount
  else if Word.maxInteger < demands.entries.size ∨
      Word.maxValue < maxStockingCost stockingCosts demands + maxChangeoverCost changeovers demands then
    some .costsTooGreat
  else none

structure Instance where
  /-- The cost of producing the second item after the first. -/
  changeovers : Matrix Int
  /-- By item. -/
  stockingCosts : List Int
  /-- By item and period. -/
  demands : Matrix Int
  sound : defect? changeovers stockingCosts demands = none
  deriving DecidableEq

namespace Instance

/-- The instance with the given rows. -/
def ofRows (changeovers : List (List Int)) (stockingCosts : List Int) (demands : List (List Int)) :
    Except InvalidInput Instance :=
  let numItems := stockingCosts.length
  match Matrix.ofRows? changeovers, Matrix.ofRows? demands with
  | some changeovers, some demands =>
    match h : defect? changeovers stockingCosts demands with
    | some cause => .error cause
    | none => .ok ⟨changeovers, stockingCosts, demands, h⟩
  | some changeovers, none =>
    if numItems = 0 then .error .noItems
    else if changeovers.numRows ≠ numItems ∨ changeovers.numColumns ≠ numItems then
      .error (.changeoversNotSquare numItems)
    else .error (.demandsNotRectangular numItems)
  | none, _ => .error (if numItems = 0 then .noItems else .changeoversNotSquare numItems)

variable (p : Instance)

def numItems : Nat := p.stockingCosts.length

def items : List Nat := List.range p.numItems

/-- The number of periods. -/
def horizon : Nat := p.demands.numColumns

/-- How much of every item is due by every period. -/
def required : Matrix Int := dueBy p.demands

/-- An item after itself needs no changeover. -/
def changeoverCost? (first second : Nat) : Option Int :=
  if first = second then some 0 else p.changeovers.get? first second

/-- Looks up every changeover cost. -/
def changeoverCosts : Matrix Int :=
  .ofFn p.numItems p.numItems fun first second => (p.changeoverCost? first second).getD 0

/-- The changeover cost in every period, when `last` was produced last before. -/
def chargesAfter (last : Option Nat) : Plan → Option (List Int)
  | [] => some []
  | none :: plan => do return 0 :: (← chargesAfter last plan)
  | some item :: plan => do
    let cost ← match last with
      | none => some 0
      | some last => p.changeoverCost? last item
    return cost :: (← chargesAfter (some item) plan)

/-- The changeover cost in every period; the first production needs no changeover. -/
def charges? (plan : Plan) : Option (List Int) := p.chargesAfter none plan

/-- The cost of what is in stock at the end of a period. -/
def stockCost? (required : Matrix Int) (produced : Array Int) (period : Nat) : Option Int := do
  let costs ← p.stockingCosts.zipIdx.mapM fun (cost, item) => do
    let stock := produced.getD item 0 - (← required.get? item period)
    return max stock 0 * cost
  return sumInt costs

/-- The stocking cost of the periods from `period` on, given what was produced before. -/
def stockingAfter (required : Matrix Int) (produced : Array Int) (period : Nat) :
    Plan → Option Int
  | [] => some 0
  | item :: plan => do
    let produced ← match item with
      | none => some produced
      | some item => if item < p.numItems then some (produced.modify item (· + 1)) else none
    return (← p.stockCost? required produced period) +
      (← stockingAfter required produced (period + 1) plan)

/-- The cost of stocking what is produced before it is due. -/
def stockingCost? (plan : Plan) : Option Int :=
  p.stockingAfter p.required (Array.replicate p.numItems 0) 0 plan

end Instance
end BranchBound.LotSizing
