import BranchBound.Matrix
import BranchBound.Propagator
import BranchBound.Sum

/-! # Stocking costs

What is produced before it is due lies in stock, and every unit costs its item's stocking
cost for every period.  The cost is bounded by the least and by the most stock that a
completion of the 0/1 indicators can hold which produces every item as often as it is
required in total: the least stock produces as late as possible, the most as early as
possible.

Stocks and costs are computed without a limit.  In a machine they have 64 bits and are cut beyond, which
no amounts are meant to reach. -/
namespace BranchBound

structure StockingCost where
  /-- The indicators, by item and period. -/
  produced : Matrix Var
  /-- How often an item is required up to and including a period. -/
  required : Matrix Int
  /-- By item. -/
  stockingCosts : List Int
  cost : Var
  deriving Repr, DecidableEq

namespace StockingCost
variable (c : StockingCost)

def fits : Bool :=
  c.produced.numRows = c.required.numRows &&
    c.produced.numColumns = c.required.numColumns &&
    c.produced.numRows = c.stockingCosts.length

/-- An indicator: what it is certain to produce, and what it may produce besides. -/
structure Indicator where
  certain : Int
  possible : Int
  deriving Repr, DecidableEq

def Indicator.ofVar (s : Store) (v : Var) : Indicator :=
  ⟨s.lower v, if s.isFixed v then 0 else 1⟩

/-- A least and a most. -/
structure Bounds where
  least : Int := 0
  most : Int := 0
  deriving Repr, DecidableEq

def Bounds.add (b b' : Bounds) : Bounds := ⟨b.least + b'.least, b.most + b'.most⟩

def Bounds.scale (b : Bounds) (factor : Int) : Bounds := ⟨b.least * factor, b.most * factor⟩

/-- The stock at the end of a period, given the indicators up to it and those behind it: at
least what cannot be produced later is produced by now, and at most what is not certain to
be produced later. -/
def stock (total required : Int) (before after : List Indicator) : Bounds :=
  let certain := sumInt (before.map (·.certain))
  let possible := sumInt (before.map (·.possible))
  let certainAfter := sumInt (after.map (·.certain))
  let possibleAfter := sumInt (after.map (·.possible))
  { least := max 0 (max certain (total - certainAfter - possibleAfter) - required)
    most := max 0 (min (certain + possible) (total - certainAfter) - required) }

/-- The stock of an item, summed over all periods. -/
def stocks (indicators : List Indicator) (required : List Int) : Bounds :=
  let total := required.getLast?.getD 0
  required.zipIdx.foldl
    (fun sum (due, period) =>
      sum.add (stock total due (indicators.take (period + 1)) (indicators.drop (period + 1)))) {}

/-- The cost of the stocks of all items. -/
def bounds (s : Store) : Bounds :=
  ((c.produced.rows.zip c.required.rows).zip c.stockingCosts).foldl
    (fun sum ((row, required), cost) =>
      sum.add ((stocks (row.map (Indicator.ofVar s)) required).scale cost)) {}

def filter : Filter Unit := do
  let b ← Filter.read c.bounds
  discard <| Filter.inTurn [Filter.setLower c.cost b.least, Filter.setUpper c.cost b.most]

def watches : List (Var × List Event) := c.produced.toList.map fun v => (v, [Event.assign])

end StockingCost
end BranchBound
