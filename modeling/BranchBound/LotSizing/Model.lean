import BranchBound.Constraint
import BranchBound.LotSizing.Schedule
import BranchBound.Model
import BranchBound.Solution

/-! # The model of a plan

The decisions are the plans of the periods: an item, or idle.  Further variables indicate for
every item and period whether the item is produced, and hold the stocking cost, the changeover
cost and their sum, which is minimised. -/
namespace BranchBound.LotSizing
namespace Instance
variable (p : Instance)

/-- The variable for the plan of a period. -/
def planned (period : Nat) : Var := period

/-- The variable that indicates whether an item is produced in a period. -/
def indicator (item period : Nat) : Var := p.horizon + item * p.horizon + period

/-- The variable for the cost of stocking. -/
def stocking : Var := p.horizon + p.numItems * p.horizon

/-- The variable for the cost of changeovers. -/
def changeover : Var := p.stocking + 1

/-- The variable for the sum of both costs. -/
def total : Var := p.stocking + 2

def periods : List Nat := List.range p.horizon

def plan : List Var := p.periods.map planned

def maxStocking : Int := maxStockingCost p.stockingCosts p.demands

def maxChangeover : Int := maxChangeoverCost p.changeovers p.demands

def productionLink (period : Nat) : ProductionLink where
  plan := planned period
  indicators := p.items.map fun item => p.indicator item period

def cumulativeProduction (required : Matrix Int) (item : Nat) : CumulativeProduction where
  produced := p.periods.map fun period => p.indicator item period
  required := (required.row? item).getD []

def demandCapacity (required : Matrix Int) : DemandCapacity where
  plan := p.plan
  required

def stockingCost (required : Matrix Int) : StockingCost where
  produced := .ofFn p.numItems p.horizon p.indicator
  required
  stockingCosts := p.stockingCosts
  cost := p.stocking

def changeoverCost : ChangeoverCost where
  plan := p.plan
  costs := p.changeoverCosts
  cost := p.changeover

def model : Model Constraint :=
  let required := p.required
  { ranges :=
      p.periods.map (fun _ => (idle, (p.numItems : Int) - 1)) ++
        List.replicate (p.numItems * p.horizon) (0, 1) ++
        [(0, p.maxStocking), (0, p.maxChangeover), (0, p.maxStocking + p.maxChangeover)]
    constraints :=
      p.periods.map (fun period => .productionLink (p.productionLink period)) ++
        p.items.map (fun item => .cumulativeProduction (p.cumulativeProduction required item)) ++
        [.demandCapacity (p.demandCapacity required), .stockingCost (p.stockingCost required),
          .changeoverCost p.changeoverCost,
          .linearSum ⟨[p.stocking, p.changeover], p.total⟩]
    objective := p.total
    decisions := p.plan }

/-- The schedule that a solution stands for. -/
def schedule (s : Solution) : Schedule :=
  let plan : Plan := p.periods.map fun period => position? (s.value (planned period))
  { plan
    stockingCost := s.value p.stocking
    changeoverCost := s.value p.changeover
    totalCost := s.objective
    charges := (p.charges? plan).getD [] }

end Instance
end BranchBound.LotSizing
