import BranchBound.LotSizing.Instance

/-! # Schedules

What the solver reports of a plan, and the check that it is a plan for the instance.  Amounts and costs
are compared with exact sums, as those of an instance are. -/
namespace BranchBound.LotSizing

structure Schedule where
  plan : Plan
  stockingCost : Int
  changeoverCost : Int
  totalCost : Int
  /-- The changeover cost in every period. -/
  charges : List Int := []
  deriving Repr, DecidableEq

/-- What is produced in every period; a dash where the machine is idle. -/
def Plan.render (plan : Plan) : String :=
  " ".intercalate (plan.map fun item => (item.map toString).getD "-")

namespace Schedule
variable (p : Instance)

/-- The first item of which too little was produced by a period. -/
def missed? (required : Matrix Int) (produced : Array Int) (period : Nat) : Option Breakdown :=
  p.items.findSome? fun item => do
    let due ← required.get? item period
    let amount := produced.getD item 0
    if amount < due then some (.demandMissed item period amount due) else none

/-- Checks the periods from `period` on, given what was produced before; answers what was
produced in the end. -/
def checkPeriods (required : Matrix Int) (produced : Array Int) (period : Nat) :
    Plan → Except Breakdown (Array Int)
  | [] => .ok produced
  | none :: plan =>
    match missed? p required produced period with
    | some cause => .error cause
    | none => checkPeriods required produced (period + 1) plan
  | some item :: plan =>
    if p.numItems ≤ item then .error (.unknownItem period item)
    else
      let produced := produced.modify item (· + 1)
      match missed? p required produced period with
      | some cause => .error cause
      | none => checkPeriods required produced (period + 1) plan

/-- The first thing that is wrong with a schedule; an index outside of a table is a fault. -/
def check (s : Schedule) : Except Fault (Option Breakdown) := do
  if s.plan.length ≠ p.horizon then return some (.wrongHorizon s.plan.length p.horizon)
  let required := p.required
  match checkPeriods p required (Array.replicate p.numItems 0) 0 s.plan with
  | .error cause => return some cause
  | .ok produced =>
    let total? (item : Nat) := required.get? item (p.horizon - 1)
    match p.items.find? fun item => some (produced.getD item 0) ≠ total? item with
    | some item => return some (.overproduced item)
    | none =>
      match p.charges? s.plan, p.stockingCost? s.plan with
      | some charges, some stocking =>
        let changeover := sumInt charges
        if changeover ≠ s.changeoverCost ∨ stocking ≠ s.stockingCost ∨
            s.totalCost ≠ changeover + stocking then
          return some
            (.wrongCosts stocking changeover s.stockingCost s.changeoverCost s.totalCost)
        else return none
      | _, _ => throw .outOfRange

end Schedule
end BranchBound.LotSizing
