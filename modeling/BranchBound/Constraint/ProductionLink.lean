import BranchBound.Propagator

/-! # Production links

The plan of one period and the indicators of the items that it may produce: the indicator
of an item is 1 exactly if the plan is that item.  One pass from the indicators to the plan
and one back are enough. -/
namespace BranchBound

structure ProductionLink where
  plan : Var
  /-- Indexed by item. -/
  indicators : List Var
  deriving Repr, DecidableEq

namespace ProductionLink
variable (c : ProductionLink)

/-- Narrows the plan by the indicator of an item. -/
def narrowPlan (indicator : Var) (item : Nat) : Filter Bool := do
  match ← Filter.read (·.fixed? indicator) with
  | none => return false
  | some 1 => Filter.assign c.plan item
  | some _ => Filter.remove c.plan item

/-- Narrows the indicator of an item by the plan, whose only value was `planned?`. -/
def narrowIndicator (planned? : Option Int) (indicator : Var) (item : Nat) : Filter Bool := do
  let possible ← Filter.read (·.contains c.plan item)
  if planned? = some (item : Int) then Filter.setLower indicator 1
  else if possible then return false
  else Filter.setUpper indicator 0

def filter : Filter Unit := do
  discard <| Filter.each c.indicators.zipIdx fun (indicator, item) => c.narrowPlan indicator item
  let planned? ← Filter.read (·.fixed? c.plan)
  discard <| Filter.each c.indicators.zipIdx fun (indicator, item) =>
    c.narrowIndicator planned? indicator item

def watches : List (Var × List Event) :=
  c.indicators.map (fun v => (v, [Event.assign])) ++ [(c.plan, Event.any)]

end ProductionLink
end BranchBound
