import BranchBound.Constraint.DemandCapacity
import BranchBound.Matrix
import BranchBound.Propagator
import BranchBound.Word

/-! # Changeover costs

A machine pays a changeover when it produces an item and the item that it produced last is
another one.  Idle periods do not change the item that it produced last, and the first
production is free.

Plans are paths through a layered graph.  A node is a period together with the item that was
produced last, or the initial state if nothing was produced yet; its arcs are the values of
the plan of that period.  The cheapest paths from the initial state (`forward`) and to the
end (`backward`) bound the cost from below, and a value is removed if every path through it
costs more than the cost can be.

Costs saturate at `unreachable`, the cost of no path.  The tables of paths are matrices with
one row for every period, and entries are looked up as in any `Matrix`. -/
namespace BranchBound

structure ChangeoverCost where
  /-- What is produced, by period. -/
  plan : List Var
  /-- The cost of producing the second item after the first. -/
  costs : Matrix Int
  cost : Var
  deriving Repr, DecidableEq

namespace ChangeoverCost

/-- The cost of no path, and the greatest that a cost can be. -/
def unreachable : Int := Word.maxInteger

/-- The sum of two costs, within the range of costs. -/
def plus (a b : Int) : Int := max Word.minInteger (min unreachable (a + b))

variable (c : ChangeoverCost)

def fits : Bool := c.costs.numRows = c.costs.numColumns

/-- The state in which nothing was produced yet; the other states are the items before it. -/
def initial : Nat := c.costs.numRows

def states : List Nat := List.range (c.initial + 1)

/-- The state behind a value of the plan, and what it costs to get there. -/
def transition? (state : Nat) (value : Int) : Option (Nat × Int) :=
  if value = idle then some (state, 0)
  else do
    let item ← position? value
    if state = c.initial || state = item then return (item, 0)
    else return (item, ← c.costs.get? state item)

/-- The table without any path, for plans of `n` periods. -/
def blank (n : Nat) : Matrix Int := .replicate (n + 1) (c.initial + 1) unreachable

/-- Records that `state` can be reached at `period` for the given cost. -/
def improve? (t : Matrix Int) (period state : Nat) (cost : Int) : Option (Matrix Int) := do
  let known ← t.get? period state
  return t.set period state (min known cost)

/-- Extends the cheapest paths over a period with the given values. -/
def extend? (t : Matrix Int) (period : Nat) (values : List Int) : Option (Matrix Int) :=
  let cleared := c.states.foldl (fun t state => t.set (period + 1) state unreachable) t
  c.states.foldlM (fun t state => do
    let sofar ← t.get? period state
    if sofar = unreachable then return t
    else values.foldlM (fun t value => do
      let (next, cost) ← c.transition? state value
      improve? t (period + 1) next (plus sofar cost)) t) cleared

/-- The cheapest costs of the periods before a period, by the state that they end in. -/
def forward? (plan : List (List Int)) : Option (Matrix Int) :=
  plan.zipIdx.foldlM (fun t (values, period) => c.extend? t period values)
    ((c.blank plan.length).set 0 c.initial 0)

/-- The cheapest cost from a state on when the next value is one of `values`. -/
def cheapest? (t : Matrix Int) (period state : Nat) (values : List Int) : Option Int :=
  values.foldlM (fun best value => do
    let (next, cost) ← c.transition? state value
    return min best (plus cost (← t.get? (period + 1) next))) unreachable

/-- The cheapest costs from a period on, by the state that they start in. -/
def backward? (plan : List (List Int)) : Option (Matrix Int) :=
  let last := c.states.foldl (fun t state => t.set plan.length state 0) (c.blank plan.length)
  plan.zipIdx.reverse.foldlM (fun t (values, period) =>
    c.states.foldlM (fun t state => do
      return t.set period state (← c.cheapest? t period state values)) t) last

/-- The cheapest paths to and from every node. -/
structure Paths where
  forward : Matrix Int
  backward : Matrix Int
  deriving Repr, DecidableEq

def paths? (plan : List (List Int)) : Option Paths := do
  return ⟨← c.forward? plan, ← c.backward? plan⟩

/-- The cost of the cheapest plan with the given value in the given period. -/
def through? (p : Paths) (period : Nat) (value : Int) : Option Int :=
  c.states.foldlM (fun best state => do
    let sofar ← p.forward.get? period state
    if sofar = unreachable then return best
    else
      let (next, cost) ← c.transition? state value
      return min best (plus (plus sofar cost) (← p.backward.get? (period + 1) next))) unreachable

/-- Removes the values of a period that every path through them makes too expensive. -/
def filterPeriod (p : Paths) (limit : Int) (v : Var) (period : Nat) : Filter Bool := do
  Filter.each (← Filter.read (·.values v)) fun value => do
    let cost ← demand (c.through? p period value)
    if limit < cost then Filter.remove v value else return false

/-- Narrows the cost and the plan to what the cheapest paths leave of them. -/
def narrowBy (p : Paths) : Filter Bool := do
  let cheapest ← demand (p.backward.get? 0 c.initial)
  discard <| Filter.setLower c.cost cheapest
  if ← Filter.read fun s => c.plan.all s.isFixed then
    discard <| Filter.setUpper c.cost cheapest
    return false
  else
    let limit ← Filter.read (·.upper c.cost)
    Filter.each c.plan.zipIdx fun (v, period) => c.filterPeriod p limit v period

def pass : Filter Bool := do
  c.narrowBy (← demand (← Filter.read fun s => c.paths? (c.plan.map s.values)))

def filter : Filter Unit := Filter.untilStable c.pass

def watches : List (Var × List Event) :=
  c.plan.map (fun v => (v, Event.any)) ++ [(c.cost, [Event.upperBound])]

end ChangeoverCost
end BranchBound
