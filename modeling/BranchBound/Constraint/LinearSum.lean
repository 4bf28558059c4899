import BranchBound.Propagator
import BranchBound.Sum

/-! # Linear sums

A variable is the sum of others.  Only bounds are looked at: the total lies between the sum
of the lower and the sum of the upper bounds, and a term is at least what is missing to the
least total when every other term is at its upper bound, and at most what is left of the
greatest total when every other term is at its lower bound. -/
namespace BranchBound

structure LinearSum where
  terms : List Var
  total : Var
  deriving Repr, DecidableEq

namespace LinearSum
variable (c : LinearSum)

/-- The sums of the lower and of the upper bounds of the terms. -/
def range (s : Store) : Int × Int := (sumInt (c.terms.map s.lower), sumInt (c.terms.map s.upper))

/-- Bounds a term by the bounds of the total and the sums of all bounds. -/
def boundTerm (sums total : Int × Int) (term : Var) : Filter Bool := do
  let lower ← Filter.read (·.lower term)
  let upper ← Filter.read (·.upper term)
  Filter.narrow term (total.1 - (sums.2 - upper)) (total.2 - (sums.1 - lower))

def pass : Filter Bool := do
  let sums ← Filter.read c.range
  let changed ← Filter.narrow c.total sums.1 sums.2
  let total ← Filter.read fun s => (s.lower c.total, s.upper c.total)
  return (← Filter.each c.terms (boundTerm sums total)) || changed

def filter : Filter Unit := Filter.untilStable c.pass

def watches : List (Var × List Event) := (c.terms ++ [c.total]).map fun v => (v, Event.bounds)

end LinearSum
end BranchBound
