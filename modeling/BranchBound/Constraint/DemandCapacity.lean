import BranchBound.Matrix
import BranchBound.Propagator
import BranchBound.Sum
import BranchBound.Word

/-! # Demand and capacity

A machine produces at most one item in a period.  What is required of all items by a period
and not produced yet, the outstanding demand, has to fit into the periods up to it that are
still open.  If it just fits, these periods can neither idle nor produce an item of which
nothing is outstanding. -/
namespace BranchBound

/-- The value of a plan variable for a period in which nothing is produced. -/
def idle : Int := -1

theorem idle_lt_zero : idle < 0 := by decide

theorem item_ne_idle {item : Nat} : (item : Int) ≠ idle :=
  Int.ne_of_gt (Int.lt_of_lt_of_le idle_lt_zero (Int.natCast_nonneg item))

theorem eq_idle_or_item {x : Int} {n : Nat} (lower : idle ≤ x) (upper : x < n) :
    x = idle ∨ ∃ item : Nat, item < n ∧ x = item := by
  by_cases resting : x = idle
  · exact .inl resting
  · unfold idle at lower resting
    exact .inr ⟨x.toNat, by omega, by omega⟩

structure DemandCapacity where
  /-- What is produced, by period. -/
  plan : List Var
  /-- How often an item is required up to and including a period. -/
  required : Matrix Int
  deriving Repr, DecidableEq

namespace DemandCapacity
variable (c : DemandCapacity)

def fits : Bool := c.plan.length = c.required.numColumns

def items : List Nat := List.range c.required.numRows

/-- What the periods up to the current one are planned to produce. -/
structure Progress where
  /-- By item. -/
  produced : Array Int
  /-- The number of periods without a plan. -/
  numOpen : Int := 0
  deriving Repr, DecidableEq

/-- Counts a period with the given plan. -/
def Progress.add (p : Progress) : Option Int → Option Progress
  | none => some { p with numOpen := p.numOpen + 1 }
  | some x =>
    if x = idle then some p
    else do
      let item ← position? x
      if item < p.produced.size then
        return { p with produced := p.produced.modify item (· + 1) }
      else none

/-- What is outstanding of every item by a period. -/
def outstanding (p : Progress) (period : Nat) : List Int :=
  c.items.map fun item =>
    max 0 (Word.integer ((c.required.get? item period).getD 0 - p.produced.getD item 0))

/-- The sum of what is outstanding of all items. -/
def total (outstanding : List Int) : Int :=
  outstanding.foldl (fun sum n => Word.integer (sum + n)) 0

/-- Restricts an open period to the items of which something is outstanding. -/
def restrict (outstanding : List Int) (v : Var) : Filter Bool := do
  if ← Filter.read (·.isFixed v) then return false
  else
    let met := outstanding.zipIdx.filterMap fun (n, item) =>
      if n = 0 then some (item : Int) else none
    Filter.each (idle :: met) (Filter.remove v)

/-- Looks at the periods up to and including one. -/
def filterPeriod (seen : Bool × Progress) (v : Var) (period : Nat) : Filter (Bool × Progress) := do
  let p ← demand (seen.2.add (← Filter.read (·.fixed? v)))
  let outstanding := c.outstanding p period
  let total := total outstanding
  if p.numOpen < total then refute (.conflict .notEnoughPeriods)
  else if total = p.numOpen ∧ 0 < p.numOpen then
    return ((← Filter.each (c.plan.take (period + 1)) (restrict outstanding)) || seen.1, p)
  else return (seen.1, p)

def pass : Filter Bool := do
  let start : Progress := { produced := Array.replicate c.required.numRows 0 }
  let (changed, _) ← c.plan.zipIdx.foldlM
    (fun seen (v, period) => c.filterPeriod seen v period) (false, start)
  return changed

def filter : Filter Unit := Filter.untilStable c.pass

def watches : List (Var × List Event) := c.plan.map fun v => (v, [Event.assign])

end DemandCapacity
end BranchBound
