/-! # Faults and halts

Two things end a computation early.  A **fault** is a broken precondition of the
caller: an index outside of a table, a level that was never opened, a range without
numbers.  An **inconsistency** is an ordinary event of a search: the domains admit no
solution below the current node, and the search has to turn back.

Both are values.  A computation that ends early still hands back the state that it
reached (`EStateM`), because what was narrowed before the end stays narrowed until the
caller restores an earlier level.  -/
namespace BranchBound

/-- A variable is its position in the store. -/
abbrev Var := Nat

/-- Why a computation could not go on. -/
inductive Fault
  /-- A position outside of a table. -/
  | outOfRange
  /-- Arguments that do not fit together. -/
  | mismatch
  /-- A random number was asked for from an empty range. -/
  | emptyRange
  /-- A variable was declared with more below than above. -/
  | emptyVariable (lower upper : Int)
  /-- Changes can only be undone back to a level that is still open. -/
  | levelNotOpen (target level : Nat)
  /-- Only a complete assignment is a solution. -/
  | unfixedVariable (v : Var)
  deriving Repr, DecidableEq

/-- The explanation of a fault, where there is more to say than that it happened. -/
def Fault.explanation : Fault → Option String
  | .emptyVariable lower upper =>
    some s!"cannot create a variable with the empty domain [{lower}, {upper}]"
  | .levelNotOpen target level =>
    some s!"cannot synchronise to checkpoint {target} from checkpoint {level}"
  | .unfixedVariable v => some s!"a solution requires every variable to be fixed but x{v} is not"
  | .outOfRange | .mismatch | .emptyRange => none

/-- The reasons other than an empty domain for which a constraint cannot hold. -/
inductive Conflict
  | prematureCycle
  | noSuccessor
  | demandNotMet
  | overProduction
  | notEnoughPeriods
  /-- Raised on request, see `Probe`. -/
  | provoked
  deriving Repr, DecidableEq

def Conflict.description : Conflict → String
  | .prematureCycle => "the fixed arcs close a cycle which does not visit every node"
  | .noSuccessor => "a node is not the predecessor of any other node"
  | .demandNotMet => "too few periods remain to meet the cumulative demand of an item"
  | .overProduction => "an item is produced more often than it is demanded"
  | .notEnoughPeriods => "the outstanding demand exceeds the number of open periods"
  | .provoked => "probe"

/-- Why the current domains admit no solution. -/
inductive Inconsistency
  /-- A narrowing would have left a variable without values. -/
  | emptyDomain
  | conflict (cause : Conflict)
  deriving Repr, DecidableEq

/-- What ends the filtering of a constraint before it is done. -/
inductive Halt
  | inconsistent (cause : Inconsistency)
  | fault (cause : Fault)
  deriving Repr, DecidableEq

section
variable {σ α : Type}

/-- Ends the computation with a fault. -/
def fail (cause : Fault) : EStateM Halt σ α := throw (.fault cause)

/-- Ends the computation because the domains admit no solution. -/
def refute (cause : Inconsistency) : EStateM Halt σ α := throw (.inconsistent cause)

/-- A look-up that is not allowed to miss. -/
def demand : Option α → EStateM Halt σ α
  | some a => pure a
  | none => fail .outOfRange

theorem demand_some (a : α) (s : σ) : (demand (some a) : EStateM Halt σ α) s = .ok a s := rfl

end

/-- The position that a number stands for; a negative number stands for none. -/
def position? (value : Int) : Option Nat := if 0 ≤ value then some value.toNat else none

theorem position?_ofNat (n : Nat) : position? n = some n := by simp [position?]

theorem eq_of_position? {value : Int} {n : Nat} (h : position? value = some n) : value = n := by
  unfold position? at h
  split at h <;> cases h
  omega

end BranchBound
