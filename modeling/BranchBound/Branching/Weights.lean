import BranchBound.Branching.TieBreaker
import BranchBound.Store

/-! # Weights

Which decision to branch on next.  Every variable has a weight, which starts at one and
grows by one with every refutation by a propagator that watches the variable.  The next
decision is an unfixed one whose number of values is smallest in proportion to its weight;
among equals, the first in the list of decisions. -/
namespace BranchBound

/-- A quotient of natural numbers with a positive denominator, ordered by value. -/
structure Ratio where
  numerator : Nat
  denominator : Nat
  deriving Repr, DecidableEq

instance : LT Ratio where
  lt a b := a.numerator * b.denominator < b.numerator * a.denominator

instance : DecidableLT Ratio := fun a b =>
  inferInstanceAs (Decidable (a.numerator * b.denominator < b.numerator * a.denominator))

structure Weights where
  /-- The weights of the first variables; all others have weight one. -/
  known : Arena Nat := {}
  deriving Repr, DecidableEq

namespace Weights

instance : Inhabited Weights := ⟨{}⟩

def weight (w : Weights) (v : Var) : Nat := (w.known.get? v).getD 1

/-- Adds one to the weight of a variable. -/
def increase (w : Weights) (v : Var) : Weights :=
  ⟨(w.known.accommodate v 1).modify v (· + 1)⟩

/-- Adds one to the weight of every variable in the scope of a refutation. -/
def blame (w : Weights) (scope : List Var) : Weights := scope.foldl increase w

end Weights

/-- The choice of the next decision, by a tie breaker that looks for the smallest ratio. -/
structure Selector where
  decisions : List Var
  weights : Weights := {}
  breaker : TieBreaker Var Ratio := { direction := .minimum }
  deriving Repr, DecidableEq

namespace Selector

/-- A tie breaker that looks for the greatest ratio does not fit. -/
def withBreaker (decisions : List Var) (breaker : TieBreaker Var Ratio) : Except Fault Selector :=
  if breaker.direction = .minimum then .ok { decisions, breaker } else .error .mismatch

def weight (c : Selector) (v : Var) : Nat := c.weights.weight v

def blame (c : Selector) (scope : List Var) : Selector :=
  { c with weights := c.weights.blame scope }

/-- Shows a decision to the tie breaker unless it is fixed. -/
def consider (c : Selector) (s : Store) (v : Var) : Except Fault Selector :=
  match s.domain? v with
  | none => .error .outOfRange
  | some d =>
    if d.isFixed then .ok c
    else .ok { c with breaker := c.breaker.consider v ⟨d.size, c.weight v⟩ }

/-- The next decision to branch on; there is none if all are fixed. -/
def select (c : Selector) (s : Store) : Except Fault (Option Var × Selector) := do
  let c ← c.decisions.foldlM (fun c v => c.consider s v) c
  let (v, breaker) := c.breaker.select
  return (v, { c with breaker })

end Selector
end BranchBound
