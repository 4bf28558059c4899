import BranchBound.Store

/-! # Solutions

A complete assignment, with the value of the variable that is minimised. -/
namespace BranchBound

structure Solution where
  values : Arena Int
  objective : Int
  deriving Repr, DecidableEq

namespace Solution

/-- The value of a variable that is known to exist. -/
def value (s : Solution) (v : Var) : Int := (s.values.get? v).getD 0

/-- The first variable that is not fixed. -/
def unfixed? (s : Store) : Option Var := s.domains.keys.find? fun v => !s.isFixed v

/-- The assignment that a store has come down to. -/
def ofStore (s : Store) (objective : Var) : Except Fault Solution :=
  match unfixed? s, s.domain? objective with
  | some v, _ => .error (.unfixedVariable v)
  | none, none => .error .outOfRange
  | none, some d => .ok ⟨s.domains.map Domain.lower, d.lower⟩

end Solution
end BranchBound
