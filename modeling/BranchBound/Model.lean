import BranchBound.Engine

/-! # Models

What a search starts from: the ranges of the variables, values that are taken out of them,
constraints, the variable that is minimised, and the variables to decide on. -/
namespace BranchBound

structure Model (π : Type) where
  /-- The least and the greatest value of every variable. -/
  ranges : List (Int × Int)
  holes : List (Var × Int) := []
  constraints : List π
  objective : Var := 0
  decisions : List Var := []

namespace Model
variable {π : Type} [Propagator π]

def declareAll (m : Model π) (e : Engine π) : Except Fault (Engine π) :=
  m.ranges.foldlM (fun e (lower, upper) => e.declare lower upper) e

/-- Takes a value out of the range of a variable, unless it is the only one. -/
def punch (e : Engine π) (hole : Var × Int) : Except Fault (Engine π) :=
  let result (store : Store) : Engine π := { e with space := { e.space with store } }
  match Store.remove hole.1 hole.2 e.store with
  | .ok _ store | .error (.inconsistent _) store => .ok (result store)
  | .error (.fault cause) _ => .error cause

/-- Sets a model up in an engine. -/
def load (m : Model π) (e : Engine π := {}) : Except Fault (Engine π) := do
  let e ← m.declareAll e
  let e ← m.holes.foldlM punch e
  m.constraints.foldlM (fun e c => e.post c) e

end Model
end BranchBound
