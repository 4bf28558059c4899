/-! # Conditions that end a search

A condition is asked between decisions whether the search should stop, and is told about every
decision.  It is a value, so a search that is resumed can be given a fresh one.  A search takes
conditions of any type that is an instance of `Stopping`; `Condition` is the one in use. -/
namespace BranchBound

/-- What a search wants of a condition. -/
class Stopping (κ : Type) where
  /-- Whether to stop now, and the condition after it was asked. -/
  ask : κ → Bool × κ
  /-- The condition after a decision. -/
  decided : κ → κ

inductive Condition
  | indefinite
  /-- Stops when `made` decisions are at least `budget`. -/
  | decisions (budget made : Nat)
  /-- Stops once it is raised from outside. -/
  | flag (raised : Bool)
  /-- Stops once a time has come. -/
  | deadline (passed : Bool)
  /-- Stops as soon as one of two conditions does. -/
  | either (first second : Condition)
  deriving Repr, DecidableEq

namespace Condition

/-- A budget of which nothing is spent. -/
def budget (limit : Nat) : Condition := .decisions limit 0

/-- A condition that may be missing. -/
def ofOption : Option Condition → Condition
  | none => .indefinite
  | some c => c

def shouldStop : Condition → Bool
  | .indefinite => false
  | .decisions budget made => budget ≤ made
  | .flag raised => raised
  | .deadline passed => passed
  | .either first second => first.shouldStop || second.shouldStop

/-- The condition after a decision. -/
def decided : Condition → Condition
  | .decisions budget made => .decisions budget (made + 1)
  | .either first second => .either first.decided second.decided
  | c => c

instance : Stopping Condition where
  ask c := (c.shouldStop, c)
  decided := decided

/-- The number of flags in a condition. -/
def numFlags : Condition → Nat
  | .flag _ => 1
  | .either first second => first.numFlags + second.numFlags
  | _ => 0

/-- Raises a flag; flags are numbered from left to right. -/
def raiseFlag (k : Nat) : Condition → Condition
  | .flag raised => .flag (raised || k = 0)
  | .either first second =>
    if k < first.numFlags then .either (first.raiseFlag k) second
    else .either first (second.raiseFlag (k - first.numFlags))
  | c => c

end Condition
end BranchBound
