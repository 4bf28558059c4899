/-! # Tie breakers

A tie breaker is shown candidates with their values, one after another, and then names the
one with the best value.  **Among candidates of equal value the first wins**: a later one has
to be strictly better. -/
namespace BranchBound

/-- Which values are better. -/
inductive Direction
  | minimum
  | maximum
  deriving Repr, DecidableEq

structure TieBreaker (α β : Type) where
  direction : Direction
  /-- The best candidate so far, with its value. -/
  best : Option (α × β) := none
  deriving Repr, DecidableEq

namespace TieBreaker
variable {α β : Type} [LT β] [DecidableLT β]

/-- Whether a value is strictly better than another. -/
def improves (direction : Direction) (value other : β) : Bool :=
  match direction with
  | .minimum => decide (value < other)
  | .maximum => decide (other < value)

def consider (t : TieBreaker α β) (candidate : α) (value : β) : TieBreaker α β :=
  match t.best with
  | none => { t with best := some (candidate, value) }
  | some (_, other) =>
    if improves t.direction value other then { t with best := some (candidate, value) } else t

omit [LT β] [DecidableLT β] in
/-- The best candidate, if there was any; the tie breaker forgets all of them. -/
def select (t : TieBreaker α β) : Option α × TieBreaker α β :=
  (t.best.map Prod.fst, { t with best := none })

end TieBreaker
end BranchBound
