/-! # Shuffling

The order in which the values of a decision are tried.  `shuffle` settles the positions from
the last down to the second: each is exchanged with a position drawn from those up to and
including itself.  For `k` values it draws `k - 1` numbers, below `k`, below `k - 1` and so on
down to below two. -/
namespace BranchBound

variable {α : Type} {m : Type → Type} [Monad m]

/-- Settles the positions from `last` down to one. -/
def settle (draw : Nat → m Nat) : Nat → Array α → m (Array α)
  | 0, values => pure values
  | last + 1, values => do
    let other ← draw (last + 2)
    settle draw last (values.swapIfInBounds (last + 1) other)

/-- The values in an order that `draw` decides; `draw n` is asked for a number below `n`. -/
def shuffle (draw : Nat → m Nat) (values : List α) : m (List α) := do
  return (← settle draw (values.length - 1) values.toArray).toList

end BranchBound
