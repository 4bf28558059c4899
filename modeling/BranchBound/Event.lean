/-! # Domain events

What can happen to the domain of a variable, as far as constraints are told about it. -/
namespace BranchBound

inductive Event
  /-- The domain became a single value. -/
  | assign
  | lowerBound
  | upperBound
  /-- A value strictly between the bounds was removed. -/
  | removal
  deriving Repr, DecidableEq

namespace Event

/-- The events of a moved bound. -/
def bounds : List Event := [.lowerBound, .upperBound]

/-- Every event. -/
def any : List Event := [.assign, .lowerBound, .upperBound, .removal]

theorem mem_any (e : Event) : e ∈ any := by cases e <;> simp [any]

end Event
end BranchBound
