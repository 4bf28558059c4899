import BranchBound.Engine

/-! # Messages

The journal of an engine in words: which propagators refuted the domains and why, and which
solutions were found.  Calls that went well have no message. -/
namespace BranchBound

/-- How messages refer to a propagator. -/
def propagatorId (id : Nat) : String := s!"PropagatorId({id})"

def Inconsistency.describe : Inconsistency → String
  | .emptyDomain => "EmptyDomain"
  | .conflict cause =>
    "Conflict(PropagatorConflict \x7b description: \"" ++ cause.description ++ "\" \x7d)"

namespace Engine
variable {π : Type} [Propagator π] (e : Engine π)

def message? : Note → Option String
  | .refuted id cause =>
    let name := ((e.propagator? id).map Propagator.name).getD ""
    some (s!"propagator {name} ({propagatorId id}) failed: " ++ cause.describe)
  | .solved objective => some s!"found a solution with objective {objective}"
  | .notified .. | .synchronised .. | .propagated _ => none

/-- The messages in the order in which the notes were taken. -/
def messages : List String := e.journal.toList.filterMap e.message?

end Engine
end BranchBound
