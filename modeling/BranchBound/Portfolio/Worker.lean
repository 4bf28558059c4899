import BranchBound.Model
import BranchBound.Portfolio.Incumbent
import BranchBound.Search

/-! # Workers

A worker searches a model of its own in rounds.  In each round it is given the best objective
value known to anyone, makes a limited number of decisions, and reports the solutions that it
found. -/
namespace BranchBound

/-- Where a worker stands. -/
inductive Status
  | searching
  /-- It proved that there is nothing better than the best known solution. -/
  | exhausted
  /-- It made as many decisions as it may make altogether. -/
  | outOfDecisions
  | failed (cause : Breakdown)
  deriving Repr, DecidableEq

/-- What limits a round. -/
structure Limits where
  /-- The number of decisions in a round. -/
  syncInterval : Nat
  /-- The number of decisions altogether, if it is limited. -/
  decisionLimit : Option Nat := none
  /-- Whether the workers are asked to stop. -/
  stop : Bool := false
  /-- Whether the time is up, if it is limited. -/
  timeUp : Option Bool := none
  /-- By worker, after how many decisions of the round it notices that it has to stop; a worker
  that is not listed notices it at the start. -/
  notices : List Nat := []
  deriving Repr, DecidableEq

structure Worker (π : Type) where
  id : Nat
  /-- There is none if the model could not be set up. -/
  search : Option (Search π)
  status : Status := .searching

namespace Worker
variable {π : Type} [Propagator π]

/-- A worker that starts to search a model. -/
def start (m : Model π) (id seed : Nat) : Worker π :=
  match m.load with
  | .ok engine => { id, search := some (.start engine m.objective m.decisions seed) }
  | .error _ => { id, search := none, status := .failed (.faultOnLoading id) }

def statistics (w : Worker π) : Statistics := (w.search.map Search.statistics).getD {}

/-- The number of decisions in a round, of which `made` were made before. -/
def roundBudget (limits : Limits) (made : Nat) : Nat :=
  match limits.decisionLimit with
  | none => limits.syncInterval
  | some limit => min limits.syncInterval (limit - made)

/-- What stops the search of a worker in a round. -/
def roundCondition (limits : Limits) (budget worker : Nat) : Condition :=
  match limits.notices[worker]? with
  | none =>
    .either (.either (.budget budget) (.flag limits.stop))
      (.ofOption (limits.timeUp.map .deadline))
  | some made =>
    .either (.budget budget)
      (.ofOption (if limits.stop || limits.timeUp = some true then some (.budget made) else none))

/-- What a search has come to when it ends. -/
def statusOf (id : Nat) : EStateM.Result SearchError (Search.Run π) Unit → Status
  | .ok _ r => if r.search.phase = .exhausted then .exhausted else .searching
  | .error (.breakdown cause) _ => .failed cause
  | .error (.fault _) _ => .failed (.faultOnSearching id)

/-- What a search has come to, whether it ended well or not. -/
def runOf : EStateM.Result SearchError (Search.Run π) Unit → Search.Run π
  | .ok _ r | .error _ r => r

/-- Searches for a round; answers the solutions in the order in which they were found. -/
def round (limits : Limits) (bound : Option Int) (w : Worker π) :
    List (Reported Solution) × Worker π :=
  match w.status, w.search with
  | .searching, some search =>
    let search := bound.elim search search.tighten
    let budget := roundBudget limits search.counts.numDecisions
    if budget = 0 then ([], { w with search := some search, status := .outOfDecisions })
    else
      let result := search.run (roundCondition limits budget w.id)
      let r := runOf result
      (r.solutions.reverse.map fun s => ⟨s.objective, s, w.id⟩,
        { w with search := some r.search, status := statusOf w.id result })
  | _, _ => ([], w)

/-- What a worker still has to do. -/
def potential (w : Worker π) : Nat :=
  match w.status, w.search with
  | .searching, some search => search.potential + 1
  | _, _ => 0

end Worker
end BranchBound
