import BranchBound.Fault
import BranchBound.Word

/-! # Errors

What a caller of the solver is told when there is no result.  An **invalid input** was
refused before anything was searched; an instance is **infeasible** if the search proved that it
has no solution; a **breakdown** means that what the search did is not consistent, or that a
solution failed a check.  -/
namespace BranchBound

/-- Why an input is refused. -/
inductive InvalidInput
  | tooFewNodes (numNodes : Nat)
  | wrongNumRows (numNodes numRows : Nat)
  | distancesNotSquare (numNodes : Nat)
  | negativeDistance (distance : Int)
  | distanceTooGreat (distance : Int)
  | emptyWindow (node : Nat) (earliest latest : Int)
  | windowTooLate (node : Nat) (latest : Int)
  | noItems
  | changeoversNotSquare (numItems : Nat)
  | demandsNotRectangular (numItems : Nat)
  | negativeAmount
  | costsTooGreat
  | noWorkers
  | noInterval
  deriving Repr, DecidableEq

def InvalidInput.message : InvalidInput → String
  | .tooFewNodes n => s!"an instance needs a depot and at least one city, but has {n} nodes"
  | .wrongNumRows n rows => s!"{n} time windows but {rows} rows of distances"
  | .distancesNotSquare n => s!"the distance matrix is not {n} by {n}"
  | .negativeDistance distance => s!"distances are non-negative, but found {distance}"
  | .distanceTooGreat distance => s!"the distance {distance} is beyond {Word.maxValue}"
  | .emptyWindow node earliest latest =>
    s!"the time window [{earliest}, {latest}] of node {node} is empty or negative"
  | .windowTooLate node latest =>
    s!"the time window of node {node} ends at {latest}, beyond {Word.maxValue}"
  | .noItems => "an instance needs at least one item"
  | .changeoversNotSquare n => s!"the changeover costs are not {n} by {n}"
  | .demandsNotRectangular n => s!"the demands are not {n} rows of equal, positive length"
  | .negativeAmount => "costs and demands are non-negative"
  | .costsTooGreat => "the costs of a plan could exceed an i32"
  | .noWorkers => "a portfolio needs at least one worker"
  | .noInterval => "the synchronisation interval has to be positive"

/-- What is not consistent: in a search, of a worker, or in a solution that was checked. -/
inductive Breakdown
  /-- All decisions are fixed, but another variable is not. -/
  | unfixedLeaf (v objective : Var)
  | nothingToBranchOn
  | valueNotInDomain (v : Var) (value : Int)
  /-- A worker met a fault while it set up the model. -/
  | faultOnLoading (worker : Nat)
  /-- A worker met a fault while it searched. -/
  | faultOnSearching (worker : Nat)
  | openTour (tour : List Nat)
  | incompleteTour (tour : List Nat)
  | wrongArrival (node : Nat) (arrival expected : Int)
  | lateArrival (node : Nat) (arrival latest : Int)
  | wrongMakespan (makespan returnTime : Int)
  | wrongHorizon (numPeriods horizon : Nat)
  | unknownItem (period item : Nat)
  | demandMissed (item period : Nat) (produced required : Int)
  | overproduced (item : Nat)
  | wrongCosts (stocking changeover : Int) (reported reportedChangeover total : Int)
  deriving Repr, DecidableEq

/-- A list of numbers in brackets. -/
def bracketed (numbers : List Nat) : String :=
  "[" ++ ", ".intercalate (numbers.map toString) ++ "]"

def Breakdown.message : Breakdown → String
  | .unfixedLeaf v objective =>
    s!"x{v} is not fixed although every decision variable is (objective x{objective})"
  | .nothingToBranchOn => "no unfixed decision variable to branch on"
  | .valueNotInDomain v value => s!"the value {value} selected for x{v} is not in its domain"
  | .faultOnLoading worker => s!"worker {worker} panicked while encoding"
  | .faultOnSearching worker => s!"worker {worker} panicked while searching"
  | .openTour tour => s!"{bracketed tour} does not start and end at the depot"
  | .incompleteTour tour => s!"{bracketed tour} does not visit every node once"
  | .wrongArrival node arrival expected =>
    s!"node {node} is reached at {arrival} instead of {expected}"
  | .lateArrival node arrival latest =>
    s!"node {node} is reached at {arrival}, after its window closes at {latest}"
  | .wrongMakespan makespan returnTime =>
    s!"the makespan {makespan} does not match the return at {returnTime}"
  | .wrongHorizon numPeriods horizon => s!"the plan covers {numPeriods} of {horizon} periods"
  | .unknownItem period item => s!"period {period} produces the unknown item {item}"
  | .demandMissed item period produced required =>
    s!"item {item} is produced {produced} times by period {period}, but {required} are due"
  | .overproduced item => s!"item {item} is produced more often than demanded"
  | .wrongCosts stocking changeover reported reportedChangeover total =>
    s!"the plan costs {stocking} + {changeover}, " ++
      s!"but {reported} + {reportedChangeover} = {total} is reported"

inductive SolverError
  | invalidInput (cause : InvalidInput)
  | infeasible
  | breakdown (cause : Breakdown)
  deriving Repr, DecidableEq

def SolverError.message : SolverError → String
  | .invalidInput cause => "invalid input: " ++ cause.message
  | .infeasible => "the instance is infeasible"
  | .breakdown cause => "internal inconsistency: " ++ cause.message

end BranchBound
