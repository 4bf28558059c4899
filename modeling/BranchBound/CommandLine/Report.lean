import BranchBound.CommandLine.Arguments
import BranchBound.Format.Error
import BranchBound.LotSizing.Format
import BranchBound.LotSizing.Model
import BranchBound.Portfolio
import BranchBound.Routing.Format
import BranchBound.Routing.Model

/-! # Reports

What the command line prints: a line for every improvement, the final status, the statistics
if they are asked for, and notes on what is going on, which start with a percent sign. -/
namespace BranchBound.CommandLine

/-- An instance of either problem. -/
inductive Task
  | routing (p : Routing.Instance)
  | lotSizing (p : LotSizing.Instance)

namespace Task

def parse (bytes : ByteArray) : Problem → Except FormatError Task
  | .tsptw => (Routing.parse bytes).map .routing
  | .psp => (LotSizing.parse bytes).map .lotSizing

def model : Task → Model Constraint
  | .routing p => p.model
  | .lotSizing p => p.model

/-- What was read from a file. -/
def describe (name : String) : Task → String
  | .routing p => s!"Read a TSPTW instance with {p.numNodes} nodes from " ++ name
  | .lotSizing p =>
    s!"Read a PSP instance with {p.numItems} items and horizon {p.horizon} from " ++ name

/-- The objective value of a solution in ten columns. -/
def renderObjective (objective : Int) : Task → String
  | .routing _ => Text.padLeft ' ' 10 (Text.showScaled objective.toNat)
  | .lotSizing _ => Text.padLeft ' ' 10 (toString objective)

def renderSolution (oneBased : Bool) (s : Solution) : Task → String
  | .routing p =>
    let tour := p.tour s
    Routing.Tour.render (if oneBased then tour.oneBased else tour.stops)
  | .lotSizing p => (p.schedule s).plan.render

end Task

/-! ## Times, in nanoseconds -/

/-- In seconds with two decimal places, in ten columns. -/
def renderSeconds (time : Nat) : String :=
  let hundredths := (time + 5000000) / 10000000
  Text.padLeft ' ' 10
    (s!"{hundredths / 100}." ++ Text.padLeft '0' 2 (toString (hundredths % 100)))

/-- The last digits of a number as decimal places, without zeros at the end. -/
def renderQuotient (number numPlaces : Nat) : String :=
  let digits := (Text.padLeft '0' (numPlaces + 1) (toString number)).toList
  let whole := String.ofList (digits.take (digits.length - numPlaces))
  let places := ((digits.drop (digits.length - numPlaces)).reverse.dropWhile (· = '0')).reverse
  if places.isEmpty then whole else whole ++ "." ++ String.ofList places

/-- In the greatest unit of which the time is at least one. -/
def renderDuration (time : Nat) : String :=
  if 1000000000 ≤ time then renderQuotient time 9 ++ "s"
  else if 1000000 ≤ time then renderQuotient time 6 ++ "ms"
  else if 1000 ≤ time then renderQuotient time 3 ++ "µs"
  else toString time ++ "ns"

/-! ## Lines -/

/-- The line that tells the version. -/
def versionLine : String := "gourd-solver 0.1.0"

/-- A line about what is going on. -/
def note (text : String) : String := "% " ++ text

/-- The line for an improvement. -/
def improvementLine (name : String) (a : Arguments) (task : Task) (time : Nat)
    (r : Reported Solution) : String :=
  " | ".intercalate [Text.padRight 10 name, task.renderObjective r.objective, renderSeconds time,
    task.renderSolution a.oneBased r.solution]

/-- The note on a step of the search. -/
def describeProgress (time : Nat) : Progress → String
  | .started worker numVars numPropagators seed =>
    s!"worker {worker} starts with {numVars} variables, " ++
      s!"{numPropagators} propagators and seed {seed}"
  | .exhausted worker => s!"worker {worker} exhausted its search space"
  | .improved r =>
    s!"worker {r.worker} improved the incumbent to {r.objective} after " ++ renderDuration time
  | .stopped numRounds verdict =>
    s!"the portfolio stops after {numRounds} rounds: " ++ verdict.describe

/-- The lines on a step of the search. -/
def progressLines (name : String) (a : Arguments) (task : Task) (time : Nat) (p : Progress) :
    List String :=
  let notes := if a.verbose then [note (describeProgress time p)] else []
  match p with
  | .improved r => notes ++ [improvementLine name a task time r]
  | _ => notes

/-- What is known of the best solution. -/
def status (o : Outcome) : String :=
  match o.best, o.provenOptimal with
  | some _, true => "OPTIMAL"
  | some _, false => "SATISFIABLE"
  | none, _ => "UNKNOWN"

/-- The lines at the end of a search. -/
def outcomeLines (a : Arguments) (o : Outcome) : List String :=
  (if a.verbose then [note ("The search stopped: " ++ o.termination.name)] else []) ++
    [status o] ++
    (if a.logStatistics then o.statistics.lines "" ++ [Statistics.closing] else [])

/-- Why there is no result. -/
inductive Failure
  | cannotOpen (message : String)
  | unsupported (path : String)
  | format (cause : FormatError)
  | solver (cause : SolverError)
  deriving Repr, DecidableEq

def Failure.message : Failure → String
  | .cannotOpen message => "IO error, more details: " ++ message
  | .unsupported path => "The file " ++ path ++ " is not supported."
  | .format cause => "The instance could not be read, more details: " ++ cause.message
  | .solver cause => "The solver failed, more details: " ++ cause.message

def failureLine (f : Failure) : String := note ("Execution failed, error: " ++ f.message)

end BranchBound.CommandLine
