import BranchBound.CommandLine.Path
import BranchBound.CommandLine.Report

/-! # Sessions

A session reads the instance that the arguments name, searches for a solution, and prints what
there is to say.  It runs in any monad that offers a `Console`: a place to print to, files to
read, and a clock. -/
namespace BranchBound.CommandLine

/-- What a session needs from the outside. -/
structure Console (m : Type → Type) where
  print : String → m Unit
  /-- The bytes of a file, or why it cannot be opened; a file can be opened that cannot be read. -/
  read : String → m (Except String (Option ByteArray))
  /-- The time in nanoseconds. -/
  clock : m Nat

namespace Session
variable {m : Type → Type} [Monad m] (c : Console m) (a : Arguments)

/-- The problem that is asked for, or else that the path suggests. -/
def problem? : Option Problem :=
  a.problem <|> (Path.extension? a.path).bind Problem.ofName?

def name : String := Path.displayName a.path

def options : Options where
  numWorkers := a.workers.getD 1
  seed := a.seed
  timeLimit := a.timeLimit
  decisionLimit := a.decisionLimit
  syncInterval := a.syncInterval

/-- Prints a note if notes are asked for. -/
def log (text : String) : m Unit := if a.verbose then c.print (note text) else pure ()

def readTask : m (Except Failure Task) := do
  match problem? a with
  | none => return .error (.unsupported a.path)
  | some problem =>
    match ← c.read a.path with
    | .error message => return .error (.cannotOpen message)
    | .ok none => return .error (.format .unreadable)
    | .ok (some bytes) => return (Task.parse bytes problem).mapError .format

/-- Searches for a solution of a task. -/
def search (task : Task) : m (Except Failure Unit) := do
  let begun ← c.clock
  let elapsed : m Nat := return (← c.clock) - begun
  let signals : m Signals := do
    let time ← elapsed
    return { timeUp := a.timeLimit.any fun limit => limit * 1000000 ≤ time }
  let tell (p : Progress) : m Unit := do
    (progressLines (name a) a task (← elapsed) p).forM c.print
  match ← Portfolio.solve (options a) task.model signals tell with
  | .ok outcome =>
    (outcomeLines a outcome).forM c.print
    return .ok ()
  | .error .infeasible =>
    c.print "INFEASIBLE"
    return .ok ()
  | .error cause => return .error (.solver cause)

def attempt : m (Except Failure Unit) := do
  log c a "Logging successfully configured"
  match ← readTask c a with
  | .error failure => return .error failure
  | .ok task =>
    log c a (task.describe (name a))
    search c a task

/-- Does what the arguments ask for; answers the exit code. -/
def run : m UInt32 := do
  match ← attempt c a with
  | .ok _ => return 0
  | .error failure =>
    c.print (failureLine failure)
    return 1

end Session

/-- The exit code for arguments that are wrong. -/
def usageExit : UInt32 := 2

end BranchBound.CommandLine
