import BranchBound.Portfolio.Worker

/-! # Portfolios

Several workers search the same model with different seeds.  They work in rounds: each round
starts with the best objective value of all rounds before, and at its end the solutions of all
workers are merged in the order of the workers.  So the result does not depend on which worker
is faster.

The search is over when a worker has exhausted it: every solution that it passed over is no
better than the incumbent.  It is given up when a worker fails, when the workers are asked to
stop, when the time is up, and when nobody may make another decision.

`solve` runs in any monad: it asks there for the signals of the outside before each round, and
tells there what it has to report. -/
namespace BranchBound

structure Options where
  numWorkers : Nat := 1
  /-- The seed of the first worker; each further worker has the next one. -/
  seed : Nat := 42
  /-- In milliseconds. -/
  timeLimit : Option Nat := none
  /-- How many decisions every worker may make. -/
  decisionLimit : Option Nat := none
  /-- How many decisions a worker makes in a round. -/
  syncInterval : Nat := 1000
  deriving Repr, DecidableEq

/-- Why a search ended. -/
inductive Termination
  | searchExhausted
  | timeLimitExceeded
  | decisionLimitExceeded
  | interrupted
  deriving Repr, DecidableEq

def Termination.name : Termination → String
  | .searchExhausted => "SearchExhausted"
  | .timeLimitExceeded => "TimeLimitExceeded"
  | .decisionLimitExceeded => "DecisionLimitExceeded"
  | .interrupted => "Interrupted"

/-- What the workers have come to together. -/
inductive Verdict
  | failed (cause : Breakdown)
  | exhausted
  | stopped (reason : Termination)
  deriving Repr, DecidableEq

def Verdict.describe : Verdict → String
  | .failed cause => "Failed(InternalInconsistency(\"" ++ cause.message ++ "\"))"
  | .exhausted => "Exhausted"
  | .stopped reason => "Stopped(" ++ reason.name ++ ")"

/-- What is reported while the workers search. -/
inductive Progress
  | started (worker numVars numPropagators seed : Nat)
  | exhausted (worker : Nat)
  | improved (best : Reported Solution)
  | stopped (numRounds : Nat) (verdict : Verdict)
  deriving Repr, DecidableEq

/-- What the outside has to say in the course of a round, and when the workers notice it. -/
structure Signals where
  stop : Bool := false
  timeUp : Bool := false
  notices : List Nat := []
  deriving Repr, DecidableEq

structure Outcome where
  best : Option (Reported Solution)
  provenOptimal : Bool
  termination : Termination
  statistics : Statistics
  deriving Repr, DecidableEq

structure Portfolio (π : Type) where
  workers : List (Worker π)
  incumbent : Incumbent Solution := {}
  numRounds : Nat := 0

namespace Portfolio
variable {π : Type} [Propagator π]

/-- The seed of a worker. -/
def seedOf (o : Options) (worker : Nat) : Nat := (o.seed + worker) % Word.size

def start (o : Options) (m : Model π) : Portfolio π where
  workers := (List.range o.numWorkers).map fun id => .start m id (seedOf o id)

/-- How the workers start. -/
def startNotes (o : Options) (p : Portfolio π) : List Progress :=
  p.workers.filterMap fun w => w.search.map fun s =>
    .started w.id s.store.numVars s.engine.numPropagators (seedOf o w.id)

def limits (o : Options) (signals : Signals) : Limits where
  syncInterval := o.syncInterval
  decisionLimit := o.decisionLimit
  stop := signals.stop
  timeUp := o.timeLimit.map fun _ => signals.timeUp
  notices := signals.notices

/-- What the workers have come to; there is no verdict as long as they have to go on. -/
def verdict? (limits : Limits) (statuses : List Status) : Option Verdict :=
  let failure? : Status → Option Verdict
    | .failed cause => some (.failed cause)
    | _ => none
  match statuses.findSome? failure? with
  | some failed => some failed
  | none =>
    if .exhausted ∈ statuses then some .exhausted
    else if limits.stop then some (.stopped .interrupted)
    else if limits.timeUp = some true then some (.stopped .timeLimitExceeded)
    else if statuses.all (· = .outOfDecisions) then some (.stopped .decisionLimitExceeded)
    else none

/-- Whether a worker proved in this round that there is nothing left. -/
def exhaustedNote (before after : Worker π) : Option Progress :=
  if before.status = .searching ∧ after.status = .exhausted then some (.exhausted after.id) else none

/-- A round of all workers, with what there is to report, and the verdict if it was the last. -/
def round (limits : Limits) (p : Portfolio π) : Portfolio π × List Progress × Option Verdict :=
  let results := p.workers.map fun w => w.round limits p.incumbent.bound
  let workers := results.map Prod.snd
  let (improvements, incumbent) := p.incumbent.merge (results.flatMap Prod.fst)
  let numRounds := p.numRounds + 1
  let verdict := verdict? limits (workers.map Worker.status)
  let notes := (p.workers.zip workers).filterMap (fun (before, after) => exhaustedNote before after) ++
    improvements.map .improved ++ verdict.toList.map (.stopped numRounds)
  (⟨workers, incumbent, numRounds⟩, notes, verdict)

/-- What the workers still have to do; a round without a verdict does a part of it. -/
def potential (p : Portfolio π) : Nat := sumNat (p.workers.map Worker.potential)

section
variable {m : Type → Type} [Monad m]

/-- Rounds, until there is a verdict, and at most `n` of them. -/
def rounds (o : Options) (ask : m Signals) (tell : Progress → m Unit) :
    Nat → Portfolio π → m (Portfolio π × Verdict)
  | 0, p => return (p, .stopped .interrupted)
  | n + 1, p => do
    let signals ← ask
    let (next, notes, verdict) := p.round (limits o signals)
    notes.forM tell
    match verdict with
    | some verdict => return (next, verdict)
    | none => rounds o ask tell n next

/-- What is made of a verdict. -/
def conclude (p : Portfolio π) : Verdict → Except SolverError Outcome
  | .failed cause => .error (.breakdown cause)
  | .exhausted =>
    match p.incumbent.best with
    | none => .error .infeasible
    | some best => .ok (outcome (some best) true .searchExhausted)
  | .stopped reason => .ok (outcome p.incumbent.best false reason)
where
  outcome best provenOptimal termination : Outcome :=
    { best, provenOptimal, termination
      statistics := .total (p.workers.map Worker.statistics) }

/-- Searches for a solution of least objective value. -/
def solve (o : Options) (model : Model π) (ask : m Signals) (tell : Progress → m Unit) :
    m (Except SolverError Outcome) := do
  if o.numWorkers = 0 then return .error (.invalidInput .noWorkers)
  else if o.syncInterval = 0 then return .error (.invalidInput .noInterval)
  else
    let p := start o model
    (startNotes o p).forM tell
    let (p, verdict) ← rounds o ask tell (p.potential + 1) p
    return p.conclude verdict

end
end Portfolio
end BranchBound
