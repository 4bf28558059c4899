import BranchBound.Portfolio
import BranchBound.Portfolio.Barrier
import Mathlib.Data.Fintype.Option

/-! # The protocol of a portfolio

The workers of a portfolio run at the same time as the one who coordinates them.  What they share is a
barrier, what the coordinator tells them (`Control`), and for each worker a place to leave its report
(`Report`).  A round begins and ends at the barrier.  Between the end of a round and the beginning of the
next one the coordinator takes the reports, merges their solutions into the incumbent and tells the new
bound, or that the portfolio has finished; in between the workers read that, search, and leave their
reports.

Each party goes through its program in single steps (`step?`), and each step uses at most one of the things
that are shared.  An interleaving is a sequence of parties who go on in turn (`run`).  How a worker searches
does not matter here, so it is any function of what it was before and of the bound (`Protocol`). -/
namespace BranchBound

/-- What the coordinator tells the workers. -/
structure Control where
  bound : Option Int := none
  finished : Bool := false
  deriving Repr, DecidableEq

/-- What a worker reports of a round; there is nothing in it before it was left and after it was taken. -/
structure Report (α : Type) where
  /-- In the order in which they were found. -/
  solutions : List (Reported α) := []
  status : Status := .searching
  statistics : Statistics := {}
  deriving Repr, DecidableEq

/-- What the parties of a protocol have to do. -/
structure Protocol (numWorkers : Nat) (ω α : Type) where
  /-- What the workers are at the start. -/
  start : Fin numWorkers → ω
  /-- What a worker reports of a round below a bound, and what it is then. -/
  search : ω → Option Int → Report α × ω
  /-- The limits that are looked at after so many rounds. -/
  limits : Nat → Limits

/-- The coordinator, or one of the workers. -/
abbrev Party (numWorkers : Nat) := Option (Fin numWorkers)

/-- Where a worker is. -/
inductive Worker.Place (α : Type)
  /-- It waits for a round to begin. -/
  | starting
  | reading
  | searching (bound : Option Int)
  | reporting (report : Report α)
  /-- It waits for the round to end. -/
  | reported
  | stopped
  deriving Repr, DecidableEq

/-- Where the coordinator is. -/
inductive Portfolio.Place (numWorkers : Nat) (α : Type)
  /-- It looks at the incumbent. -/
  | asking
  | publishing (bound : Option Int)
  /-- It waits for a round to begin. -/
  | published
  /-- It waits for the round to end. -/
  | idle
  | counting
  /-- It takes the reports that are left, and knows the statuses of the others. -/
  | collecting (left : List (Fin numWorkers)) (statuses : List Status)
  /-- It merges the rest of the solutions of a report. -/
  | merging (worker : Fin numWorkers) (report : Report α) (rest : List (Reported α))
    (left : List (Fin numWorkers)) (statuses : List Status)
  | finishing (verdict : Verdict)
  /-- It waits for the workers to look whether there is another round. -/
  | finished (verdict : Verdict)
  | done (verdict : Verdict)
  deriving Repr, DecidableEq

/-- What happens in a protocol. -/
inductive Protocol.Event (numWorkers : Nat) (α : Type)
  | published (bound : Option Int)
  | read (worker : Fin numWorkers) (control : Control)
  | searched (worker : Fin numWorkers) (bound : Option Int)
  /-- A report was left. -/
  | wrote (worker : Fin numWorkers) (report : Report α)
  /-- A report was taken, and nothing was left in its place. -/
  | took (worker : Fin numWorkers) (report : Report α)
  /-- A solution was merged into the incumbent, and improved it or not. -/
  | merged (solution : Reported α) (improved : Bool)
  deriving Repr, DecidableEq

namespace Protocol
variable {numWorkers : Nat} {ω α : Type}

/-- All parties with what they share. -/
structure System (numWorkers : Nat) (ω α : Type) where
  barrier : Barrier (Party numWorkers) := {}
  control : Control := {}
  slots : Fin numWorkers → Report α := fun _ => {}
  incumbent : Incumbent α := {}
  coordinator : Portfolio.Place numWorkers α := .asking
  numRounds : Nat := 0
  /-- What the coordinator was last told by each worker. -/
  statistics : Fin numWorkers → Statistics := fun _ => {}
  workers : Fin numWorkers → Worker.Place α := fun _ => .starting
  /-- What the workers are. -/
  states : Fin numWorkers → ω
  /-- What has happened so far. -/
  log : List (Event numWorkers α) := []

namespace System

/-- A party waits at the barrier before it goes on. -/
def wait? (p : Party numWorkers) (go : System numWorkers ω α → System numWorkers ω α)
    (s : System numWorkers ω α) : Option (System numWorkers ω α) :=
  (s.barrier.wait? (numWorkers + 1) p).map fun (passes, barrier) =>
    if passes then go { s with barrier } else { s with barrier }

/-- A worker goes to another place. -/
def move (i : Fin numWorkers) (place : Worker.Place α) (s : System numWorkers ω α) :
    System numWorkers ω α :=
  { s with workers := Function.update s.workers i place }

/-- The verdict, if the coordinator has come to one. -/
def verdict (s : System numWorkers ω α) : Option Verdict :=
  match s.coordinator with
  | .finishing v | .finished v | .done v => some v
  | _ => none

/-- Whether a party is at the end of its program. -/
def ended (s : System numWorkers ω α) : Party numWorkers → Bool
  | none => match s.coordinator with
    | .done _ => true
    | _ => false
  | some i => match s.workers i with
    | .stopped => true
    | _ => false

end System

variable (P : Protocol numWorkers ω α)

/-- What a worker does next. -/
def workerStep? (i : Fin numWorkers) (s : System numWorkers ω α) : Option (System numWorkers ω α) :=
  match s.workers i with
  | .starting => s.wait? (some i) (System.move i .reading)
  | .reading =>
    let next := if s.control.finished then .stopped else .searching s.control.bound
    some { s.move i next with log := s.log ++ [.read i s.control] }
  | .searching bound =>
    let (report, state) := P.search (s.states i) bound
    some { s.move i (.reporting report) with
      states := Function.update s.states i state
      log := s.log ++ [.searched i bound] }
  | .reporting report =>
    some { s.move i .reported with
      slots := Function.update s.slots i report
      log := s.log ++ [.wrote i report] }
  | .reported => s.wait? (some i) (System.move i .starting)
  | .stopped => none

/-- What the coordinator does next. -/
def coordinatorStep? (s : System numWorkers ω α) : Option (System numWorkers ω α) :=
  match s.coordinator with
  | .asking => some { s with coordinator := .publishing s.incumbent.bound }
  | .publishing bound =>
    some { s with
      coordinator := .published
      control := { s.control with bound }
      log := s.log ++ [.published bound] }
  | .published => s.wait? none ({ · with coordinator := .idle })
  | .idle => s.wait? none ({ · with coordinator := .counting })
  | .counting =>
    some { s with
      coordinator := .collecting (List.finRange numWorkers) []
      numRounds := s.numRounds + 1 }
  | .collecting (i :: left) statuses =>
    let report := s.slots i
    some { s with
      coordinator := .merging i report report.solutions left statuses
      slots := Function.update s.slots i {}
      log := s.log ++ [.took i report] }
  | .merging i report (solution :: rest) left statuses =>
    some { s with
      coordinator := .merging i report rest left statuses
      incumbent := s.incumbent.consider solution
      log := s.log ++ [.merged solution (s.incumbent.accepts solution)] }
  | .merging i report [] left statuses =>
    some { s with
      coordinator := .collecting left (statuses ++ [report.status])
      statistics := Function.update s.statistics i report.statistics }
  | .collecting [] statuses =>
    match Portfolio.verdict? (P.limits s.numRounds) statuses with
    | some verdict => some { s with coordinator := .finishing verdict }
    | none => some { s with coordinator := .asking }
  | .finishing verdict =>
    some { s with
      coordinator := .finished verdict
      control := { s.control with finished := true } }
  | .finished verdict => s.wait? none ({ · with coordinator := .done verdict })
  | .done _ => none

/-- What a party does next; there is nothing that it can do while it has to wait, and at the end. -/
def step? : Party numWorkers → System numWorkers ω α → Option (System numWorkers ω α)
  | none => P.coordinatorStep?
  | some i => P.workerStep? i

/-- A party goes on, if it can. -/
def turn (s : System numWorkers ω α) (p : Party numWorkers) : System numWorkers ω α :=
  (P.step? p s).getD s

/-- What comes of an interleaving: the parties go on in turn. -/
def run (interleaving : List (Party numWorkers)) : System numWorkers ω α :=
  interleaving.foldl P.turn { states := P.start }

end Protocol

/-- The protocol of a portfolio that is given some signals, one after another.  What a worker is includes
the number of rounds that it has searched. -/
def Portfolio.protocol {π : Type} [Propagator π] (o : Options) (m : Model π) (signals : Nat → Signals) :
    Protocol o.numWorkers (Nat × Worker π) Solution where
  start i := (0, .start m i (seedOf o i))
  search
    | (round, w), bound =>
      let (solutions, w) := w.round (limits o (signals round)) bound
      ({ solutions, status := w.status, statistics := w.statistics }, round + 1, w)
  limits numRounds := limits o (signals (numRounds - 1))

end BranchBound
