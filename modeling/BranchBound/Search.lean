import BranchBound.Branching.Shuffle
import BranchBound.Branching.Weights
import BranchBound.Engine
import BranchBound.Error
import BranchBound.Random
import BranchBound.Solution
import BranchBound.Statistics
import BranchBound.Termination

/-! # Branch and bound

A depth-first search for an assignment of least objective value.

The search descends from node to node by decisions: at a *choice point* it orders the values
of a variable at random and assigns the first.  When the domains below a value are refuted,
the value is removed at the level of its choice point, and the next value that is left there is
assigned.  A choice point without such a value is left.  Before every propagation the objective
is bounded to be better than the best objective known, so each solution is better than all
solutions before it, and when no choice point is left there is none better.  The exception is the
least integer of 64 bits: what comes before it is the greatest one, and that bounds nothing.

A search is a value that is advanced step by step; between two decisions it can be stopped,
and going on with it later makes no difference. -/
namespace BranchBound

/-- What the search does next. -/
inductive Phase
  /-- Bound the objective and propagate. -/
  | propagating
  /-- Propagation has ended: stop, or look whether anything is left to decide. -/
  | quiescent
  | branching
  /-- Everything is decided: record the solution. -/
  | complete
  /-- Nothing is left here: try the next value of the deepest choice point. -/
  | failed
  | exhausted
  deriving Repr, DecidableEq

/-- A variable whose values are tried one after another. -/
structure ChoicePoint where
  decision : Var
  /-- The value that is being tried. -/
  current : Int
  /-- The values that are tried after it, in this order. -/
  untried : List Int
  /-- The level that it is tried above. -/
  checkpoint : Nat
  deriving Repr, DecidableEq

/-- Goes on to the next value that is allowed. -/
def ChoicePoint.advance? (allowed : Int → Bool) (c : ChoicePoint) : Option ChoicePoint :=
  match c.untried.dropWhile (!allowed ·) with
  | [] => none
  | value :: rest => some { c with current := value, untried := rest }

structure Search (π : Type) where
  engine : Engine π
  /-- The variable that is minimised. -/
  objective : Var
  decisions : List Var
  selector : Selector
  source : Random.Source
  /-- Deepest first. -/
  choicePoints : List ChoicePoint := []
  phase : Phase := .propagating
  /-- The least objective value that is known, from here or from elsewhere. -/
  best : Option Int := none
  counts : Statistics := {}

/-- Why a search cannot go on. -/
inductive SearchError
  | breakdown (cause : Breakdown)
  | fault (cause : Fault)
  deriving Repr, DecidableEq

namespace Search
variable {π : Type} [Propagator π]

def start (engine : Engine π) (objective : Var) (decisions : List Var) (seed : Nat) : Search π where
  engine
  objective
  decisions
  selector := { decisions }
  source := .ofSeed seed

def store (s : Search π) : Store := s.engine.store

def statistics (s : Search π) : Statistics :=
  { s.counts with numPropagations := s.engine.numPropagations }

/-- From now on only solutions with a lower objective value are searched for. -/
def tighten (s : Search π) (objective : Int) : Search π :=
  if s.best.all (objective < ·) then { s with best := some objective } else s

/-! ## Runs -/

/-- A search under way: what it is told to stop by, and what it found, latest first. -/
structure Run (π : Type) (κ : Type := Condition) where
  search : Search π
  condition : κ
  solutions : List Solution := []

variable {κ : Type}

abbrev Step (π κ : Type) := EStateM SearchError (Run π κ)

def onSearch (f : Search π → Search π) : Step π κ Unit := modify fun r => { r with search := f r.search }

def current : Step π κ (Search π) := return (← get).search

def enter (phase : Phase) : Step π κ Unit := onSearch ({ · with phase })

def fail (cause : Fault) : Step π κ Unit := throw (.fault cause)

def count (f : Statistics → Statistics) : Step π κ Unit :=
  onSearch fun s => { s with counts := f s.counts }

/-- Runs a narrowing; a refutation is an answer here. -/
def narrow (f : Store.Narrowing) : Step π κ (Except Inconsistency Bool) := do
  let s ← current
  let answer (a : Except Inconsistency Bool) (store : Store) : Step π κ (Except Inconsistency Bool) := do
    onSearch fun s => { s with engine := { s.engine with space := { s.engine.space with store } } }
    return a
  match f s.store with
  | .ok changed store => answer (.ok changed) store
  | .error (.inconsistent cause) store => answer (.error cause) store
  | .error (.fault cause) store => do
    let _ ← answer (.ok false) store
    throw (.fault cause)

/-- Counts a refutation, and blames the variables of the propagator that found it. -/
def refuted (source : Option Nat) : Step π κ Unit := do
  count fun c => { c with numFailures := c.numFailures + 1 }
  let scope := (source.bind (← current).engine.scope?).getD []
  onSearch fun s => { s with selector := s.selector.blame scope }

/-- Bounds the objective; answers whether that left any values. -/
def bound : Step π κ Bool := do
  let s ← current
  match s.best with
  | none => return true
  | some best =>
    match ← narrow (Store.setUpper s.objective (Word.pred best)) with
    | .ok _ => return true
    | .error _ => refuted none; return false

/-- Bounds the objective and propagates; answers whether the domains were not refuted. -/
def propagate : Step π κ Bool := do
  if !(← bound) then return false
  match (← current).engine.propagate with
  | .ok _ engine => onSearch ({ · with engine }); return true
  | .error (.refuted source _) engine => onSearch ({ · with engine }); refuted source; return false
  | .error (.fault cause) engine => onSearch ({ · with engine }); throw (.fault cause)

/-- Opens a level and assigns a value there. -/
def decide [Stopping κ] (v : Var) (value : Int) : Step π κ Unit := do
  onSearch fun s => { s with engine := s.engine.checkpoint }
  match ← narrow (Store.assign v value) with
  | .error _ => throw (.breakdown (.valueNotInDomain v value))
  | .ok _ =>
    count fun c => { c with numDecisions := c.numDecisions + 1 }
    modify fun r => { r with condition := Stopping.decided r.condition }

/-- The values of a variable in random order. -/
def order (v : Var) : Step π κ (List Int) := do
  let s ← current
  let draw (n : Nat) : StateM Random.Source Nat := fun source => source.below n
  let (values, source) := (shuffle draw (s.store.values v)).run s.source
  onSearch ({ · with source })
  return values

/-- Makes a decision at a new choice point. -/
def branch [Stopping κ] : Step π κ Unit := do
  let s ← current
  match s.selector.select s.store with
  | .error cause => fail cause
  | .ok (none, _) => throw (.breakdown .nothingToBranchOn)
  | .ok (some v, selector) =>
    onSearch ({ · with selector })
    match ← order v with
    | [] => fail .outOfRange
    | value :: rest =>
      onSearch fun s => { s with
        choicePoints := ⟨v, value, rest, s.engine.level⟩ :: s.choicePoints }
      let depth := (← current).choicePoints.length
      count fun c => { c with peakDepth := max c.peakDepth depth }
      decide v value

/-- Returns to the level of a choice point and removes the value that failed there; answers
whether the domains were not refuted. -/
def refute (c : ChoicePoint) : Step π κ Bool := do
  match (← current).engine.restore c.checkpoint with
  | .error cause => throw (.fault cause)
  | .ok engine =>
    onSearch ({ · with engine })
    match ← narrow (Store.remove c.decision c.current) with
    | .ok _ => propagate
    | .error _ => refuted none; return false

/-- Goes back through the choice points to the first that has another value to try. -/
def backtrack [Stopping κ] : List ChoicePoint → Step π κ Phase
  | [] => return .exhausted
  | c :: above => do
    let leave : Step π κ Phase := do
      onSearch ({ · with choicePoints := above })
      backtrack above
    if !(← refute c) then leave
    else
      let store := (← current).store
      match c.advance? (store.contains c.decision) with
      | none => leave
      | some c =>
        onSearch ({ · with choicePoints := c :: above })
        decide c.decision c.current
        return .propagating

/-- Records the solution at a leaf. -/
def record : Step π κ Unit := do
  let s ← current
  match Solution.unfixed? s.store with
  | some v => throw (.breakdown (.unfixedLeaf v s.objective))
  | none =>
    match Solution.ofStore s.store s.objective with
    | .error cause => fail cause
    | .ok solution =>
      count fun c => { c with numSolutions := c.numSolutions + 1 }
      onSearch fun s => { s with engine := s.engine.note (.solved solution.objective) }
      onSearch (·.tighten solution.objective)
      modify fun r => { r with solutions := solution :: r.solutions }

/-- Whether all decisions are fixed; the first that is not settles it. -/
def allFixed (s : Store) : List Var → Except Fault Bool
  | [] => .ok true
  | v :: rest =>
    match s.domain? v with
    | none => .error .outOfRange
    | some d => if d.isFixed then allFixed s rest else .ok false

/-- Asks the condition whether to stop. -/
def ask [Stopping κ] : Step π κ Bool :=
  modifyGet fun r =>
    let (stop, condition) := Stopping.ask r.condition
    (stop, { r with condition })

/-- One step; answers whether to go on. -/
def step [Stopping κ] : Step π κ Bool := do
  let s ← current
  match s.phase with
  | .propagating =>
    enter (if ← propagate then .quiescent else .failed)
    return true
  | .quiescent =>
    if ← ask then
      enter .propagating
      return false
    match allFixed s.store s.decisions with
    | .error cause => throw (.fault cause)
    | .ok fixed =>
      enter (if fixed then .complete else .branching)
      return true
  | .branching =>
    branch
    enter .propagating
    return true
  | .complete =>
    record
    enter .failed
    return true
  | .failed =>
    enter (← backtrack s.choicePoints)
    return true
  | .exhausted => return false

/-! ## The potential of a search -/

/-- The greatest number of values of a decision. -/
def breadth (s : Search π) : Nat :=
  s.decisions.foldl (fun n v => max n (s.store.domain v).width) 1

/-- What the search of a node can take when `k` more choice points can lie below it. -/
def nodePotential (breadth : Nat) : Nat → Nat
  | 0 => 4
  | k + 1 => breadth * nodePotential breadth k + 4

/-- What is left to do at the choice points; a node below the deepest of them takes `node`. -/
def pendingPotential (breadth node : Nat) : List ChoicePoint → Nat
  | [] => 0
  | c :: above =>
    c.untried.length * node + pendingPotential breadth (breadth * node + 4) above

/-- Every step does a part of what is left to do. -/
def potential (s : Search π) : Nat :=
  let k := s.decisions.length - s.choicePoints.length
  let node := nodePotential s.breadth k
  let pending := pendingPotential s.breadth node s.choicePoints
  match s.phase with
  | .propagating => node + pending
  | .quiescent => node - 1 + pending
  | .branching | .complete => node - 2 + pending
  | .failed => 1 + pending
  | .exhausted => 0

/-- Runs the search until it is exhausted or the condition stops it. -/
def run [Stopping κ] (s : Search π) (condition : κ) :
    EStateM.Result SearchError (Run π κ) Unit :=
  descend (fun r : Run π κ => r.search.potential) step { search := s, condition }

end Search
end BranchBound
