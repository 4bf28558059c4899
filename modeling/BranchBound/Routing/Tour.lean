import BranchBound.Routing.Instance

/-! # Tours

What the solver reports of a tour, and the check that it is a tour of the instance.

The times that are reported may be any.  They are compared with exact sums and differences here; those of a
machine have 64 bits and are cut beyond, so that a return time that far away might be accepted with the makespan
that it is cut to. -/
namespace BranchBound.Routing

structure Tour where
  /-- The time between leaving the depot and returning to it. -/
  makespan : Int
  /-- The nodes in the order of the visit, with the depot at both ends. -/
  stops : List Nat
  /-- When each node is reached and open; for the depot, when the tour returns. -/
  arrivals : List Int
  /-- How long the tour waits at each node for its window to open. -/
  waits : List Int
  returnTime : Int
  deriving Repr, DecidableEq

namespace Tour
variable (t : Tour)

/-- The legs of the tour. -/
def legs : List (Nat × Nat) := t.stops.zip t.stops.tail

/-- Nodes with a blank between them. -/
def render (stops : List Nat) : String := " ".intercalate (stops.map toString)

/-- The nodes, counted from one. -/
def oneBased : List Nat := t.stops.map (· + 1)

/-- The tour leaves from the depot, returns to it, and has the right length. -/
def closed (p : Instance) : Bool :=
  t.stops.length = p.numNodes + 1 && t.stops.head? = some depot && t.stops.getLast? = some depot

/-- All nodes are visited. -/
def complete (p : Instance) : Bool :=
  let visited := t.stops.take p.numNodes
  visited.eraseDups.length = p.numNodes && visited.all (· < p.numNodes)

/-- Checks the times along the legs, each of which starts when the one before it ends. -/
def checkLegs (p : Instance) (departure : Int) :
    List (Nat × Nat) → Except Fault (Option Breakdown)
  | [] => .ok none
  | (source, target) :: legs =>
    match t.arrivals[target]? with
    | none => .error .outOfRange
    | some arrival =>
      let expected := p.arrival source departure target
      let latest := (p.window target).latest
      if arrival ≠ expected then .ok (some (.wrongArrival target arrival expected))
      else if latest < arrival then .ok (some (.lateArrival target arrival latest))
      else checkLegs p arrival legs

/-- The first thing that is wrong with a tour; missing arrival times are a fault.  The time between the start and
the return is not cut. -/
def defect? (p : Instance) : Except Fault (Option Breakdown) := do
  if !t.closed p then return some (.openTour t.stops)
  if !t.complete p then return some (.incompleteTour t.stops)
  match ← t.checkLegs p p.start t.legs with
  | some cause => return some cause
  | none =>
    if t.makespan ≠ t.returnTime - p.start then
      return some (.wrongMakespan t.makespan t.returnTime)
    else return none

end Tour
end BranchBound.Routing
