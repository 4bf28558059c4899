import BranchBound.Constraint
import BranchBound.Model
import BranchBound.Routing.Tour
import BranchBound.Solution

/-! # The model of a tour

The decisions are the predecessors of the nodes on the tour; further variables are the arrival
times at the cities and the makespan, which is minimised.  The predecessors form a circuit, and
the times keep to the windows. -/
namespace BranchBound.Routing
namespace Instance
variable (p : Instance)

/-- The variable for the node before a node. -/
def predecessor (node : Nat) : Var := node

/-- The variable for the arrival time at a city. -/
def arrivalTime (city : Nat) : Var := p.numNodes + city - 1

/-- The variable for the time that the tour takes. -/
def makespan : Var := 2 * p.numNodes - 1

def predecessors : List Var := p.nodes.map predecessor

def cityTimes : List NodeTime := p.cities.map fun city => .shifted (p.arrivalTime city) 0

def circuit : Circuit := { predecessors := p.predecessors.toArray }

def timeWindow : TimeWindow where
  predecessors := p.predecessors.toArray
  departures := (.constant p.start :: p.cityTimes).toArray
  arrivals := (.shifted p.makespan p.start :: p.cityTimes).toArray
  earliest := (p.windows.map Window.earliest).toArray
  distances := p.distances

def model : Model Constraint where
  ranges :=
    p.nodes.map (fun _ => (0, (p.numNodes : Int) - 1)) ++
      p.windows.tail.map (fun w => (w.earliest, w.latest)) ++
      [(0, (p.window depot).latest - p.start)]
  constraints := [.circuit p.circuit, .timeWindow p.timeWindow]
  objective := p.makespan
  decisions := p.predecessors

/-- For every node, the node after it. -/
def successors (s : Solution) : Array Nat :=
  p.nodes.foldl
    (fun next node => next.setIfInBounds (s.value (predecessor node)).toNat node)
    (Array.replicate p.numNodes depot)

/-- The nodes on the way from `node` back to the depot, at most `n` of them. -/
def follow (next : Array Nat) : Nat → Nat → List Nat
  | 0, _ => [depot]
  | n + 1, node =>
    if node = depot then [depot] else node :: follow next n (next.getD node depot)

/-- The waiting times, along legs each of which starts when the one before it ends. -/
def waitsAlong (arrivals : Array Int) : Int → List (Nat × Nat) → Array Int → Array Int
  | _, [], waits => waits
  | departure, (source, target) :: legs, waits =>
    let reached := departure + p.distance source target
    waitsAlong arrivals (arrivals.getD target 0) legs
      (waits.setIfInBounds target (max ((p.window target).earliest - reached) 0))

/-- The tour that a solution stands for. -/
def tour (s : Solution) : Tour :=
  let next := p.successors s
  let makespan := s.value p.makespan
  let returnTime := p.start + makespan
  let stops := depot :: follow next p.numNodes (next.getD depot depot)
  let arrivals := returnTime :: p.cities.map fun city => s.value (p.arrivalTime city)
  let waits :=
    p.waitsAlong arrivals.toArray p.start (stops.zip stops.tail)
      (Array.replicate p.numNodes 0)
  { makespan, stops, arrivals, waits := waits.toList, returnTime }

end Instance
end BranchBound.Routing
