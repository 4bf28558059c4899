import BranchBound.Matrix
import BranchBound.Propagator
import BranchBound.Word

/-! # Time windows

The times at which a tour visits its nodes.  If `j` is the predecessor of `i`, then `i` is
reached at `max earliest[i] (departure j + distance j i)`: the tour waits at a node only if
it arrives before the node opens.  The latest times are the upper bounds of the times.

A pass looks at every node as the target of an arc, then at every node as the source of
one.  A predecessor that cannot reach its target in time, or could only reach it too early,
is removed; the remaining ones bound the arrival from both sides; a fixed predecessor is
bounded by the arrival at its target; and every node has to be left towards some node that
still accepts it. -/
namespace BranchBound

/-- The time at a node, an integer of 64 bits: known from the start, or a variable shifted by a
constant. -/
inductive NodeTime
  | constant (time : Int)
  | shifted (v : Var) (offset : Int)
  deriving Repr, DecidableEq

namespace NodeTime

def var? : NodeTime → Option Var
  | .constant _ => none
  | .shifted v _ => some v

def lower (s : Store) : NodeTime → Int
  | .constant time => time
  | .shifted v offset => Word.integer (s.lower v + offset)

def upper (s : Store) : NodeTime → Int
  | .constant time => time
  | .shifted v offset => Word.integer (s.upper v + offset)

def setLower (bound : Int) : NodeTime → Filter Bool
  | .constant time => if time < bound then refute .emptyDomain else pure false
  | .shifted v offset => Filter.setLower v (Word.integer (bound - offset))

def setUpper (bound : Int) : NodeTime → Filter Bool
  | .constant time => if bound < time then refute .emptyDomain else pure false
  | .shifted v offset => Filter.setUpper v (Word.integer (bound - offset))

end NodeTime

structure TimeWindow where
  predecessors : Array Var
  /-- When the tour leaves a node. -/
  departures : Array NodeTime
  /-- When the tour has reached a node and it is open. -/
  arrivals : Array NodeTime
  earliest : Array Int
  distances : Matrix Int
  deriving Repr, DecidableEq

namespace TimeWindow
variable (c : TimeWindow)

def numNodes : Nat := c.predecessors.size

def nodes : List Nat := List.range c.numNodes

def predecessor (node : Nat) : Var := c.predecessors.getD node 0

/-- The distance of an arc, and the time at its source. -/
def arc (source : Int) (target : Nat) : Filter (Int × NodeTime) := do
  let source ← demand (position? source)
  let distance ← demand (c.distances.get? source target)
  return (distance, ← demand c.departures[source]?)

/-- The times from `first` to `last`. -/
structure Span where
  first : Int
  last : Int
  deriving Repr, DecidableEq

def Span.join (span : Span) : Option Span → Span
  | none => span
  | some other => ⟨min other.first span.first, max other.last span.last⟩

/-- What is known of the arrival at a target before its predecessors are looked at. -/
structure Target where
  node : Nat
  arrival : NodeTime
  earliest : Int
  lower : Int
  upper : Int
  deriving Repr, DecidableEq

/-- Removes a predecessor that does not fit the arrival at the target; another one adds the
arrivals over it to those seen so far. -/
def reachFrom (t : Target) (seen : Bool × Option Span) (source : Int) :
    Filter (Bool × Option Span) := do
  let (distance, departure) ← c.arc source t.node
  let first ← Filter.read fun s => Word.integer (departure.lower s + distance)
  let last ← Filter.read fun s =>
    max t.earliest (Word.integer (departure.upper s + distance))
  if t.upper < first || last < t.lower then
    return ((← Filter.remove (c.predecessor t.node) source) || seen.1, seen.2)
  else
    return (seen.1, some (Span.join ⟨max t.earliest first, last⟩ seen.2))

/-- Bounds the arrival by the arrivals over its predecessors, if these span any times. -/
def boundArrival (t : Target) : Option Span → Filter Bool
  | none => pure false
  | some span =>
    if span.first ≤ span.last then
      Filter.inTurn [t.arrival.setLower span.first, t.arrival.setUpper span.last]
    else pure false

/-- Bounds the departure from a fixed predecessor by the arrival; if the tour does not wait,
the arrival determines the departure. -/
def boundDeparture (t : Target) : Filter Bool := do
  match ← Filter.read (·.fixed? (c.predecessor t.node)) with
  | none => return false
  | some source =>
    let (distance, departure) ← c.arc source t.node
    let upper ← Filter.read t.arrival.upper
    let cut ← departure.setUpper (Word.integer (upper - distance))
    let lower ← Filter.read t.arrival.lower
    if t.earliest < lower then return (← departure.setLower (Word.integer (lower - distance))) || cut
    else return cut

/-- Filters the arcs into a node. -/
def filterTarget (node : Nat) : Filter Bool := do
  let arrival ← demand c.arrivals[node]?
  let earliest ← demand c.earliest[node]?
  let sources ← Filter.read (·.values (c.predecessor node))
  let lower ← Filter.read arrival.lower
  let upper ← Filter.read arrival.upper
  let t : Target := { node, arrival, earliest, lower, upper }
  let (removed, span) ← sources.foldlM (c.reachFrom t) (false, none)
  let bounded ← Filter.inTurn [boundArrival t span, c.boundDeparture t]
  return removed || bounded

/-- The latest departure from `source` towards `target`, if that arc is left. -/
def latestTowards (s : Store) (source target : Nat) : Option (Option Int) :=
  if target ≠ source && s.contains (c.predecessor target) source then do
    let arrival ← c.arrivals[target]?
    let distance ← c.distances.get? source target
    return some (Word.integer (arrival.upper s - distance))
  else some none

/-- Filters the arcs out of a node. -/
def filterSource (node : Nat) : Filter Bool := do
  let departure ← demand c.departures[node]?
  match departure.var? with
  | none => return false
  | some _ =>
    let latest ← demand (← Filter.read fun s => c.nodes.mapM (c.latestTowards s node))
    match (latest.filterMap id).max? with
    | none => return false
    | some bound => departure.setUpper bound

def pass : Filter Bool :=
  Filter.inTurn (c.nodes.map c.filterTarget ++ c.nodes.map c.filterSource)

def filter : Filter Unit := Filter.untilStable c.pass

/-- The variables among the times, each at its first occurrence. -/
def timeVars : List Var :=
  ((c.arrivals.toList ++ c.departures.toList).filterMap NodeTime.var?).eraseDups

def watches : List (Var × List Event) :=
  c.predecessors.toList.map (fun v => (v, Event.any)) ++ c.timeVars.map fun v => (v, Event.bounds)

end TimeWindow
end BranchBound
