import BranchBound.Error
import BranchBound.Matrix

/-! # Travelling with time windows

A tour starts at the depot, visits every city once within its time window, and returns to the
depot as early as possible.  Nodes are numbered; the depot is node zero.  A tour that reaches a
city before its window opens waits until it opens, and never longer.

An `Instance` holds no defects: **`Instance.ofRows` refuses data exactly if they have one**, and
names the first. -/
namespace BranchBound.Routing

/-- The times at which a node may be reached, from `earliest` to `latest`. -/
structure Window where
  earliest : Int
  latest : Int
  deriving Repr, DecidableEq

def depot : Nat := 0

/-- What is wrong with the numbers of nodes and of rows of distances. -/
def sizeDefect? (numNodes numRows : Nat) : Option InvalidInput :=
  if numNodes < 2 then some (.tooFewNodes numNodes)
  else if numRows ≠ numNodes then some (.wrongNumRows numNodes numRows)
  else none

/-- What is wrong with the distances between nodes. -/
def distanceDefect? (numNodes : Nat) (distances : Matrix Int) : Option InvalidInput :=
  if distances.numColumns ≠ numNodes then some (.distancesNotSquare numNodes)
  else
    match distances.toList.find? (· < 0), distances.toList.find? (Word.maxValue < ·) with
    | some distance, _ => some (.negativeDistance distance)
    | none, some distance => some (.distanceTooGreat distance)
    | none, none => none

/-- What is wrong with the window of a node. -/
def windowDefect? (node : Nat) (w : Window) : Option InvalidInput :=
  if w.earliest < 0 ∨ w.latest < w.earliest then some (.emptyWindow node w.earliest w.latest)
  else if Word.maxValue < w.latest then some (.windowTooLate node w.latest)
  else none

/-- The first thing that is wrong with an instance. -/
def defect? (distances : Matrix Int) (windows : List Window) : Option InvalidInput :=
  sizeDefect? windows.length distances.numRows <|>
    distanceDefect? windows.length distances <|>
    windows.zipIdx.findSome? fun (w, node) => windowDefect? node w

structure Instance where
  distances : Matrix Int
  windows : List Window
  sound : defect? distances windows = none
  deriving DecidableEq

namespace Instance

/-- The instance with the given rows of distances. -/
def ofRows (rows : List (List Int)) (windows : List Window) : Except InvalidInput Instance :=
  match Matrix.ofRows? rows with
  | none =>
    .error ((sizeDefect? windows.length rows.length).getD (.distancesNotSquare windows.length))
  | some distances =>
    match h : defect? distances windows with
    | some cause => .error cause
    | none => .ok ⟨distances, windows, h⟩

variable (p : Instance)

def numNodes : Nat := p.windows.length

def nodes : List Nat := List.range p.numNodes

/-- The nodes other than the depot. -/
def cities : List Nat := p.nodes.tail

def distance? (source target : Nat) : Option Int := p.distances.get? source target

/-- The distance between nodes that are known to exist. -/
def distance (source target : Nat) : Int := (p.distance? source target).getD 0

def window? (node : Nat) : Option Window := p.windows[node]?

/-- The window of a node that is known to exist. -/
def window (node : Nat) : Window := (p.window? node).getD ⟨0, 0⟩

/-- When every tour starts. -/
def start : Int := (p.window depot).earliest

/-- When a node is reached and open, after its predecessor was left. -/
def arrival (source : Nat) (departure : Int) (target : Nat) : Int :=
  max (p.window target).earliest (departure + p.distance source target)

variable {p}

theorem sizeDefect?_eq_none : sizeDefect? p.numNodes p.distances.numRows = none := by
  have h := p.sound
  unfold defect? at h
  cases hs : sizeDefect? p.windows.length p.distances.numRows with
  | none => exact hs
  | some cause => rw [hs] at h; cases h

/-- There is a depot and at least one city. -/
theorem two_le_numNodes : 2 ≤ p.numNodes := by
  have h := sizeDefect?_eq_none (p := p)
  unfold sizeDefect? at h
  split at h
  · cases h
  · omega

end Instance
end BranchBound.Routing
