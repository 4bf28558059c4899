import BranchBound.Arena
import BranchBound.Fault
import BranchBound.Heap
import BranchBound.Propagator
import BranchBound.Sum

/-! # The queue

The propagators that wait for their turn.  There is one lane for every priority; a lane is
first in, first out, and a lane is served only when all lanes before it are empty.  A
propagator waits at most once: enqueuing it again before its turn changes nothing, whatever
the lane.

So that nobody has to look through the lanes, a queue also keeps a table of who waits, the
number of those who wait, and a heap of the lanes that are not empty. -/
namespace BranchBound

structure Queue where
  /-- What waits, by priority, each next in turn first. -/
  lanes : List (List Nat) := List.replicate Priority.numLanes []
  /-- Whether a propagator waits. -/
  waiting : Arena Bool := {}
  /-- How many wait. -/
  count : Nat := 0
  /-- The lanes that are not empty. -/
  occupied : Heap := {}
  deriving Repr, DecidableEq

namespace Queue

instance : Inhabited Queue := ⟨{}⟩

def withLanes (n : Nat) : Queue := { lanes := List.replicate n [] }

variable (q : Queue)

def isEmpty : Bool := q.count == 0

/-- The number of propagators in the lanes. -/
def length : Nat := sumNat (q.lanes.map List.length)

def isWaiting (id : Nat) : Bool := (q.waiting.get? id).getD false

/-- Lets a propagator wait in a lane, unless it waits already. -/
def enqueue (id lane : Nat) : Queue :=
  if q.isWaiting id then q
  else
    { lanes := q.lanes.modify lane (· ++ [id])
      waiting := (q.waiting.accommodate id false).set id true
      count := q.count + 1
      occupied := if q.lanes[lane]? = some [] then q.occupied.push lane else q.occupied }

/-- As `enqueue`, for a lane that may not exist. -/
def enqueue? (id lane : Nat) : Except Fault Queue :=
  if q.isWaiting id || lane < q.lanes.length then .ok (q.enqueue id lane) else .error .outOfRange

/-- The propagator whose turn it is: the head of the first lane that is not empty. -/
def pop : Option (Nat × Queue) :=
  match q.occupied.top? with
  | none => none
  | some first =>
    match q.lanes[first]? with
    | some (id :: lane) =>
      some (id, {
        lanes := q.lanes.set first lane
        waiting := q.waiting.set id false
        count := q.count - 1
        occupied := if lane.isEmpty then q.occupied.pop else q.occupied })
    | _ => none

def clear : Queue := ⟨q.lanes.map fun _ => [], q.waiting.map fun _ => false, 0, {}⟩

variable {q}

/-- **What a turn does.** -/
theorem eq_of_pop {q' : Queue} {id : Nat} (h : q.pop = some (id, q')) :
    ∃ first lane, q.occupied.top? = some first ∧ q.lanes[first]? = some (id :: lane) ∧
      q' = {
        lanes := q.lanes.set first lane
        waiting := q.waiting.set id false
        count := q.count - 1
        occupied := if lane.isEmpty then q.occupied.pop else q.occupied } := by
  unfold pop at h
  split at h
  · cases h
  · rename_i first hfirst
    split at h
    · rename_i lane hlane
      cases h
      exact ⟨first, lane, hfirst, hlane, rfl⟩
    · cases h

theorem pop_clear (q : Queue) : q.clear.pop = none := rfl

end Queue
end BranchBound
