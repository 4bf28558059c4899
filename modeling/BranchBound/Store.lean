import BranchBound.Arena
import BranchBound.Domain
import BranchBound.Event
import BranchBound.Trail

/-! # The store

The domains of all variables, the trail on which their changes are undone, and the events
that nobody has been told about yet.

The five narrowing operations (`setLower`, `setUpper`, `remove`, `assign`, `narrow`)
intersect a domain with the set that they name.  **They are atomic**: if no value would be
left, the operation is refuted and the store is what it was.  Otherwise they answer whether
the domain changed, and every change leaves one entry on the trail and one event, with an
`assign` event behind it if it left a single value. -/
namespace BranchBound

/-- What a change replaced. -/
inductive Change
  | lower (v : Var) (bound : Int) (size : Nat)
  | upper (v : Var) (bound : Int) (size : Nat)
  | hole (v : Var) (value : Int)
  deriving Repr, DecidableEq

structure Store where
  domains : Arena Domain := {}
  trail : Trail Change := {}
  /-- The events that are not delivered yet, latest first. -/
  events : List (Var × Event) := []
  deriving Repr, DecidableEq

namespace Store

instance : Inhabited Store := ⟨{}⟩

section
variable (s : Store)

def numVars : Nat := s.domains.size

def level : Nat := s.trail.level

def domain? (v : Var) : Option Domain := s.domains.get? v

/-- The domain of a variable that is known to exist. -/
def domain (v : Var) : Domain := (s.domain? v).getD default

def lower (v : Var) : Int := (s.domain v).lower
def upper (v : Var) : Int := (s.domain v).upper
def contains (v : Var) (x : Int) : Bool := (s.domain v).contains x
def isFixed (v : Var) : Bool := (s.domain v).isFixed
def fixed? (v : Var) : Option Int := (s.domain v).fixed?
def values (v : Var) : List Int := (s.domain v).values

/-- The number of values in all domains together: what every narrowing lowers. -/
def numValues : Nat := s.domains.items.foldl (fun n d => n + d.size) 0

/-- The undelivered events in the order in which they happened. -/
def pending : List (Var × Event) := s.events.reverse

/-- Forgets the undelivered events. -/
def drain : Store := { s with events := [] }

/-- Declares a variable with the values from `lower` to `upper`. -/
def declare (lower upper : Int) : Except Fault Store :=
  if lower ≤ upper then .ok { s with domains := s.domains.push (.ofRange lower upper) }
  else .error (.emptyVariable lower upper)

/-- Opens a level. -/
def checkpoint : Store := { s with trail := s.trail.checkpoint }

/-- Puts back what a change replaced. -/
def undo (domains : Arena Domain) : Change → Arena Domain
  | .lower v bound size => domains.modify v fun d => { d with lower := bound, size }
  | .upper v bound size => domains.modify v fun d => { d with upper := bound, size }
  | .hole v value => domains.modify v (·.putBack value)

/-- Undoes every change made since level `target` was left; undelivered events are forgotten. -/
def restore (target : Nat) : Except Fault Store := do
  let (undone, trail) ← s.trail.restore target
  return ⟨undone.foldl undo s.domains, trail, []⟩

/-- Replaces the domain of `v`, with what is needed to undo it and to tell the others. -/
def record (v : Var) (d : Domain) (change : Change) (event : Event) : Store :=
  { domains := s.domains.set v d
    trail := s.trail.push change
    events := if d.isFixed then (v, .assign) :: (v, event) :: s.events else (v, event) :: s.events }

end

/-! ## Narrowing -/

/-- A change of the store that answers whether the domain changed. -/
abbrev Narrowing := EStateM Halt Store Bool

/-- Runs an operation on the domain of a variable that has to exist. -/
def withDomain (v : Var) (f : Domain → Narrowing) : Narrowing := fun s =>
  match s.domain? v with
  | some d => f d s
  | none => fail .outOfRange s

/-- Keeps the values that are at least `x`. -/
def setLower (v : Var) (x : Int) : Narrowing := withDomain v fun d =>
  if x ≤ d.lower then pure false
  else
    match d.ceil x with
    | none => refute .emptyDomain
    | some bound => modifyGet fun s =>
      (true, s.record v (d.raise bound) (.lower v d.lower d.size) .lowerBound)

/-- Keeps the values that are at most `x`. -/
def setUpper (v : Var) (x : Int) : Narrowing := withDomain v fun d =>
  if d.upper ≤ x then pure false
  else
    match d.floor x with
    | none => refute .emptyDomain
    | some bound => modifyGet fun s =>
      (true, s.record v (d.cut bound) (.upper v d.upper d.size) .upperBound)

/-- Keeps the values other than `x`; a plain interval keeps a value between its bounds. -/
def remove (v : Var) (x : Int) : Narrowing := withDomain v fun d =>
  if !d.contains x then pure false
  else if d.lower = d.upper then refute .emptyDomain
  else if x = d.lower then setLower v (x + 1)
  else if x = d.upper then setUpper v (x - 1)
  else if d.hasHoles then modifyGet fun s => (true, s.record v (d.drop x) (.hole v x) .removal)
  else pure false

/-- Keeps both of two narrowings; the second is not tried if the first is refuted. -/
def both (first second : Narrowing) : Narrowing := do
  let a ← first
  let b ← second
  return a || b

/-- Keeps the value `x` alone. -/
def assign (v : Var) (x : Int) : Narrowing := withDomain v fun d =>
  if d.contains x then both (setLower v x) (setUpper v x) else refute .emptyDomain

/-- Keeps the values from `first` to `last`. -/
def narrow (v : Var) (first last : Int) : Narrowing := withDomain v fun d =>
  let first := max first d.lower
  let last := min last d.upper
  match d.ceil first with
  | none => refute .emptyDomain
  | some x => if x ≤ last then both (setLower v first) (setUpper v last) else refute .emptyDomain

end Store
end BranchBound
