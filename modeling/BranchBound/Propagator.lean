import BranchBound.Space

/-! # Propagators

A propagator narrows the domains of its variables to what a constraint allows.  It says
which events of which variables it wants to be told about, and it may ask for trailed
integers.  After that it is called in three ways:

* `notify`, for every event that it watches: it may take note of the event, and answers
  whether it wants to be called;
* `propagate`, when it is its turn: it narrows domains, or refutes them;
* `synchronise`, when the space returned to an earlier level: what it noted is outdated.

`Propagator π` collects this for a type `π` of propagators.  A propagator may keep a memory
that is not trailed; it is a part of the value, so every call hands back the propagator as
it is afterwards. -/
namespace BranchBound

/-- The order in which queued propagators are called; cheap ones go first. -/
inductive Priority
  | high
  | medium
  | low
  | veryLow
  deriving Repr, DecidableEq

namespace Priority

/-- The position of a priority among all priorities. -/
def lane : Priority → Nat
  | .high => 0
  | .medium => 1
  | .low => 2
  | .veryLow => 3

def numLanes : Nat := 4

theorem lane_lt (p : Priority) : p.lane < numLanes := by cases p <;> decide

end Priority

class Propagator (π : Type) where
  name : π → String
  priority : π → Priority
  /-- Whether the arguments fit together. -/
  fits : π → Bool
  /-- What it wants to be told; `notify` refers to a variable by its position here. -/
  watches : π → List (Var × List Event)
  /-- The initial values of the trailed integers that it needs. -/
  cells : π → List Int
  /-- Tells it the number of its first trailed integer, and the domains that it starts from. -/
  attach : π → Nat → Store → π
  notify : π → Space → Nat → Event → π × Bool
  synchronise : π → Space → π
  propagate : π → Space → EStateM.Result Halt (π × Space) Unit

/-- A call of a propagator without memory. -/
def Filter.run {π : Type} (p : π) (f : Filter Unit) (s : Space) :
    EStateM.Result Halt (π × Space) Unit :=
  f.beside (p, s)

/-- Either of two kinds of propagators. -/
instance {π ρ : Type} [Propagator π] [Propagator ρ] : Propagator (π ⊕ ρ) where
  name := Sum.elim Propagator.name Propagator.name
  priority := Sum.elim Propagator.priority Propagator.priority
  fits := Sum.elim Propagator.fits Propagator.fits
  watches := Sum.elim Propagator.watches Propagator.watches
  cells := Sum.elim Propagator.cells Propagator.cells
  attach
    | .inl p, cell, store => .inl (Propagator.attach p cell store)
    | .inr p, cell, store => .inr (Propagator.attach p cell store)
  notify
    | .inl p, s, i, e => (Propagator.notify p s i e).map .inl id
    | .inr p, s, i, e => (Propagator.notify p s i e).map .inr id
  synchronise
    | .inl p, s => .inl (Propagator.synchronise p s)
    | .inr p, s => .inr (Propagator.synchronise p s)
  propagate
    | .inl p, s =>
      match Propagator.propagate p s with
      | .ok _ (p, s) => .ok () (.inl p, s)
      | .error e (p, s) => .error e (.inl p, s)
    | .inr p, s =>
      match Propagator.propagate p s with
      | .ok _ (p, s) => .ok () (.inr p, s)
      | .error e (p, s) => .error e (.inr p, s)

end BranchBound
