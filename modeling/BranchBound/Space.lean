import BranchBound.Cells
import BranchBound.Descent
import BranchBound.Store

/-! # Spaces

A space is what constraints read and narrow: the store of the variables and the trailed
integers, which open and leave levels together.

A *filter* is a computation on a space that can be refuted.  Filters are built from the
narrowings of the store and from assignments to cells, and `untilStable` repeats a filtering
pass until it narrows nothing: **the number of values falls with every repetition**, so the
repetition ends. -/
namespace BranchBound

structure Space where
  store : Store := {}
  cells : Cells := {}
  deriving Repr, DecidableEq

namespace Space

instance : Inhabited Space := ⟨{}⟩

def level (s : Space) : Nat := s.store.level

def numValues (s : Space) : Nat := s.store.numValues

def checkpoint (s : Space) : Space := ⟨s.store.checkpoint, s.cells.checkpoint⟩

/-- Undoes every change made since level `target` was left. -/
def restore (s : Space) (target : Nat) : Except Fault Space := do
  return ⟨← s.store.restore target, ← s.cells.restore target⟩

end Space

/-! ## Filters -/

/-- A computation that reads and narrows a space. -/
abbrev Filter (α : Type) := EStateM Halt Space α

namespace Filter
variable {α β : Type}

/-- A computation on the store alone. -/
def onStore (f : EStateM Halt Store α) : Filter α := fun ⟨store, cells⟩ =>
  match f store with
  | .ok a store => .ok a ⟨store, cells⟩
  | .error e store => .error e ⟨store, cells⟩

/-- A computation on the space alone, for one that keeps a memory beside it. -/
def beside {μ : Type} (f : Filter α) : EStateM Halt (μ × Space) α := fun (m, s) =>
  match f s with
  | .ok a s => .ok a (m, s)
  | .error e s => .error e (m, s)

def setLower (v : Var) (x : Int) : Filter Bool := onStore (Store.setLower v x)
def setUpper (v : Var) (x : Int) : Filter Bool := onStore (Store.setUpper v x)
def remove (v : Var) (x : Int) : Filter Bool := onStore (Store.remove v x)
def assign (v : Var) (x : Int) : Filter Bool := onStore (Store.assign v x)
def narrow (v : Var) (first last : Int) : Filter Bool := onStore (Store.narrow v first last)

/-- Assigns a trailed integer. -/
def assignCell (i : Nat) (x : Int) : Filter Unit :=
  modify fun s => { s with cells := s.cells.assign i x }

/-- What is read off the current store. -/
def read (f : Store → α) : Filter α := fun s => .ok (f s.store) s

/-- Runs a narrowing for every element in turn; answers whether any of them changed a domain. -/
def each (xs : List β) (f : β → Filter Bool) : Filter Bool :=
  xs.foldlM (fun changed x => return (← f x) || changed) false

/-- Runs one narrowing after another; answers whether any of them changed a domain. -/
def inTurn (fs : List (Filter Bool)) : Filter Bool := each fs id

/-- Repeats a pass until it narrows nothing. -/
def untilStable (pass : Filter Bool) : Filter Unit := descend Space.numValues pass

end Filter
end BranchBound
