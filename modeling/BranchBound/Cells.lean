import BranchBound.Arena
import BranchBound.Trail

/-! # Trailed integers

Integers that return to their old value when a level is left.  Constraints keep their
incremental state in such cells.  A cell that is allocated stays allocated; leaving a
level only undoes assignments. -/
namespace BranchBound

/-- The old value of a cell. -/
structure CellChange where
  cell : Nat
  old : Int
  deriving Repr, DecidableEq

structure Cells where
  values : Arena Int := {}
  trail : Trail CellChange := {}
  deriving Repr, DecidableEq

namespace Cells

instance : Inhabited Cells := ⟨{}⟩

def get? (c : Cells) (i : Nat) : Option Int := c.values.get? i

/-- The value of a cell; a cell that was never allocated holds nothing but zero. -/
def value (c : Cells) (i : Nat) : Int := (c.get? i).getD 0

/-- Allocates a cell. -/
def grow (c : Cells) (x : Int) : Cells := { c with values := c.values.push x }

/-- Assigns a cell; assigning the value that it holds is no change. -/
def assign (c : Cells) (i : Nat) (x : Int) : Cells :=
  if c.get? i = some x then c
  else { values := c.values.set i x, trail := c.trail.push ⟨i, c.value i⟩ }

def checkpoint (c : Cells) : Cells := { c with trail := c.trail.checkpoint }

def undo (values : Arena Int) (change : CellChange) : Arena Int :=
  values.set change.cell change.old

/-- Undoes every assignment made since level `target` was left. -/
def restore (c : Cells) (target : Nat) : Except Fault Cells := do
  let (undone, trail) ← c.trail.restore target
  return ⟨undone.foldl undo c.values, trail⟩

theorem get?_grow (c : Cells) (x : Int) (i : Nat) :
    (c.grow x).get? i = if i = c.values.size then some x else c.get? i := by
  simp [get?, grow, Arena.get?_push]

theorem get?_assign (c : Cells) (i k : Nat) (x : Int) :
    (c.assign i x).get? k = if i = k then (c.get? k).map fun _ => x else c.get? k := by
  unfold assign
  split
  · split
    · subst i; simp [*]
    · rfl
  · simp [get?, Arena.get?_set]

end Cells
end BranchBound
