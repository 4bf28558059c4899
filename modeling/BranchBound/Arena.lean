/-! # Arenas

Values numbered in the order in which they were allocated.  Variables, trailed integers,
constraints and weights are all referred to by such a number.  The view of an arena is
`get?`; every operation has one equation for it. -/
namespace BranchBound

/-- Values that are referred to by the order of their allocation. -/
structure Arena (α : Type) where
  items : Array α := #[]
  deriving Repr, DecidableEq

namespace Arena
variable {α β : Type}

instance : Inhabited (Arena α) := ⟨{}⟩

def ofList (xs : List α) : Arena α := ⟨xs.toArray⟩

def toList (a : Arena α) : List α := a.items.toList

def size (a : Arena α) : Nat := a.items.size

def isEmpty (a : Arena α) : Bool := a.items.isEmpty

/-- The numbers in use. -/
def keys (a : Arena α) : List Nat := List.range a.size

def get? (a : Arena α) (k : Nat) : Option α := a.items[k]?

/-- Allocates `x`; its number is the size of the arena before. -/
def push (a : Arena α) (x : α) : Arena α := ⟨a.items.push x⟩

/-- Replaces a value; a number that is not in use changes nothing. -/
def set (a : Arena α) (k : Nat) (x : α) : Arena α := ⟨a.items.setIfInBounds k x⟩

def modify (a : Arena α) (k : Nat) (f : α → α) : Arena α := ⟨a.items.modify k f⟩

def map (f : α → β) (a : Arena α) : Arena β := ⟨a.items.map f⟩

/-- Allocates copies of `x` until `k` is in use. -/
def accommodate (a : Arena α) (k : Nat) (x : α) : Arena α :=
  if k < a.size then a else ⟨a.items ++ Array.replicate (k + 1 - a.size) x⟩

theorem size_push (a : Arena α) (x : α) : (a.push x).size = a.size + 1 := by
  simp [size, push]

theorem size_set (a : Arena α) (k : Nat) (x : α) : (a.set k x).size = a.size := by
  simp [size, set]

theorem size_modify (a : Arena α) (k : Nat) (f : α → α) : (a.modify k f).size = a.size := by
  simp [size, modify]

theorem get?_push (a : Arena α) (x : α) (k : Nat) :
    (a.push x).get? k = if k = a.size then some x else a.get? k := by
  simp only [get?, push, size, Array.getElem?_push]
  rfl

theorem get?_set (a : Arena α) (i k : Nat) (x : α) :
    (a.set i x).get? k = if i = k then (a.get? k).map fun _ => x else a.get? k := by
  simp only [get?, set, Array.getElem?_setIfInBounds]
  split
  · subst i
    split
    · simp [*]
    · simp [*]
  · rfl

theorem get?_modify (a : Arena α) (i k : Nat) (f : α → α) :
    (a.modify i f).get? k = if i = k then (a.get? k).map f else a.get? k := by
  simp [get?, modify, Array.getElem?_modify]

theorem get?_accommodate (a : Arena α) (i k : Nat) (x : α) :
    (a.accommodate i x).get? k =
      if k < a.size then a.get? k else if k ≤ i then some x else none := by
  unfold accommodate get? size
  split
  · split
    · rfl
    · split
      · omega
      · simp; omega
  · split
    · rw [Array.getElem?_append_left (by omega)]
    · rw [Array.getElem?_append_right (by omega), Array.getElem?_replicate]
      simp only [show k - a.items.size < i + 1 - a.items.size ↔ k ≤ i by omega]

end Arena
end BranchBound
