/-! # Matrices

A table of rows of equal length, kept row after row in one array.  An entry is found at
`row * numColumns + column`, so a column beyond the last reads on in the next row, and
only a position beyond the data is outside of the matrix. -/
namespace BranchBound

structure Matrix (α : Type) where
  numRows : Nat
  numColumns : Nat
  /-- The entries, row after row. -/
  entries : Array α
  size_entries : entries.size = numRows * numColumns
  deriving Repr, DecidableEq

namespace Matrix
variable {α : Type}

/-- The matrix with the same entry everywhere. -/
def replicate (numRows numColumns : Nat) (x : α) : Matrix α :=
  ⟨numRows, numColumns, Array.replicate (numRows * numColumns) x, by simp⟩

/-- The matrix whose entries are computed from their positions. -/
def ofFn (numRows numColumns : Nat) (f : Nat → Nat → α) : Matrix α :=
  ⟨numRows, numColumns,
    Array.ofFn fun i : Fin (numRows * numColumns) => f (i / numColumns) (i % numColumns),
    by simp⟩

/-- The matrix with the given rows, unless they differ in length. -/
def ofRows? (rows : List (List α)) : Option (Matrix α) :=
  let columns := (rows.head?.map List.length).getD 0
  let entries := rows.flatten.toArray
  if rows.all (·.length = columns) then
    if h : entries.size = rows.length * columns then some ⟨rows.length, columns, entries, h⟩
    else none
  else none

def get? (m : Matrix α) (row column : Nat) : Option α :=
  m.entries[row * m.numColumns + column]?

def set (m : Matrix α) (row column : Nat) (x : α) : Matrix α :=
  { m with
    entries := m.entries.setIfInBounds (row * m.numColumns + column) x
    size_entries := by simp [m.size_entries] }

/-- The entries of a row, unless they are not all there. -/
def row? (m : Matrix α) (row : Nat) : Option (List α) :=
  if (row + 1) * m.numColumns ≤ m.entries.size then
    some (m.entries.extract (row * m.numColumns) ((row + 1) * m.numColumns)).toList
  else none

def rows (m : Matrix α) : List (List α) :=
  (List.range m.numRows).filterMap m.row?

def toList (m : Matrix α) : List α := m.entries.toList

theorem get?_replicate (r c i j : Nat) (x : α) :
    (replicate r c x).get? i j = if i * c + j < r * c then some x else none := by
  simp [get?, replicate, Array.getElem?_replicate]

theorem get?_set_self (m : Matrix α) (i j : Nat) (x : α) :
    (m.set i j x).get? i j = (m.get? i j).map fun _ => x := by
  simp only [get?, set, Array.getElem?_setIfInBounds_self]
  split <;> simp [*]

end Matrix
end BranchBound
