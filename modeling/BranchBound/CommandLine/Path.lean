/-! # Paths

The names in a path: of the file, of the directory around it, and the extension of the file. -/
namespace BranchBound.CommandLine.Path

/-- The names in a path that lead anywhere. -/
def names (path : String) : List String :=
  (path.splitOn "/").filter fun name => name ≠ "" && name ≠ "."

/-- The last of some names, unless it leads upwards. -/
def last? (names : List String) : Option String := names.getLast?.filter (· ≠ "..")

def fileName? (path : String) : Option String := last? (names path)

/-- The name of the directory that the path leads to. -/
def directoryName? (path : String) : Option String := last? (names path).dropLast

/-- What stands behind the last point of a file name, unless the name starts with that point. -/
def extension? (path : String) : Option String := do
  let name ← fileName? path
  let parts := name.splitOn "."
  let stem := parts.dropLast
  if stem = [] ∨ stem = [""] then none else parts.getLast?

/-- The name of the file together with the directory around it. -/
def displayName (path : String) : String :=
  let file := (fileName? path).getD ""
  match directoryName? path with
  | some directory => directory ++ "/" ++ file
  | none => file

end BranchBound.CommandLine.Path
