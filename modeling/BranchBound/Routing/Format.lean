import BranchBound.Format.Lines
import BranchBound.Routing.Instance

/-! # Files with tours to find

The number of nodes, a row of distances for every node, and a line with the earliest and the
latest time of every node.  Blank lines and lines that start with `#` are skipped.  Times and
distances are scaled numbers. -/
namespace BranchBound.Routing

/-- Whether a line says something. -/
def isContent (text : List Char) : Bool := !text.isEmpty && text.head? ≠ some '#'

/-- The next line that says something, from the lines that are left after `numRead`. -/
def nextContent (part : String) (numRead : Nat) :
    List (Option (List Char)) → EStateM.Result FormatError Lines Line
  | [] => .error (.endsBefore part) ⟨numRead, []⟩
  | none :: rest => .error .unreadable ⟨numRead + 1, rest⟩
  | some text :: rest =>
    if isContent text then .ok ⟨numRead + 1, text⟩ ⟨numRead + 1, rest⟩
    else nextContent part (numRead + 1) rest

def content (part : String) : Reader Line := fun lines => nextContent part lines.numRead lines.rest

/-- The number of nodes, which other tokens may follow. -/
def readNumNodes : Reader Nat := do
  let line ← content "the number of nodes"
  match (Text.tokens line.text).head?.bind Text.integer? with
  | some (.ofNat n) => return n
  | _ => throw (.notANumber line.number line.text)

/-- The given number of lines with the given number of values each. -/
def readTable (part : String) (numColumns : Nat) : Nat → Reader (List (List Int))
  | 0 => return []
  | numRows + 1 => do
    let row ← Reader.ofExcept (Reader.exactly Text.scaled? numColumns (← content part))
    return row :: (← readTable part numColumns numRows)

def readInstance : Reader Instance := do
  let numNodes ← readNumNodes
  let rows ← readTable "the distance matrix" numNodes numNodes
  let windows ← readTable "the time windows" 2 numNodes
  let toWindow (row : List Int) : Window := ⟨row.head?.getD 0, row.getLast?.getD 0⟩
  match Instance.ofRows rows (windows.map toWindow) with
  | .ok p => return p
  | .error cause => throw (.invalid cause)

def parse (bytes : ByteArray) : Except FormatError Instance :=
  match readInstance (Lines.ofBytes bytes) with
  | .ok p _ => .ok p
  | .error e _ => .error e

end BranchBound.Routing
