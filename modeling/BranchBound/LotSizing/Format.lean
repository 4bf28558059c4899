import BranchBound.Format.Lines
import BranchBound.LotSizing.Instance

/-! # Files with plans to find

The horizon, the number of items and the number of orders, each on a line; a row of changeover
costs for every item and a blank line; the stocking costs of the items; and for every item a line
with its demands, period by period.  The demands may end early, and blank lines may stand in
front of the changeover costs (one), in front of the demands and behind them.  What comes behind
a blank line after the first demands is not looked at, and an item without a line is not
demanded. -/
namespace BranchBound.LotSizing

/-- The rows from `line` up to a blank line, which is answered too; `rest` is what comes behind
`line`. -/
def rowsFrom (numItems : Nat) (line : Line) (rest : List (Option (List Char))) :
    EStateM.Result FormatError Lines (List (List Int) × Line) :=
  if line.text.isEmpty then .ok ([], line) ⟨line.number, rest⟩
  else
    match Reader.exactly Text.integer? numItems line with
    | .error e => .error e ⟨line.number, rest⟩
    | .ok row =>
      match rest with
      | [] => .error (.endsBefore "the stocking costs") ⟨line.number, []⟩
      | none :: rest => .error .unreadable ⟨line.number + 1, rest⟩
      | some text :: rest =>
        match rowsFrom numItems ⟨line.number + 1, text⟩ rest with
        | .error e lines => .error e lines
        | .ok (rows, last) lines => .ok (row :: rows, last) lines

/-- The changeover costs, and the blank line behind them. -/
def readChangeovers (numItems : Nat) : Reader (List (List Int)) := do
  let part := "the changeover costs"
  let first ← Reader.expect part
  let first ← if first.text.isEmpty then Reader.expect part else pure first
  let (rows, last) ← fun lines => rowsFrom numItems first lines.rest
  if rows.length = numItems then return rows
  else throw (.wrongNumValues last.number numItems rows.length)

/-- The demands of an item, as far as they are given. -/
def demandRow (horizon : Nat) (line : Line) : Except FormatError (List Int) := do
  let row ← Reader.values Text.integer? line
  if row.length ≤ horizon then return row
  else throw (.wrongNumValues line.number horizon row.length)

/-- The demands of the items that are left, from the lines that are left after `numRead`;
`begun` says whether an item had its line already. -/
def demandRows (horizon numRead : Nat) (begun : Bool) :
    Nat → List (Option (List Char)) → Except FormatError (List (List Int))
  | _, [] => .ok []
  | _, none :: _ => .error .unreadable
  | numItems, some text :: rest =>
    if text.isEmpty then
      if begun then .ok [] else demandRows horizon (numRead + 1) false numItems rest
    else
      match numItems with
      | 0 => .error (.goesOn (numRead + 1) "the demand of every item")
      | numItems + 1 => do
        let row ← demandRow horizon ⟨numRead + 1, text⟩
        return row :: (← demandRows horizon (numRead + 1) true numItems rest)

/-- A row with zeros behind it. -/
def fill (horizon : Nat) (row : List Int) : List Int :=
  row ++ List.replicate (horizon - row.length) 0

def readInstance : Reader Instance := do
  let horizon ← Reader.count "the horizon"
  let numItems ← Reader.count "the number of items"
  let _ ← Reader.count "the number of orders"
  let changeovers ← readChangeovers numItems
  let stockingCosts ← Reader.ofExcept
    (Reader.exactly Text.integer? numItems (← Reader.expect "the stocking costs"))
  let lines ← get
  let given ← Reader.ofExcept (demandRows horizon lines.numRead false numItems lines.rest)
  let demands := given ++ List.replicate (numItems - given.length) []
  match Instance.ofRows changeovers stockingCosts (demands.map (fill horizon)) with
  | .ok p => return p
  | .error cause => throw (.invalid cause)

def parse (bytes : ByteArray) : Except FormatError Instance :=
  match readInstance (Lines.ofBytes bytes) with
  | .ok p _ => .ok p
  | .error e _ => .error e

end BranchBound.LotSizing
