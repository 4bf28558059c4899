import BranchBound.Format.Error
import BranchBound.Text.Blank
import BranchBound.Text.Number

/-! # Lines

A file is read line by line.  A line ends with a line feed; the last line need not.  Every line
is trimmed, also of a carriage return before the line feed.  A line that is not UTF-8 cannot be
read, but it counts. -/
namespace BranchBound

/-- A line that was read. -/
structure Line where
  number : Nat
  text : List Char
  deriving Repr, DecidableEq

/-- The lines that are not read yet. -/
structure Lines where
  /-- The number of lines that were read. -/
  numRead : Nat := 0
  /-- The next line first; a line that is not UTF-8 has no text. -/
  rest : List (Option (List Char)) := []
  deriving Repr, DecidableEq

namespace Lines

/-- Puts a byte in front of lines: a line feed ends a line, any other byte joins the first. -/
def addToLines (byte : UInt8) : List (List UInt8) → List (List UInt8)
  | [] => if byte = 10 then [[]] else [[byte]]
  | line :: lines => if byte = 10 then [] :: line :: lines else (byte :: line) :: lines

/-- The bytes cut behind every line feed, which is dropped. -/
def split (bytes : List UInt8) : List (List UInt8) := bytes.foldr addToLines []

/-- The text of a line, if it is UTF-8. -/
def decode (bytes : List UInt8) : Option (List Char) :=
  (String.fromUTF8? ⟨bytes.toArray⟩).map fun text => Text.trim text.toList

def ofBytes (bytes : ByteArray) : Lines := { rest := (split bytes.data.toList).map decode }

end Lines

/-- A computation that reads lines. -/
abbrev Reader := EStateM FormatError Lines

namespace Reader

/-- The next line, if there is one. -/
def next : Reader (Option Line) := fun lines =>
  match lines.rest with
  | [] => .ok none lines
  | none :: rest => .error .unreadable ⟨lines.numRead + 1, rest⟩
  | some text :: rest => .ok (some ⟨lines.numRead + 1, text⟩) ⟨lines.numRead + 1, rest⟩

/-- The next line, which has to be there. -/
def expect (part : String) : Reader Line := do
  match ← next with
  | none => throw (.endsBefore part)
  | some line => return line

/-- All tokens of a line as numbers. -/
def values (number? : List Char → Option Int) (line : Line) : Except FormatError (List Int) :=
  (Text.tokens line.text).mapM fun token =>
    match number? token with
    | none => .error (.notANumber line.number token)
    | some value => .ok value

/-- As many numbers as expected. -/
def exactly (number? : List Char → Option Int) (expected : Nat) (line : Line) :
    Except FormatError (List Int) := do
  let numbers ← values number? line
  if numbers.length = expected then return numbers
  else throw (.wrongNumValues line.number expected numbers.length)

/-- A line that holds nothing but a number that is not negative. -/
def count (part : String) : Reader Nat := do
  let line ← expect part
  match Text.integer? line.text with
  | some (.ofNat n) => return n
  | _ => throw (.notANumber line.number line.text)

/-- A result that may be an error, inside of a reader. -/
def ofExcept {α : Type} : Except FormatError α → Reader α
  | .ok a => pure a
  | .error e => throw e

end Reader
end BranchBound
