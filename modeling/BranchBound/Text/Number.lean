import BranchBound.Word

/-! # Numbers

How numbers are written in files and on the command line, and how they are printed.  Integers
have to fit into a word of 64 bits.  A *scaled* number is a decimal number that is multiplied by
ten thousand; digits beyond the fourth place are cut off. -/
namespace BranchBound.Text

def isDigits (text : List Char) : Bool := text.all Char.isDigit

def digitValue (c : Char) : Nat := c.toNat - '0'.toNat

/-- The number that digits stand for. -/
def ofDigits (digits : List Char) : Nat := digits.foldl (fun n c => 10 * n + digitValue c) 0

/-- At least one digit. -/
def natural? (text : List Char) : Option Nat :=
  if text.isEmpty || !isDigits text then none else some (ofDigits text)

/-- An optional sign and at least one digit. -/
def integer? (text : List Char) : Option Int := do
  let value : Int ← match text with
    | '-' :: digits => (natural? digits).map fun n => -(n : Int)
    | '+' :: digits => (natural? digits).map Int.ofNat
    | digits => (natural? digits).map Int.ofNat
  if Word.minInteger ≤ value ∧ value ≤ Word.maxInteger then some value else none

/-- An optional plus sign and at least one digit; the number has to fit into a word. -/
def unsigned? (text : List Char) : Option Nat := do
  let value ← match text with
    | '+' :: digits => natural? digits
    | digits => natural? digits
  if value < Word.size then some value else none

/-- The number of decimal places of a scaled number. -/
def places : Nat := 4

/-- What a number is multiplied by. -/
def scale : Nat := 10000

/-- The digits in front of the first point. -/
def integralPart (text : List Char) : List Char := text.takeWhile (· ≠ '.')

/-- What comes after the first point. -/
def fractionalPart (text : List Char) : List Char := (text.dropWhile (· ≠ '.')).drop 1

/-- The first decimal places, as many as the scale has. -/
def firstPlaces (digits : List Char) : List Char := (digits ++ List.replicate places '0').take places

/-- Digits with at most one point among them and at least one digit, scaled. -/
def unsignedScaled? (text : List Char) : Option Nat :=
  let integral := integralPart text
  let fractional := fractionalPart text
  if (integral.isEmpty && fractional.isEmpty) || !isDigits integral || !isDigits fractional then none
  else
    let value := ofDigits integral * scale + ofDigits (firstPlaces fractional)
    if (value : Int) ≤ Word.maxInteger then some value else none

/-- An optional minus sign before an unsigned scaled number. -/
def scaled? : List Char → Option Int
  | '-' :: text => (unsignedScaled? text).map fun n => -(n : Int)
  | text => (unsignedScaled? text).map Int.ofNat

/-! ## Printing -/

/-- Fills up to a width with `fill` on the left. -/
def padLeft (fill : Char) (width : Nat) (text : String) : String :=
  "".pushn fill (width - text.length) ++ text

/-- Fills up to a width with blanks on the right. -/
def padRight (width : Nat) (text : String) : String :=
  text.pushn ' ' (width - text.length)

/-- A non-negative scaled number with all its decimal places. -/
def showScaled (value : Nat) : String :=
  s!"{value / scale}." ++ padLeft '0' places (toString (value % scale))

end BranchBound.Text
