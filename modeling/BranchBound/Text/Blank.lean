/-! # Blanks

White space as Unicode defines it, and the two things it is needed for: text is trimmed of
it at both ends, and cut into tokens by it. -/
namespace BranchBound.Text

/-- The property `White_Space` of Unicode. -/
def isBlank (c : Char) : Bool :=
  let n := c.toNat
  (0x9 ≤ n && n ≤ 0xD) || n == 0x20 || n == 0x85 || n == 0xA0 || n == 0x1680 ||
    (0x2000 ≤ n && n ≤ 0x200A) || n == 0x2028 || n == 0x2029 || n == 0x202F || n == 0x205F ||
    n == 0x3000

/-- The text without blanks at its ends. -/
def trim (text : List Char) : List Char :=
  ((text.dropWhile isBlank).reverse.dropWhile isBlank).reverse

/-- Puts a character in front of pieces: a blank ends a piece, any other joins the first. -/
def addToPieces (c : Char) : List (List Char) → List (List Char)
  | [] => if isBlank c then [[]] else [[c]]
  | piece :: pieces => if isBlank c then [] :: piece :: pieces else (c :: piece) :: pieces

/-- The text cut at every blank. -/
def pieces (text : List Char) : List (List Char) := text.foldr addToPieces []

/-- The longest parts of the text without blanks. -/
def tokens (text : List Char) : List (List Char) := (pieces text).filter (!·.isEmpty)

end BranchBound.Text
