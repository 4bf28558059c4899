import BranchBound.Text.LetterCase.Table

/-! # Letter case

Text in small letters and in capitals, as Unicode defines it.  A letter may become several
characters.  Its small letters depend on its neighbours only for a sigma, which has another
form at the end of a word. -/
namespace BranchBound.Text

/-- The image of a character under the first run that has it. -/
def imageIn (runs : List CaseRun) (c : Char) : Char := (runs.findSome? (·.image? c)).getD c

/-- The small letters for a character, without regard to its neighbours. -/
def smallLetters (c : Char) : List Char :=
  if c = '\u0130' then ['i', '\u0307'] else [imageIn CaseRun.small c]

/-- The capitals for a character. -/
def capitalLetters (c : Char) : List Char :=
  match capitalSequences.lookup c.toNat with
  | some codes => codes.map Char.ofNat
  | none => [imageIn CaseRun.capital c]

/-- Whether a letter with a case begins the text, once what is ignored is left out. -/
def beginsWithCased (text : List Char) : Bool :=
  (text.find? (!CharacterSet.caseIgnorable.contains ·)).any CharacterSet.cased.contains

/-- Whether a character is the last letter of a word: a letter stands before it and none
behind.  `before` has the characters before it, the nearest first. -/
def endsWord (before after : List Char) : Bool :=
  beginsWithCased before && !beginsWithCased after

/-- The small letters for the rest of a text. -/
def lowerAfter (before : List Char) : List Char → List Char
  | [] => []
  | c :: rest =>
    (if c = 'Σ' then [if endsWord before rest then 'ς' else 'σ'] else smallLetters c) ++
      lowerAfter (c :: before) rest

/-- The text in small letters. -/
def lower (text : List Char) : List Char := lowerAfter [] text

/-- The text in capitals. -/
def upper (text : List Char) : List Char := text.flatMap capitalLetters

end BranchBound.Text
