import BranchBound.Text.Cluster
import BranchBound.Text.LetterCase

/-! # Camel case

The names of statistics are written in camel case: a name is cut into words, the first word is
written in small letters, and every other word with a capital and small letters.  The capital
stands for the first character of the word, marks and the like behind it are not raised.

A name is cut between clusters, which are capitals, small letters, digits or none of them.
Words are separated by `_`, `-` and spaces.  A new word also begins where a small letter is
followed by a capital, where letters and digits meet, and at the last of several capitals when
a small letter follows it (`XMLName` has the words `XML` and `Name`). -/
namespace BranchBound.Text

namespace Cluster

def isSeparator (c : Cluster) : Bool := c = ['_'] || c = ['-'] || c = [' ']

/-- Whether the cluster has two cases and is written in capitals. -/
def isCapital (c : Cluster) : Bool := upper c ≠ lower c && c = upper c

/-- Whether the cluster has two cases and is written in small letters. -/
def isSmall (c : Cluster) : Bool := upper c ≠ lower c && c = lower c

def isDigit (c : Cluster) : Bool := c.all Char.isDigit

end Cluster

open Cluster in
/-- Whether a word begins at the second of three neighbours; the third may be missing. -/
def beginsWord (before c : Cluster) (after : Option Cluster) : Bool :=
  (isSmall before && isCapital c) || ((isCapital before || isSmall before) && isDigit c) ||
    (isDigit before && (isCapital c || isSmall c)) ||
    (isCapital before && isCapital c && after.any isSmall)

/-- Cuts a name into words, which may be empty.  `before` is the cluster before. -/
def cut (before : Option Cluster) : List Cluster → List (List Cluster)
  | [] => [[]]
  | c :: rest =>
    match cut (some c) rest with
    | [] => []
    | word :: words =>
      if c.isSeparator then [] :: word :: words
      else if before.any (beginsWord · c rest.head?) then [] :: (c :: word) :: words
      else (c :: word) :: words

/-- The words of a name. -/
def words (name : List Char) : List (List Cluster) :=
  (cut none (clusters name)).filter (!·.isEmpty)

/-- A word with a capital and small letters. -/
def capitalised : List Char → List Char
  | [] => []
  | c :: word => capitalLetters c ++ lower word

def camelCase (name : String) : String :=
  match words name.toList with
  | [] => ""
  | word :: rest =>
    String.ofList (lower word.flatten ++ rest.flatMap fun word => capitalised word.flatten)

end BranchBound.Text
