import BranchBound.Text.Cluster.Table

/-! # Clusters

What a reader takes for one character may be written with several: a letter with its marks, a
syllable, a flag, a picture put together from others.  Text is cut into such clusters, the
extended grapheme clusters of Unicode.

Whether a character joins the cluster before it depends on that cluster alone, so `joins` is
given the characters of the cluster so far, the nearest first. -/
namespace BranchBound.Text

/-- What is taken for one character. -/
abbrev Cluster := List Char

/-- How a character behaves at the border of a cluster. -/
inductive ClusterRole
  | carriageReturn
  | lineFeed
  | control
  | extender
  | joiner
  | spacingMark
  | prepended
  | leading
  | vowel
  | trailing
  /-- A syllable of Hangul that may take a final consonant. -/
  | openSyllable
  /-- A syllable of Hangul with a final consonant. -/
  | closedSyllable
  | regionalIndicator
  | pictograph
  | other
  deriving Repr, DecidableEq

namespace ClusterRole

/-- The syllables of Hangul are in order, those with the same beginning in groups of 28. -/
def ofSyllable? (c : Char) : Option ClusterRole :=
  if 0xAC00 ≤ c.toNat ∧ c.toNat ≤ 0xD7A3 then
    some (if (c.toNat - 0xAC00) % 28 = 0 then openSyllable else closedSyllable)
  else none

/-- The sets of characters of a role. -/
def table : List (CharacterSet × ClusterRole) :=
  [(.controls, control), (.extenders, extender), (.spacingMarks, spacingMark),
    (.prepended, prepended), (.leadingJamo, leading), (.vowelJamo, vowel),
    (.trailingJamo, trailing), (.regionalIndicators, regionalIndicator),
    (.pictographs, pictograph)]

def ofChar (c : Char) : ClusterRole :=
  if c = '\r' then carriageReturn
  else if c = '\n' then lineFeed
  else if c = '\u200d' then joiner
  else match ofSyllable? c with
    | some role => role
    | none => ((table.find? (·.1.contains c)).map (·.2)).getD other

/-- Whether a cluster ends before and behind the character. -/
def isBreak (role : ClusterRole) : Bool :=
  role = carriageReturn || role = lineFeed || role = control

/-- Whether two parts of Hangul are in one syllable. -/
def joinsSyllable : ClusterRole → ClusterRole → Bool
  | leading, next =>
    next = leading || next = vowel || next = openSyllable || next = closedSyllable
  | vowel, next | openSyllable, next => next = vowel || next = trailing
  | trailing, next | closedSyllable, next => next = trailing
  | _, _ => false

end ClusterRole

/-- Whether the characters end with a picture, its marks and a joiner. -/
def awaitsPictograph : List Char → Bool
  | [] => false
  | c :: before =>
    ClusterRole.ofChar c = .joiner &&
      (before.find? (ClusterRole.ofChar · ≠ .extender)).any (ClusterRole.ofChar · = .pictograph)

/-- Whether the characters end with half a flag. -/
def awaitsIndicator (before : List Char) : Bool :=
  (before.takeWhile (ClusterRole.ofChar · = .regionalIndicator)).length % 2 = 1

/-- Marks that may stand between a consonant and the one it is linked to. -/
def isConjunctMark (c : Char) : Bool :=
  (ClusterRole.ofChar c = .extender && c ≠ '\u200c') || ClusterRole.ofChar c = .joiner

/-- Whether the characters end with a consonant and marks that link it to the next. -/
def awaitsConsonant (before : List Char) : Bool :=
  (before.takeWhile isConjunctMark).any CharacterSet.conjunctLinkers.contains &&
    (before.find? (!isConjunctMark ·)).any CharacterSet.conjunctConsonants.contains

/-- Whether a character belongs to the cluster before it. -/
def joins (before : List Char) (c : Char) : Bool :=
  match before with
  | [] => false
  | previous :: _ =>
    let role := ClusterRole.ofChar previous
    let next := ClusterRole.ofChar c
    if role.isBreak || next.isBreak then role = .carriageReturn && next = .lineFeed
    else
      next = .extender || next = .joiner || next = .spacingMark || role = .prepended ||
        role.joinsSyllable next ||
        (next = .pictograph && awaitsPictograph before) ||
        (next = .regionalIndicator && awaitsIndicator before) ||
        (CharacterSet.conjunctConsonants.contains c && awaitsConsonant before)

/-- The clusters of a text behind the beginning of a cluster. -/
def clustersAfter (before : List Char) : List Char → List Cluster
  | [] => [before.reverse]
  | c :: rest =>
    if joins before c then clustersAfter (c :: before) rest
    else before.reverse :: clustersAfter [c] rest

/-- The clusters of a text. -/
def clusters : List Char → List Cluster
  | [] => []
  | c :: rest => clustersAfter [c] rest

end BranchBound.Text
