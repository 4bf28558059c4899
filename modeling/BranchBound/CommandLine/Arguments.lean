import BranchBound.Text.Number

/-! # Arguments

What the command line asks for.  Options have a long name, most of them also a short one; a
value stands behind its option, as the next argument or in the same one.  Short options
without a value can be joined.  Behind `--` everything is a path.  Arguments are read from left
to right, and the first that is wrong decides. -/
namespace BranchBound.CommandLine

/-- The kinds of instances. -/
inductive Problem
  | tsptw
  | psp
  deriving Repr, DecidableEq

/-- The name of a problem is also the extension of its files. -/
def Problem.name : Problem → String
  | .tsptw => "tsptw"
  | .psp => "psp"

def Problem.ofName? (name : String) : Option Problem :=
  [Problem.tsptw, .psp].find? (·.name = name)

/-- The options. -/
inductive Key
  | problem
  | timeLimit
  | seed
  | workers
  | decisionLimit
  | syncInterval
  | verbose
  | logStatistics
  | oneBased
  | help
  | version
  deriving Repr, DecidableEq

namespace Key

def all : List Key :=
  [problem, timeLimit, seed, workers, decisionLimit, syncInterval, verbose, logStatistics, oneBased,
    help, version]

def long : Key → String
  | problem => "problem"
  | timeLimit => "time-limit"
  | seed => "random-seed"
  | workers => "workers"
  | decisionLimit => "decision-limit"
  | syncInterval => "sync-interval"
  | verbose => "verbose"
  | logStatistics => "log-statistics"
  | oneBased => "one-based"
  | help => "help"
  | version => "version"

def short? : Key → Option Char
  | problem => some 'p'
  | timeLimit => some 't'
  | seed => some 'r'
  | workers => some 'j'
  | verbose => some 'v'
  | logStatistics => some 's'
  | help => some 'h'
  | version => some 'V'
  | decisionLimit | syncInterval | oneBased => none

def takesValue : Key → Bool
  | problem | timeLimit | seed | workers | decisionLimit | syncInterval => true
  | verbose | logStatistics | oneBased | help | version => false

def ofLong? (name : String) : Option Key := all.find? (·.long = name)

def ofShort? (c : Char) : Option Key := all.find? (·.short? = some c)

end Key

/-- What is wrong with the arguments. -/
inductive UsageError
  | noArguments
  | noPath
  | emptyPath
  | secondPath (path : String)
  | unknownOption (text : String)
  | missingValue (key : Key)
  | unexpectedValue (key : Key) (value : String)
  | invalidValue (key : Key) (value : String)
  | repeated (key : Key)
  deriving Repr, DecidableEq

def UsageError.message : UsageError → String
  | .noArguments | .noPath => "the path of an instance is missing"
  | .emptyPath => "the path of the instance is empty"
  | .secondPath path => "unexpected argument '" ++ path ++ "'"
  | .unknownOption text => "unknown option '" ++ text ++ "'"
  | .missingValue key => "a value is missing for --" ++ key.long
  | .unexpectedValue key value => "unexpected value '" ++ value ++ "' for --" ++ key.long
  | .invalidValue key value => "invalid value '" ++ value ++ "' for --" ++ key.long
  | .repeated key => "--" ++ key.long ++ " is given more than once"

structure Arguments where
  path : String
  /-- Unless it is given, the extension of the path tells. -/
  problem : Option Problem := none
  /-- In milliseconds. -/
  timeLimit : Option Nat := none
  seed : Nat := 42
  workers : Option Nat := none
  decisionLimit : Option Nat := none
  syncInterval : Nat := 1000
  verbose : Bool := false
  logStatistics : Bool := false
  /-- Whether the nodes of a tour are counted from one. -/
  oneBased : Bool := false
  deriving Repr, DecidableEq

inductive Request
  | solve (a : Arguments)
  | help
  | version
  deriving Repr, DecidableEq

/-! ## Items -/

/-- A piece of the command line that means something by itself. -/
inductive Item
  | path (text : String)
  | option (key : Key) (value : Option String)
  | wrong (cause : UsageError)
  deriving Repr, DecidableEq

/-- The value of an option that is the next argument. -/
def valueFrom (key : Key) : List String → Item × List String
  | [] => (.wrong (.missingValue key), [])
  | value :: rest =>
    if value.startsWith "-" && value ≠ "-" then (.wrong (.missingValue key), rest)
    else (.option key (some value), rest)

/-- An argument that starts with two dashes. -/
def longItem (text : List Char) (rest : List String) : Item × List String :=
  let name := String.ofList (text.takeWhile (· ≠ '='))
  let value? :=
    if '=' ∈ text then some (String.ofList ((text.dropWhile (· ≠ '=')).drop 1)) else none
  match Key.ofLong? name with
  | none => (.wrong (.unknownOption ("--" ++ name)), rest)
  | some key =>
    match value?, key.takesValue with
    | some value, true => (.option key (some value), rest)
    | some value, false => (.wrong (.unexpectedValue key value), rest)
    | none, true => valueFrom key rest
    | none, false => (.option key none, rest)

/-- An argument that starts with one dash. -/
def shortItems : List Char → List String → List Item × List String
  | [], rest => ([], rest)
  | c :: text, rest =>
    match Key.ofShort? c with
    | none => ([.wrong (.unknownOption (String.ofList ['-', c]))], rest)
    | some key =>
      if key.takesValue then
        match text with
        | [] => let (item, rest) := valueFrom key rest; ([item], rest)
        | '=' :: value | value => ([.option key (some (String.ofList value))], rest)
      else
        let (items, rest) := shortItems text rest
        (.option key none :: items, rest)

/-- The items of an argument, and the arguments that are left. -/
def itemsOf (argument : String) (rest : List String) : List Item × List String :=
  match argument.toList with
  | '-' :: '-' :: text => let (item, rest) := longItem text rest; ([item], rest)
  | ['-'] => ([.path argument], rest)
  | '-' :: text => shortItems text rest
  | _ => ([.path argument], rest)

theorem length_valueFrom (key : Key) (rest : List String) :
    (valueFrom key rest).2.length ≤ rest.length := by
  unfold valueFrom
  split
  · exact Nat.le_refl _
  · split <;> exact Nat.le_succ _

theorem length_longItem (text : List Char) (rest : List String) :
    (longItem text rest).2.length ≤ rest.length := by
  unfold longItem
  dsimp only
  split
  · exact Nat.le_refl _
  · split
    · exact Nat.le_refl _
    · exact Nat.le_refl _
    · exact length_valueFrom _ _
    · exact Nat.le_refl _

theorem length_shortItems (text : List Char) (rest : List String) :
    (shortItems text rest).2.length ≤ rest.length := by
  induction text generalizing rest with
  | nil => exact Nat.le_refl _
  | cons c text ih =>
    unfold shortItems
    split
    · exact Nat.le_refl _
    · split
      · split
        · exact length_valueFrom _ _
        · exact Nat.le_refl _
        · exact Nat.le_refl _
      · exact ih rest

theorem length_itemsOf (argument : String) (rest : List String) :
    (itemsOf argument rest).2.length ≤ rest.length := by
  unfold itemsOf
  split
  · exact length_longItem _ _
  · exact Nat.le_refl _
  · exact length_shortItems _ _
  · exact Nat.le_refl _

/-- All items. -/
def items : List String → List Item
  | [] => []
  | "--" :: paths => paths.map .path
  | argument :: rest =>
    let result := itemsOf argument rest
    result.1 ++ items result.2
termination_by arguments => arguments.length
decreasing_by
  have := length_itemsOf argument rest
  simp only [List.length_cons]
  omega

/-! ## Requests -/

/-- What is known while the items are read. -/
structure Draft where
  path : Option String := none
  /-- The options that were given. -/
  given : List Key := []
  arguments : Arguments := { path := "" }

/-- The effect of an option on the arguments. -/
def setOption (a : Arguments) (key : Key) (value : String) : Option Arguments :=
  let number? := Text.unsigned? value.toList
  match key with
  | .problem => (Problem.ofName? value).map fun problem => { a with problem := some problem }
  | .timeLimit => number?.map fun n => { a with timeLimit := some n }
  | .seed => number?.map fun seed => { a with seed }
  | .workers => number?.map fun n => { a with workers := some n }
  | .decisionLimit => number?.map fun n => { a with decisionLimit := some n }
  | .syncInterval => number?.map fun syncInterval => { a with syncInterval }
  | .verbose => some { a with verbose := true }
  | .logStatistics => some { a with logStatistics := true }
  | .oneBased => some { a with oneBased := true }
  | .help | .version => some a

/-- Reads the items from left to right. -/
def interpret (d : Draft) : List Item → Except UsageError Request
  | [] =>
    match d.path with
    | none => .error .noPath
    | some path => .ok (.solve { d.arguments with path })
  | .wrong cause :: _ => .error cause
  | .path text :: rest =>
    if d.path.isSome then .error (.secondPath text)
    else if text.isEmpty then .error .emptyPath
    else interpret { d with path := some text } rest
  | .option .help _ :: _ => .ok .help
  | .option .version _ :: _ => .ok .version
  | .option key value :: rest =>
    if key ∈ d.given then .error (.repeated key)
    else
      match setOption d.arguments key (value.getD "") with
      | none => .error (.invalidValue key (value.getD ""))
      | some arguments => interpret { d with given := key :: d.given, arguments } rest

/-- What the arguments ask for. -/
def Request.ofArguments (arguments : List String) : Except UsageError Request :=
  if arguments.isEmpty then .error .noArguments else interpret {} (items arguments)

end BranchBound.CommandLine
