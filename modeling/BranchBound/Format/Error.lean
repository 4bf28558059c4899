import BranchBound.Error

/-! # Errors in files

Why a file does not describe an instance.  Lines are counted from one. -/
namespace BranchBound

inductive FormatError
  /-- The file, or a line of it, could not be read as text. -/
  | unreadable
  | notANumber (line : Nat) (token : List Char)
  | wrongNumValues (line expected found : Nat)
  | endsBefore (part : String)
  | goesOn (line : Nat) (part : String)
  | invalid (cause : InvalidInput)
  deriving Repr, DecidableEq

def FormatError.message : FormatError → String
  | .unreadable => "failed to read the instance"
  | .notANumber line token => s!"line {line}: '" ++ String.ofList token ++ "' is not a valid number"
  | .wrongNumValues line expected found =>
    s!"line {line}: expected {expected} values, but found {found}"
  | .endsBefore part => s!"the instance ends before {part}"
  | .goesOn line part => s!"line {line}: unexpected content after {part}"
  | .invalid cause => "the instance is invalid: " ++ (SolverError.invalidInput cause).message

end BranchBound
