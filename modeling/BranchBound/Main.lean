import BranchBound.CommandLine.Session

/-! # The program

Connects a session with the world. -/
namespace BranchBound.CommandLine

def usage : String :=
  "Usage: gourd-solver [OPTIONS] <INSTANCE_PATH>\n\n" ++
    "  -p, --problem <PROBLEM>      tsptw or psp; otherwise the extension of the file tells\n" ++
    "  -t, --time-limit <MS>        the time for the search in milliseconds\n" ++
    "  -r, --random-seed <SEED>     the seed of the first worker [default: 42]\n" ++
    "  -j, --workers <N>            the number of workers [default: 1]\n" ++
    "      --decision-limit <N>     the number of decisions of every worker\n" ++
    "      --sync-interval <N>      the number of decisions in a round [default: 1000]\n" ++
    "  -v, --verbose                print notes\n" ++
    "  -s, --log-statistics         print statistics\n" ++
    "      --one-based              count the nodes of a tour from one\n" ++
    "  -h, --help                   print this text\n" ++
    "  -V, --version                print the version\n"

/-- What the system says when a file cannot be opened. -/
def openErrorMessage : IO.Error → String
  | .noFileOrDirectory .. => "No such file or directory (os error 2)"
  | .permissionDenied .. => "Permission denied (os error 13)"
  | .inappropriateType .. => "Not a directory (os error 20)"
  | e => toString e

def readFile (path : String) : IO (Except String (Option ByteArray)) := do
  match ← (IO.FS.Handle.mk path .read).toBaseIO with
  | .error e => return .error (openErrorMessage e)
  | .ok handle =>
    match ← handle.readBinToEnd.toBaseIO with
    | .error _ => return .ok none
    | .ok bytes => return .ok (some bytes)

def console : Console IO where
  print := IO.println
  read := readFile
  clock := IO.monoNanosNow

end BranchBound.CommandLine

open BranchBound.CommandLine in
def main (arguments : List String) : IO UInt32 := do
  match Request.ofArguments arguments with
  | .error cause =>
    IO.eprintln ("error: " ++ cause.message ++ "\n\n" ++ usage)
    return usageExit
  | .ok .help =>
    IO.print usage
    return 0
  | .ok .version =>
    IO.println versionLine
    return 0
  | .ok (.solve a) => Session.run console a
