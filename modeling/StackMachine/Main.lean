import StackMachine.CommandLine.Session

/-!
# The program

Reads the program file, plays the session of the command line and writes what it leaves behind.
-/

namespace StackMachine.CommandLine

/-- The name under which the program speaks of itself. -/
def programName : String := "obpl"

/-- More steps than any run takes in practice. -/
def stepLimit : Nat := UInt64.size

/-- Why a file cannot be read, in the words and numbers of the operating system. -/
def readFailure : IO.Error → String
  | .noFileOrDirectory _ _ _ => "No such file or directory (os error 2)"
  | .permissionDenied _ _ _ => "Permission denied (os error 13)"
  | .inappropriateType _ _ _ => "Is a directory (os error 21)"
  | other => toString other

/-- The contents of a file, or why it cannot be read. -/
def fileContents (path : String) : BaseIO (Except String Bytes) := do
  match ← (IO.FS.readBinFile path).toBaseIO with
  | .ok contents => return .ok contents.toList
  | .error failure => return .error (readFailure failure)

end StackMachine.CommandLine

open StackMachine.CommandLine in
/-- Runs the command line. -/
def main (arguments : List String) : IO UInt32 := do
  let contents ← match arguments with
    | path :: _ => fileContents path
    | [] => pure (.ok [])
  let host : Host := { allocator := .unlimited, fileContents := fun _ => contents }
  match session stepLimit host programName arguments with
  | none => throw (IO.userError "the step limit is reached")
  | some transcript =>
      IO.print transcript.output
      IO.eprint transcript.log.text
      return transcript.exitCode
