import Cssom.CommandLine.Run

/-!
# The program

Reads the file that the command line names and writes what the command leaves behind.
-/

namespace Cssom.CommandLine

/-- Why a file could not be read, as the system says it. -/
def reasonOf : IO.Error → String
  | .noFileOrDirectory _ code details => details ++ " (os error " ++ toString code ++ ")"
  | .permissionDenied _ code details => details ++ " (os error " ++ toString code ++ ")"
  | .inappropriateType _ code details => details ++ " (os error " ++ toString code ++ ")"
  | error => toString error

/-- Runs the command with some arguments. -/
def execute (args : List String) : IO Outcome :=
  match plan args with
  | .error outcome => pure outcome
  | .ok (options, path) => do
    try
      let bytes ← IO.FS.readBinFile path
      pure (processBytes options path bytes)
    catch error => pure (unreadable path (reasonOf error))

end Cssom.CommandLine

/-- Writes what the command leaves behind, and gives its code to the system. -/
def main (args : List String) : IO UInt32 := do
  let outcome ← Cssom.CommandLine.execute args
  (← IO.getStderr).putStr outcome.stderr
  (← IO.getStdout).putStr outcome.stdout
  return outcome.code.toUInt32
