import Descent.CommandLine

/-!
# The program

Reads the file that the arguments ask for and puts the answer on the two output streams.
-/

namespace Descent.CommandLine

/-- The reason for which the system could not read a file. -/
def ReadError.ofSystem : IO.Error → ReadError
  | .noFileOrDirectory .. => .notFound
  | .inappropriateType .. => .isDirectory
  | error => .other error.toString

/-- The bytes of a file. -/
def readBytes (path : String) : IO (Except ReadError ByteArray) := do
  match ← (IO.FS.readBinFile path).toBaseIO with
  | .ok bytes => return .ok bytes
  | .error error => return .error (.ofSystem error)

end Descent.CommandLine

open Descent.CommandLine in
/-- Answers the arguments. -/
def main (arguments : List String) : IO UInt32 := do
  let outcome ← match plan arguments with
    | .answer outcome => pure outcome
    | .parse options path => do
      let bytes ← readBytes path
      pure (respond options path (bytes >>= decode))
  (← IO.getStdout).putStr outcome.output
  (← IO.getStderr).putStr outcome.errors
  return outcome.code.toUInt32
