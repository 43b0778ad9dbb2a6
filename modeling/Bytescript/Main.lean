/-
The command line.
-/
import Bytescript.CommandLine.Command

namespace Bytescript.CommandLine

/-- Bound on the number of instructions of a run, far beyond what any machine executes. -/
def maxInstructions : Nat := 0x4000000000000000

/-- Why the system refuses a file. The code of an error may come with its sign reversed. -/
def FileError.ofSystem : IO.Error → FileError
  | .noFileOrDirectory .. => .notFound
  | .inappropriateType _ code _ =>
    if code = 20 ∨ code = -20 then .notADirectory else .isADirectory
  | .permissionDenied .. => .permissionDenied
  | e@(.invalidArgument _ code _) =>
    if code = 36 ∨ code = -36 then .nameTooLong else .other (toString e)
  | e => .other (toString e)

/-- Carries out a command on the real file system. -/
def Interaction.perform : Interaction → IO UInt32
  | .done response => do
    IO.print response.stdout
    IO.eprint response.stderr
    return response.status
  | .read path next => do
    match ← (IO.FS.readBinFile path).toBaseIO with
    | .ok bytes => (next (.ok bytes.data.toList)).perform
    | .error e => (next (.error (.ofSystem e))).perform
  | .write path content next => do
    match ← (IO.FS.writeBinFile path ⟨content.toArray⟩).toBaseIO with
    | .ok () => (next (.ok ())).perform
    | .error e => (next (.error (.ofSystem e))).perform

end Bytescript.CommandLine

open Bytescript.CommandLine in
/-- Runs the command given by the arguments. -/
def main (args : List String) : IO UInt32 := do
  let palette := if ← (← IO.getStdout).isTty then .colored else .plain
  (command palette maxInstructions args).perform
