-- SUMMARY: The command: reads files, prints the outcome of a session, and exits with its code.
import Predictive.CommandLine.Session

namespace Predictive.CommandLine

/-- The number of a system error. Some calls report it negated. -/
def errorNumber (code : UInt32) : Nat := min code.toNat (-code).toNat

def readErrorOf (e : IO.Error) : ReadError :=
  match e with
  | .noFileOrDirectory .. => .notFound
  | .permissionDenied .. => .permissionDenied
  | .inappropriateType _ code _ => if errorNumber code = 20 then .notDirectory else .isDirectory
  | .invalidArgument _ code _ =>
    if errorNumber code = 36 then .nameTooLong else .other (toString e)
  | e => .other (toString e)

/-- Read a file as UTF-8 text. -/
def readTextFile (path : String) : IO (Except ReadError String) := do
  try
    return textOfBytes (← IO.FS.readBinFile path)
  catch e =>
    return .error (readErrorOf e)

end Predictive.CommandLine

open Predictive.CommandLine in
def main (args : List String) : IO UInt32 := do
  let outcome ← match Request.ofArguments args with
    | .error refusal => pure (Outcome.ofRefusal refusal)
    | .ok request => request.execute readTextFile
  (← IO.getStdout).putStr outcome.stdout
  (← IO.getStderr).putStr outcome.stderr
  return outcome.exitCode.toUInt32
