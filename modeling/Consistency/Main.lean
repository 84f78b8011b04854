import Consistency.Cnf.Search
import Consistency.Response

/-!
# The program

Reads the files that the command line names, answers it and prints the answer.
-/

set_option autoImplicit false

namespace Consistency.Main

def readContent (path : String) : IO FileContent := do
  try
    return .text (← IO.FS.readFile path)
  catch
    | .noFileOrDirectory _ _ _ => return .missing
    | e => return .unreadable (toString e)

def pathsOf (args : List String) (env : Option String) : List String :=
  match CommandLine.parse args env with
  | .ok (.check o) => [o.litmus, o.settings.model]
  | _ => []

end Consistency.Main

open Consistency in
def main (args : List String) : IO UInt32 := do
  let env ← IO.getEnv CommandLine.solverVariable
  let contents ← (Main.pathsOf args env).mapM fun path => return (path, ← Main.readContent path)
  let files : Files := fun path => (contents.lookup path).getD .missing
  let start ← IO.monoMsNow
  let response := respond .engine files env args
  (← IO.getStderr).putStr response.messages
  let walltime := (← IO.monoMsNow) - start
  let shown := { response with messages := "" }
  (← IO.getStderr).putStr (shown.errorText ["walltime: " ++ toString walltime ++ " ms"])
  match response.json? [("walltime_ms", .ofNat walltime)] with
  | some report => IO.println (report.pretty 0)
  | none => pure ()
  return response.status.toUInt32
