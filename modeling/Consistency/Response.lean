import Consistency.Job

/-!
# Responses

The answer to a command line: the text for the error channel, the report of the
check, and the status to end with.
-/

set_option autoImplicit false

namespace Consistency

structure Response where
  messages : String
  report : Option (Report × Settings)
  status : Nat
  deriving Inhabited

namespace Response

def unlines (ls : List String) : String := String.join (ls.map (· ++ "\n"))

def errorLine (text : String) : String := "error: " ++ text ++ "\n"

def failure (messages text : String) : Response := ⟨messages ++ errorLine text, none, 2⟩

def ofJob (solve : SatSolver) (j : Job) : Response :=
  match j.run solve with
  | .ok r => ⟨j.automataText, some (r, j.options.settings), r.result.verdict.exitStatus⟩
  | .error e => failure j.automataText e.message

def ofOptions (solve : SatSolver) (files : Files) (o : Options) : Response :=
  match Job.load files o with
  | .ok j => ofJob solve j
  | .error e => failure "" e.message

def ofInvocation (solve : SatSolver) (files : Files) : Except UsageError (Invocation Options) → Response
  | .ok .help => ⟨unlines CommandLine.usage, none, 0⟩
  | .ok .version => ⟨CommandLine.version ++ "\n", none, 0⟩
  | .ok (.check o) => ofOptions solve files o
  | .error e => ⟨errorLine e.message ++ unlines CommandLine.usage, none, 2⟩

/-- Everything for the error channel; `last` are the lines that end a report in text. -/
def errorText (last : List String) (r : Response) : String :=
  match r.report with
  | some (report, settings) => match settings.format with
    | .text => r.messages ++ unlines (report.lines settings.verbose ++ last)
    | .json => r.messages
  | none => r.messages

def json? (last : List (String × Json)) (r : Response) : Option Json := do
  let (report, settings) ← r.report
  match settings.format with
  | .json => some (.object (report.fields ++ last))
  | .text => none

end Response

def respond (solve : SatSolver) (files : Files) (env : Option String) (args : List String) :
    Response :=
  Response.ofInvocation solve files (CommandLine.parse args env)

end Consistency
