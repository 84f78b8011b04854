import Consistency.Solver.Backend

/-!
# Arguments

A flag that starts with two dashes may carry its value after an equality sign;
otherwise the value is the next argument. An argument without a dash names the
litmus test. Later settings win over earlier ones.
-/

set_option autoImplicit false

namespace Consistency

inductive ReportFormat where
  | text | json
  deriving DecidableEq, Repr, Inhabited

structure Settings where
  /-- The name of a standard memory model, or a file. -/
  model : String
  /-- Milliseconds for each query. -/
  timeout : Nat
  jobs : Option Nat
  first : Bool
  subsumption : Bool
  eager : Bool
  stepBound : Option Nat
  format : ReportFormat
  printAutomata : Bool
  verbose : Bool
  deriving DecidableEq, Repr, Inhabited

def Settings.default : Settings :=
  ⟨"sc", 30000, none, false, false, false, none, .text, false, false⟩

structure Options where
  litmus : String
  solver : BackendKind
  settings : Settings
  deriving DecidableEq, Repr, Inhabited

structure Draft where
  litmus : Option String
  solver : Option BackendKind
  settings : Settings
  deriving DecidableEq, Repr, Inhabited

inductive UsageError where
  | noValue (flag : String)
  | badValue (flag value : String)
  | unknownFormat (name : String)
  | unknownSolver (name : String)
  | unknownFlag (flag : String)
  | noLitmus
  deriving DecidableEq, Repr, Inhabited

def UsageError.message : UsageError → String
  | .noValue flag => flag ++ " needs a value"
  | .badValue flag value => "invalid value '" ++ value ++ "' for " ++ flag
  | .unknownFormat name => "unknown output format '" ++ name ++ "' (expected text or json)"
  | .unknownSolver name => BackendKind.unknownMessage name
  | .unknownFlag flag => "unknown option '" ++ flag ++ "'"
  | .noLitmus => "no litmus test given"

inductive Invocation (α : Type) where
  | help
  | version
  | check (options : α)
  deriving DecidableEq, Repr, Inhabited

namespace CommandLine

def splitFlag (arg : String) : String × Option String :=
  match arg.toList with
  | '-' :: '-' :: _ => match Text.splitOnce '=' arg.toList with
    | some (flag, value) => (String.ofList flag, some (String.ofList value))
    | none => (arg, none)
  | _ => (arg, none)

def readWord (flag value : String) : Except UsageError Nat :=
  match Text.readWord value.toList with
  | some n => .ok n
  | none => .error (.badValue flag value)

def readSolver (name : String) : Except UsageError BackendKind :=
  match BackendKind.ofName? name with
  | some kind => .ok kind
  | none => .error (.unknownSolver name)

def readFormat : String → Except UsageError ReportFormat
  | "text" => .ok .text
  | "json" => .ok .json
  | name => .error (.unknownFormat name)

def valued? (d : Draft) : String → Option (String → Except UsageError Draft)
  | "--litmus" => some fun v => .ok { d with litmus := some v }
  | "--solver" => some fun v => return { d with solver := some (← readSolver v) }
  | "--model" => some fun v => .ok { d with settings.model := v }
  | "--timeout" => some fun v => return { d with settings.timeout := ← readWord "--timeout" v }
  | "--jobs" => some fun v =>
    return { d with settings.jobs := some (max 1 (← readWord "--jobs" v)) }
  | "--step-bound" => some fun v =>
    return { d with settings.stepBound := some (← readWord "--step-bound" v) }
  | "--output-format" => some fun v => return { d with settings.format := ← readFormat v }
  | _ => none

/-- A flag without a value; one that it carries is passed over. -/
def switch? (d : Draft) : String → Option Draft
  | "--first" => some { d with settings.first := true }
  | "--subsumption" => some { d with settings.subsumption := true }
  | "--eager-errors" => some { d with settings.eager := true }
  | "--print-automata" => some { d with settings.printAutomata := true }
  | "--verbose" | "-v" => some { d with settings.verbose := true }
  | _ => none

def isFlag (arg : String) : Bool := arg.toList.head? == some '-'

def readPlain (d : Draft) (flag : String) : Except UsageError (Invocation Draft) :=
  match flag with
  | "--help" | "-h" => .ok .help
  | "--version" | "-V" => .ok .version
  | flag => match switch? d flag with
    | some d => .ok (.check d)
    | none =>
      if isFlag flag then .error (.unknownFlag flag)
      else .ok (.check { d with litmus := some flag })

/-- Help and version are answered at once, whatever comes after. -/
def readArgs : List String → Draft → Except UsageError (Invocation Draft)
  | [], d => .ok (.check d)
  | arg :: rest, d =>
    let (flag, carried) := splitFlag arg
    match valued? d flag with
    | some set => match carried, rest with
      | some v, rest => do readArgs rest (← set v)
      | none, v :: rest => do readArgs rest (← set v)
      | none, [] => .error (.noValue flag)
    | none => do
      match ← readPlain d flag with
      | .check d => readArgs rest d
      | done => return done

def finish (env : Option String) (d : Draft) : Except UsageError Options := do
  let solver ← match d.solver, env with
    | some kind, _ => pure kind
    | none, some name => readSolver name
    | none, none => pure .builtin
  match d.litmus with
  | some litmus => return ⟨litmus, solver, d.settings⟩
  | none => throw .noLitmus

def parse (args : List String) (env : Option String) : Except UsageError (Invocation Options) := do
  match ← readArgs args ⟨none, none, .default⟩ with
  | .help => return .help
  | .version => return .version
  | .check d => return .check (← finish env d)

def solverVariable : String := "MCM_SOLVER"

def usage : List String :=
  ["mcm-check: bounded memory-model checking of litmus tests",
   "",
   "USAGE:",
   "    mcm-check [OPTIONS] --litmus <FILE>",
   "",
   "OPTIONS:",
   "    --litmus <FILE>             Litmus test in JSON",
   "    --model <NAME|FILE>         sc, tso, ra, coherence or a JSON model (default: sc)",
   "    --solver <NAME>             builtin, z3, cvc5, yices or z3-native (default: builtin, or $" ++
     solverVariable ++ ")",
   "    --timeout <MS>              Per-query solver timeout (default: 30000)",
   "    --jobs <N>                  Worker threads (default: num_cpus/2)",
   "    --first                     Stop at the first witness",
   "    --subsumption               Prune states covered by visited ones",
   "    --eager-errors              Abort on the first solver failure",
   "    --step-bound <N>            Per-thread step bound for loops",
   "    --output-format <FORMAT>    text or json (default: text)",
   "    --print-automata            Print the compiled thread automata",
   "    --verbose, -v               Debug logging and all witnesses",
   "",
   "EXIT STATUS:",
   "    0 allowed, 1 forbidden, 2 inconclusive or error"]

def version : String := "mcm-check 0.1.0"

end CommandLine
end Consistency
