import Consistency.CommandLine
import Consistency.Litmus.Reader
import Consistency.MemoryModel.File
import Consistency.Report

/-!
# Jobs

A job is a litmus test with the memory model it is to be checked under, read
from the files that the command line names.
-/

set_option autoImplicit false

namespace Consistency

inductive FileContent where
  | missing
  | unreadable (reason : String)
  | text (content : String)
  deriving DecidableEq, Repr, Inhabited

abbrev Files := String → FileContent

inductive JobError where
  | unreadable (path reason : String)
  | malformed (path : String)
  | litmus (error : LitmusError)
  | outcome (error : OutcomeError)
  | unknownModel (name : String)
  | model (error : ModelError)
  | check (error : CheckError)
  | endless
  deriving DecidableEq, Repr, Inhabited

def JobError.message : JobError → String
  | .unreadable path reason => "cannot read " ++ path ++ ": " ++ reason
  | .malformed path => "malformed JSON in " ++ path ++ ": not a value of the expected form"
  | .litmus e => "invalid litmus test: " ++ e.message
  | .outcome e => (CheckError.invalidOutcome e).message
  | .unknownModel name =>
    "unknown model '" ++ name ++ "'; expected one of " ++
      ", ".intercalate MemoryModel.standardNames ++ " or a JSON file"
  | .model e => (CheckError.invalidModel e).message
  | .check e => e.message
  | .endless => "the exploration does not end"

structure Job where
  test : LitmusTest
  automata : List Automaton
  outcome : Outcome
  model : MemoryModel
  options : Options

namespace Job

def wrap {ε α : Type} (f : ε → JobError) : Except ε α → Except JobError α
  | .ok a => .ok a
  | .error e => .error (f e)

def readText (files : Files) (path : String) : Except JobError String :=
  match files path with
  | .missing => .error (.unreadable path "no such file")
  | .unreadable reason => .error (.unreadable path reason)
  | .text content => .ok content

def readWith {α : Type} (files : Files) (read? : String → Option α) (path : String) :
    Except JobError α := do
  match read? (← readText files path) with
  | some a => return a
  | none => throw (.malformed path)

def loadModel (files : Files) (name : String) : Except JobError MemoryModel :=
  match MemoryModel.ofName? name with
  | some m => .ok m
  | none => match files name with
    | .missing => .error (.unknownModel name)
    | _ => do
      let file ← readWith files ModelFile.read? name
      wrap .model file.toValidModel

def load (files : Files) (o : Options) : Except JobError Job := do
  let test ← readWith files LitmusTest.read? o.litmus
  let automata ← wrap .litmus test.automata
  let outcome ← wrap .outcome test.outcome
  let model ← loadModel files o.settings.model
  return ⟨test, automata, outcome, model, o⟩

def composition (j : Job) : Composition := .ofAutomata j.automata j.test.init.entries

def config (j : Job) : CheckConfig where
  first := j.options.settings.first
  eager := j.options.settings.eager
  subsumption := j.options.settings.subsumption
  jobs := j.options.settings.jobs.getD 1
  backend := j.options.solver
  timeout := j.options.settings.timeout

def run (solve : SatSolver) (j : Job) : Except JobError Report := do
  let precision := j.test.precision j.options.settings.stepBound
  match ← wrap .check (Check.run solve j.composition j.model j.outcome precision j.config) with
  | some result => return ⟨j.test.name, j.model.name, j.outcome.render, result⟩
  | none => throw .endless

def automataText (j : Job) : String :=
  if j.options.settings.printAutomata then
    String.join (j.automata.map fun a => a.render ++ "\n")
  else ""

end Job
end Consistency
