import Consistency.Exploration
import Consistency.Query
import Consistency.Solver.Backend

/-!
# Checks

A check asks of every terminal state of a program whether it has an execution
that the memory model allows and that ends in the outcome. An outcome is
forbidden only if every query was answered, and answered with no.
-/

set_option autoImplicit false

namespace Consistency

inductive CheckError where
  | invalidModel (error : ModelError)
  | invalidOutcome (error : OutcomeError)
  | solver (terminal : Nat) (description : String) (error : SolverError)
  | backend (error : SolverError)
  deriving DecidableEq, Repr, Inhabited

def CheckError.message : CheckError → String
  | .invalidModel e => "invalid memory model: " ++ e.message
  | .invalidOutcome e => "invalid outcome: " ++ e.message
  | .solver terminal description e =>
    "solver failed on terminal state #" ++ toString terminal ++ " (" ++ description ++ "): " ++
      e.message
  | .backend e => "cannot create solver backend: " ++ e.message

structure CheckConfig where
  /-- Stop at the first execution found. -/
  first : Bool
  /-- Stop at the first query that fails. -/
  eager : Bool
  subsumption : Bool
  jobs : Nat
  backend : BackendKind
  timeout : Nat
  deriving DecidableEq, Repr, Inhabited

inductive Verdict where
  | allowed | forbidden | inconclusive
  deriving DecidableEq, Repr, Inhabited

def Verdict.exitStatus : Verdict → Nat
  | .allowed => 0
  | .forbidden => 1
  | .inconclusive => 2

def Verdict.render : Verdict → String
  | .allowed => "allowed"
  | .forbidden => "forbidden"
  | .inconclusive => "inconclusive"

structure Solution where
  terminal : Nat
  execution : Execution
  assignment : Assignment
  deriving Inhabited

structure UnknownQuery where
  terminal : Nat
  description : String
  reason : String
  deriving DecidableEq, Repr, Inhabited

structure CheckResult where
  solutions : List Solution
  unknowns : List UnknownQuery
  failures : List CheckError
  stats : Stats
  deriving Inhabited

namespace CheckResult

def empty : CheckResult := ⟨[], [], [], .zero⟩

def verdict (r : CheckResult) : Verdict :=
  if !r.solutions.isEmpty then .allowed
  else if r.unknowns.isEmpty && r.failures.isEmpty then .forbidden
  else .inconclusive

end CheckResult

inductive QueryResult where
  | sat (solution : Solution)
  | unsat
  | unknown (query : UnknownQuery)
  | failed (error : CheckError)
  deriving Inhabited

namespace Check

def witness (t : TerminalGraph) (o : Outcome) (m : Assignment) : QueryResult :=
  let x := Execution.ofAssignment t.graph m
  if o.holdsIn x then .sat ⟨t.index, x, m⟩
  else .unknown ⟨t.index, t.graph.render, "witness does not exhibit the outcome"⟩

def query (backend : Backend) (m : MemoryModel) (o : Outcome) (t : TerminalGraph) : QueryResult :=
  match Query.encode t.graph m o with
  | .error e => .failed (.invalidModel e)
  | .ok script => match backend script with
    | .ok (.sat found) => witness t o (found.getD ⟨[]⟩)
    | .ok .unsat => .unsat
    | .ok (.unknown reason) => .unknown ⟨t.index, t.graph.render, reason⟩
    | .error e => .failed (.solver t.index t.graph.render e)

/-- Add an answer to the result; the flag tells whether to stop. -/
def record (config : CheckConfig) (r : CheckResult) (q : QueryResult) :
    Except CheckError (CheckResult × Bool) :=
  let r := { r with stats := { r.stats with queried := r.stats.queried + 1 } }
  match q with
  | .sat s => .ok ({ r with solutions := r.solutions ++ [s] }, config.first)
  | .unsat => .ok (r, false)
  | .unknown u => .ok ({ r with unknowns := r.unknowns ++ [u] }, false)
  | .failed e =>
    if config.eager then .error e else .ok ({ r with failures := r.failures ++ [e] }, false)

def level (config : CheckConfig) (ask : TerminalGraph → QueryResult) :
    CheckResult → List TerminalGraph → Except CheckError (CheckResult × Bool)
  | r, [] => .ok (r, false)
  | r, t :: ts => do
    let (r, stop) ← record config r (ask t)
    if stop then return (r, true) else level config ask r ts

/-- Check with any way to answer queries; none if the exploration does not end. -/
def explore (c : Composition) (precision : Precision) (config : CheckConfig)
    (ask : TerminalGraph → QueryResult) : Except CheckError (Option CheckResult) := do
  let found ← Exploration.run c precision config.subsumption (level config ask)
    Exploration.levelLimit (Exploration.start c) CheckResult.empty
  return found.map fun (r, stats) => { r with stats := { stats with queried := r.stats.queried } }

def validated {ε : Type} (wrap : ε → CheckError) : Except ε Unit → Except CheckError Unit
  | .ok () => .ok ()
  | .error e => .error (wrap e)

/-- Model, outcome and solver are looked at before anything is explored. The states of a level are
expanded one after the other, as are its queries. -/
def run (solve : SatSolver) (c : Composition) (m : MemoryModel) (o : Outcome) (precision : Precision)
    (config : CheckConfig) : Except CheckError (Option CheckResult) := do
  validated .invalidModel m.validate
  validated .invalidOutcome (o.validate c)
  match config.backend.start solve with
  | .error e => throw (.backend e)
  | .ok backend => explore c precision config (query backend m o)

end Check
end Consistency
