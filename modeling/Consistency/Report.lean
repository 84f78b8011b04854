import Consistency.Check
import Consistency.Json

/-!
# Reports

What a check found, as lines of text or as a JSON record. The text shows one
execution, or all of them with their assignments if it is to be verbose.
-/

set_option autoImplicit false

namespace Consistency

structure Report where
  test : String
  model : String
  outcome : String
  result : CheckResult
  deriving Inhabited

namespace Report

/-! Text -/

def header (r : Report) : String := r.test ++ " under " ++ r.model ++ ": exists " ++ r.outcome

def verdictLine (r : CheckResult) : String :=
  match r.verdict with
  | .allowed => "  [ALLOWED]  " ++ toString r.solutions.length ++ " witness(es)"
  | .forbidden => "  [FORBIDDEN]  no consistent execution"
  | .inconclusive =>
    "  [INCONCLUSIVE]  " ++ toString r.unknowns.length ++ " unknown, " ++
      toString r.failures.length ++ " failed"

def valuesText (m : OrderedMap String Int) : String :=
  spaced (m.entries.map fun (x, v) => x ++ "=" ++ toString v)

def registerLines (x : Execution) : List String :=
  (x.finalRegisters.zipIdx.filter fun e => !e.1.isEmpty).map fun (m, thread) =>
    "    " ++ toString thread ++ ": " ++ valuesText m

def memoryLines (x : Execution) : List String :=
  if x.finalMemory.isEmpty then [] else ["    memory: " ++ valuesText x.finalMemory]

def executionLines (x : Execution) : List String :=
  (Text.lines x.render.toList).map (fun line => "    " ++ String.ofList line) ++
    registerLines x ++ memoryLines x

def assignmentLines (m : Assignment) : List String :=
  m.entries.map fun (name, v) => "    " ++ name ++ " = " ++ v

def solutionLines (verbose : Bool) : Solution × Nat → List String := fun (s, i) =>
  ("  witness #" ++ toString i ++ " (terminal " ++ toString s.terminal ++ ")") ::
    executionLines s.execution ++ if verbose then assignmentLines s.assignment else []

def unknownLine (u : UnknownQuery) : String :=
  "  [UNKNOWN]  terminal " ++ toString u.terminal ++ " (" ++ u.description ++ "): " ++ u.reason

def failureLine (e : CheckError) : String := "  [ERROR]  " ++ e.message

def statsLine (s : Stats) : String :=
  "states: " ++ toString s.states ++ ", terminals: " ++ toString s.terminals ++ " (" ++
    toString s.queried ++ " queried), blocked: " ++ toString s.blocked ++ ", duplicates: " ++
    toString s.duplicates ++ ", subsumed: " ++ toString s.subsumed

def lines (verbose : Bool) (r : Report) : List String :=
  let shown := if verbose then r.result.solutions else r.result.solutions.take 1
  [r.header, verdictLine r.result] ++ shown.zipIdx.flatMap (solutionLines verbose) ++
    r.result.unknowns.map unknownLine ++ r.result.failures.map failureLine ++
    ["", statsLine r.result.stats]

/-! JSON -/

def jsonEdges (es : List (Nat × Nat)) : Json :=
  .array (es.map fun (a, b) => .array [.ofNat a, .ofNat b])

def jsonValues (m : OrderedMap String Int) : Json :=
  .object (m.entries.map fun (x, v) => (x, .ofInt v))

def valueAt (x : Execution) (node : Nat) : Option Int :=
  (x.readValues.get? node).or (x.writeValues.get? node)

def jsonOwner (g : EventGraph) : Owner → List (String × Json)
  | .init => []
  | .thread id => ("thread", .ofNat id) ::
    (g.threadNames[id]?.map fun name => ("process", Json.string name)).toList

def jsonNode (x : Execution) : Event × Nat → Json := fun (e, node) =>
  .object <| [("id", .ofNat node)] ++ jsonOwner x.graph e.owner ++
    [("index", .ofNat e.index), ("kind", .string e.kind.letter), ("var", .string e.var)] ++
    ((valueAt x node).map fun v => ("value", Json.ofInt v)).toList

def jsonSolution (s : Solution) : Json :=
  let x := s.execution
  .object [("terminal", .ofNat s.terminal),
    ("nodes", .array (x.graph.events.toList.zipIdx.map (jsonNode x))),
    ("po", jsonEdges x.graph.poEdges), ("rf", jsonEdges x.rf), ("co", jsonEdges x.coEdges),
    ("final_registers", .array (x.finalRegisters.map jsonValues)),
    ("final_memory", jsonValues x.finalMemory)]

def jsonUnknown (u : UnknownQuery) : Json :=
  .object [("terminal", .ofNat u.terminal), ("description", .string u.description),
    ("reason", .string u.reason)]

def jsonStats (s : Stats) : Json :=
  .object [("states_explored", .ofNat s.states), ("terminal_states", .ofNat s.terminals),
    ("terminals_queried", .ofNat s.queried), ("blocked_states", .ofNat s.blocked),
    ("duplicate_states", .ofNat s.duplicates), ("subsumed_states", .ofNat s.subsumed),
    ("levels", .ofNat s.levels)]

def fields (r : Report) : List (String × Json) :=
  [("test", .string r.test), ("model", .string r.model), ("outcome", .string r.outcome),
    ("verdict", .string r.result.verdict.render), ("stats", jsonStats r.result.stats),
    ("solutions", .array (r.result.solutions.map jsonSolution)),
    ("unknowns", .array (r.result.unknowns.map jsonUnknown)),
    ("failures", .array (r.result.failures.map fun e => .string e.message))]

end Report
end Consistency
