import Consistency.Graph
import Consistency.Solver.Assignment

/-!
# Executions

An event graph with the choices of an assignment: the source of each read, the
order of the writes to each variable, and the values these lead to.
-/

set_option autoImplicit false

namespace Consistency

structure Execution where
  graph : EventGraph
  /-- Writes with the reads that take their value from them. -/
  rf : List (Nat × Nat)
  /-- The writes to each variable in coherence order. -/
  coherence : OrderedMap String (List Nat)
  readValues : OrderedMap Nat Int
  writeValues : OrderedMap Nat Int
  finalRegisters : List (OrderedMap String Int)
  finalMemory : OrderedMap String Int
  deriving DecidableEq, Repr, Inhabited

namespace Execution

def chosen (m : Assignment) (symbol : String) : Bool := m.getBool? symbol == some true

def readsFrom (g : EventGraph) (m : Assignment) : List (Nat × Nat) :=
  (g.rfCandidates.filter fun (r, w) => chosen m (rfSymbol r w)).map fun (r, w) => (w, r)

def predecessors (m : Assignment) (writes : List Nat) (w : Nat) : Nat :=
  (writes.filter fun b => b != w && chosen m (coSymbol b w)).length

def coherenceOrder (m : Assignment) (writes : List Nat) : List Nat :=
  let counted := writes.map fun w => (predecessors m writes w, w)
  (counted.mergeSort fun a b => a.1 < b.1 || (a.1 == b.1 && a.2 ≤ b.2)).map Prod.snd

def coherenceOf (g : EventGraph) (m : Assignment) : OrderedMap String (List Nat) :=
  let orders := g.sharedVars.toList.map fun x => (x, coherenceOrder m (g.writesTo x))
  ⟨orders.filter fun e => !e.2.isEmpty⟩

def intEnvironment (m : Assignment) : Environment := fun name => (m.getInt? name).map Value.int

def intOf (env : Environment) (t : Term) : Option Int := (t.eval env).bind Value.int?

def readValue (g : EventGraph) (m : Assignment) (rf : List (Nat × Nat)) (r : Nat) (symbol : String) :
    Option Int :=
  (m.getInt? symbol).or <| do
    let (w, _) ← rf.find? fun e => e.2 == r
    let t ← (← g.event? w).value
    intOf (intEnvironment m) t

def readEntries (g : EventGraph) (m : Assignment) (rf : List (Nat × Nat)) :
    List (Nat × String × Int) :=
  g.reads.filterMap fun r => do
    let symbol ← (← g.event? r).symbol?
    let v ← readValue g m rf r symbol
    return (r, symbol, v)

/-- The last value found for a symbol stands in where the assignment has none. -/
def environment (m : Assignment) (entries : List (Nat × String × Int)) : Environment := fun name =>
  let found := entries.reverse.find? fun e => e.2.1 == name
  ((m.getInt? name).or (found.map fun e => e.2.2)).map Value.int

def valuesOf (env : Environment) (valuation : OrderedMap String Term) : OrderedMap String Int :=
  ⟨valuation.entries.filterMap fun (reg, t) => (intOf env t).map fun v => (reg, v)⟩

def ofAssignment (g : EventGraph) (m : Assignment) : Execution :=
  let rf := readsFrom g m
  let coherence := coherenceOf g m
  let entries := readEntries g m rf
  let env := environment m entries
  let writeValues : OrderedMap Nat Int := ⟨g.writes.filterMap fun w => do
    let t ← (← g.event? w).value
    return (w, ← intOf env t)⟩
  { graph := g
    rf := rf
    coherence := coherence
    readValues := ⟨entries.map fun e => (e.1, e.2.2)⟩
    writeValues := writeValues
    finalRegisters := g.registers.map (valuesOf env)
    finalMemory := ⟨coherence.entries.filterMap fun (x, order) => do
      let last ← order.getLast?
      return (x, ← writeValues.get? last)⟩ }

def coEdges (x : Execution) : List (Nat × Nat) :=
  x.coherence.values.flatMap fun order => order.zip order.tail

def renderRead (x : Execution) : Nat × Nat → String := fun (w, r) =>
  let value := match x.readValues.get? r with
    | some v => " = " ++ toString v
    | none => ""
  "  rf: " ++ x.graph.label w ++ " -> " ++ x.graph.label r ++ value ++ "\n"

def renderOrder (x : Execution) : String × List Nat → String := fun (var, order) =>
  "  co(" ++ var ++ "): " ++ " -> ".intercalate (order.map x.graph.label) ++ "\n"

def render (x : Execution) : String :=
  x.graph.render ++ "\n" ++ String.join (x.rf.map x.renderRead) ++
    String.join (x.coherence.entries.map x.renderOrder)

end Execution
end Consistency
