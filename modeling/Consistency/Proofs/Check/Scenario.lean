import Consistency.Proofs.Graph.Shape
import Consistency.Proofs.Thread.Simulation

/-!
# Executions of a program

A concrete execution is given by the moves of each thread, by the source of each
read and by the order of the writes to each variable. Its events are those of
the initial writes and then of each thread, with the integers that are read and
written.
-/

set_option autoImplicit false

namespace Consistency

structure Scenario where
  moves : Nat → List Move
  choice : Choice

namespace Composition

def initialOccurrences (c : Composition) : List Occurrence :=
  c.initialWrites.entries.zipIdx.map fun ((x, v), i) =>
    ⟨.make i .init x .write i (some (.int v)), v⟩

end Composition

namespace Scenario

def occurrencesOf (x : Scenario) (p : Precision) (t : Thread) : List Occurrence :=
  t.occurrences p t.initialState (x.moves t.id)

def occurrences (x : Scenario) (c : Composition) (p : Precision) : List Occurrence :=
  c.initialOccurrences ++ c.threads.flatMap (x.occurrencesOf p)

/-- The events as an exploration would see them, with values as terms. -/
def graph (x : Scenario) (c : Composition) (p : Precision) : EventGraph where
  events := ((x.occurrences c p).map Occurrence.event).toArray
  threadNames := c.threads.map fun t => t.automaton.name
  registers := c.threads.map fun t => (t.trackAll p t.initialState (x.moves t.id)).valuation
  constraints := []

def value? (x : Scenario) (c : Composition) (p : Precision) (node : Nat) : Option Int :=
  (x.occurrences c p)[node]?.map Occurrence.value

def machine? (x : Scenario) (t : Thread) : Option Machine :=
  t.play (.start t.automaton.initial) (x.moves t.id)

def Ends (x : Scenario) (c : Composition) (p : Precision) : Atom → Prop
  | .register i reg n => ∃ t μ, c.threads[i]? = some t ∧ x.machine? t = some μ ∧
      μ.registers reg = n
  | .memory y n => ∃ w ∈ (x.graph c p).writesTo y,
      (∀ b ∈ (x.graph c p).writesTo y, ¬ x.choice.co w b) ∧ x.value? c p w = some n

/-- Each thread runs within the bound to a final location that no edge leaves, reads see what
their sources store, the model admits the execution, and it ends in the outcome. -/
structure Exhibits (x : Scenario) (c : Composition) (p : Precision) (m : MemoryModel)
    (o : Outcome) : Prop where
  ends : ∀ t ∈ c.threads, ∃ μ, x.machine? t = some μ ∧
    t.automaton.isFinal μ.location = true ∧ t.automaton.isTerminal μ.location = true
  bounded : ∀ t ∈ c.threads, ∀ bound, p.stepBound = some bound → (x.moves t.id).length ≤ bound
  proper : x.choice.Proper (x.graph c p)
  loads : ∀ w r, x.choice.rf w r → x.value? c p w = x.value? c p r
  admitted : m.Admits (x.graph c p) x.choice
  outcome : ∀ a ∈ o.atoms, x.Ends c p a

end Scenario
end Consistency
