import Consistency.Proofs.Composition.Reachable

/-!
# Names of threads

The name of a thread plays no part in what it does. States hold no names, so that
programs that differ in the names of their threads reach the same states, and the
graphs of these differ in the names only.
-/

set_option autoImplicit false

namespace Consistency

def Automaton.anonymous (a : Automaton) : Automaton := { a with name := "" }

def EventGraph.named (g : EventGraph) (names : List String) : EventGraph :=
  { g with threadNames := names }

def Thread.anonymous (t : Thread) : Thread := { t with automaton := t.automaton.anonymous }

namespace Thread
variable (t : Thread)

@[simp] theorem step_anonymous (p : Precision) (l : LocalState) (edge : Nat) :
    t.anonymous.step p l edge = t.step p l edge := rfl

@[simp] theorem access_anonymous (l : LocalState) (edge : Nat) :
    t.anonymous.access l edge = t.access l edge := rfl

@[simp] theorem id_anonymous : t.anonymous.id = t.id := rfl

end Thread

namespace Composition
variable {c : Composition} {p : Precision} {s : GlobalState} {automata automata' : List Automaton}

def anonymous (c : Composition) : Composition :=
  { c with threads := c.threads.map Thread.anonymous }

theorem anonymous_ofAutomata (automata : List Automaton) (initial : List (String × Int)) :
    (ofAutomata automata initial).anonymous =
      ofAutomata (automata.map Automaton.anonymous) initial := by
  have hthreads : (ofAutomata automata initial).threads.map Thread.anonymous =
      (ofAutomata (automata.map Automaton.anonymous) initial).threads := by
    rw [ofAutomata, ofAutomata, List.zipIdx_map, List.map_map, List.map_map]
    rfl
  have hwrites : (ofAutomata automata initial).initialWrites =
      (ofAutomata (automata.map Automaton.anonymous) initial).initialWrites := by
    rw [ofAutomata, ofAutomata, List.flatMap_map]
    rfl
  rw [anonymous, hthreads, hwrites]

theorem init_anonymous (c : Composition) (number : Nat) :
    c.anonymous.init number = c.init number := by
  have hlocals : c.anonymous.threads.map Thread.initialState =
      c.threads.map Thread.initialState := by
    rw [anonymous, List.map_map]
    rfl
  have hterminated : ∀ locals, c.anonymous.terminatedAt locals = c.terminatedAt locals := by
    intro locals
    simp only [terminatedAt, anonymous]
    rw [List.zip_map_left, List.filter_map, List.map_map]
    rfl
  simp only [init, hlocals, hterminated]
  rfl

theorem trans_anonymous (c : Composition) (p : Precision) (s : GlobalState) (a : Action)
    (number : Nat) : c.anonymous.trans p s a number = c.trans p s a number := by
  have hsettle : ∀ (t : Thread) (es : List Event),
      settle s es a.thread t.anonymous = settle s es a.thread t := fun _ _ => rfl
  simp only [trans, anonymous, List.getElem?_map]
  cases c.threads[a.thread]? with
  | none => rfl
  | some t =>
    cases s.locals[a.thread]? with
    | none => rfl
    | some l => simp [hsettle]

theorem reachable_anonymous : c.anonymous.Reachable p s ↔ c.Reachable p s := by
  constructor
  · intro h
    induction h with
    | init number =>
      rw [init_anonymous]
      exact .init number
    | step a number _ ht ih =>
      rw [trans_anonymous] at ht
      exact ih.step a number ht
  · intro h
    induction h with
    | init number =>
      rw [← init_anonymous]
      exact .init number
    | step a number _ ht ih =>
      rw [← trans_anonymous] at ht
      exact ih.step a number ht

theorem reachable_of_anonymous {initial : List (String × Int)}
    (h : automata.map Automaton.anonymous = automata'.map Automaton.anonymous)
    (hs : (ofAutomata automata initial).Reachable p s) :
    (ofAutomata automata' initial).Reachable p s := by
  rw [← reachable_anonymous, anonymous_ofAutomata] at hs ⊢
  exact h ▸ hs

end Composition

/-- Only the names of the threads are read off the program. -/
theorem EventGraph.ofState_named (c d : Composition) (s : GlobalState) :
    ofState d s = (ofState c s).named (d.threads.map fun t => t.automaton.name) := rfl

end Consistency
