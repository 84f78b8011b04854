import Consistency.Proofs.Check.Forbidden
import Consistency.Proofs.Query.Solution
import Consistency.Proofs.Solver.Found

/-!
# Solutions

A check reports an execution for each terminal graph with an assignment that
satisfies the query about it. The executions that are reported are well formed,
whatever the procedure for clauses answers, as each assignment is checked.
-/

set_option autoImplicit false

namespace Consistency.Check
open Query
variable {c : Composition} {m : MemoryModel} {o : Outcome} {p : Precision} {config : CheckConfig}
  {solve : SatSolver} {r : CheckResult} {t : TerminalGraph} {s : Solution}

def Sound (c : Composition) (p : Precision) (m : MemoryModel) (s : Solution) : Prop :=
  ∃ u, c.Reachable p u ∧ u.isTerminal = true ∧
    s.execution = .ofAssignment (.ofState c u) s.assignment ∧
      s.execution.WellFormed m s.assignment

/-- An answer about a state that can be reached, if it is an execution, is a well-formed one. -/
theorem sound_of_sat (hc : c.Initialized) (hm : m.validate = .ok ()) {u : GlobalState}
    (hu : c.Reachable p u) (hterm : u.isTerminal = true) (ht : t.graph = .ofState c u)
    (h : query (Script.decide solve) m o t = .sat s) : Sound c p m s := by
  obtain ⟨script, found, hscript, hfound, rfl⟩ := script_of_sat h
  rw [ht] at hscript ⊢
  have harranged := arranged_ofState hc hu
  have hsymbols := valueSymbol_of_reachable hu o
  obtain ⟨w, rfl, hw⟩ := solves_of_decide harranged hm hsymbols hscript hfound
  exact ⟨u, hu, hterm, rfl, hw.wellFormed harranged⟩

/-- Each solution is the answer to the query about a proper end that can be reached. -/
theorem Returns.solved (hn : c.Numbered) {ask : TerminalGraph → QueryResult}
    (h : Returns c p config ask (.ok r)) (hs : s ∈ r.solutions) : ∃ t u, ask t = .sat s ∧
      c.Reachable p u ∧ Exploration.proper c u = true ∧ t.graph = .ofState c u := by
  rcases returns_cases h with ⟨j, last, history, hreached, heq⟩ | ⟨_, _, -, heq⟩
  · obtain rfl := Except.ok.inj heq
    have hsound : Course.Done c p config ask j last history := Course.sound_of_reached hreached
    obtain ⟨t, ht, hsat⟩ := hsound.sat hs
    obtain ⟨u, hu, hproper, hgraph⟩ := Exploration.Journey.exists_end hn hsound.reached ht
    exact ⟨t, u, hsat, hu, hproper, hgraph⟩
  · exact absurd heq (by simp)

/-- All executions that a check reports are well formed. -/
theorem solutions_wellFormed (solve : SatSolver) (automata : List Automaton)
    (initial : List (String × Int)) (m : MemoryModel) (o : Outcome) (p : Precision)
    (config : CheckConfig) (hk : config.backend = .builtin) (r : CheckResult)
    (h : Runs solve (.ofAutomata automata initial) m o p config (.ok r)) :
    ∀ s ∈ r.solutions, Sound (.ofAutomata automata initial) p m s := by
  intro s hs
  obtain ⟨hm, -, hreturns⟩ := h.returns hk rfl
  obtain ⟨t, u, hsat, hu, hproper, hgraph⟩ :=
    hreturns.solved (Composition.ofAutomata_numbered automata initial) hs
  exact sound_of_sat (Composition.ofAutomata_initialized automata initial) hm hu
    (Bool.and_eq_true _ _ ▸ hproper).1 hgraph hsat

/-- The thread reads what it stored. -/
theorem updated_allowed : ∃ r s, Returns (.ofAutomata updating []) choosing thorough
    (query (Script.decide .engine) locally (ends 1)) (.ok r) ∧ s ∈ r.solutions := by
  have h := returns_whole thorough_exhaustive (query (Script.decide .engine) locally (ends 1))
    (by decide) updated_found
  obtain ⟨w, hw⟩ := updatedScript_sat
  have hencoded : encode (.ofState (.ofAutomata updating []) updated) locally (ends 1) =
      .ok (updatedScript 1) := updated_graph ▸ updated_encoded 1
  have hholds := holdsIn_of_decide (Composition.ofAutomata_numbered updating [])
    (Composition.ofAutomata_initialized updating []) updated_reachable locally_validate hencoded hw
  rw [updated_graph, Option.getD_some] at hholds
  have hsat : query (Script.decide .engine) locally (ends 1) ⟨0, updatedGraph⟩ =
      .sat ⟨0, .ofAssignment updatedGraph w, w⟩ := by
    simp only [query, updated_encoded, hw, witness, Option.getD_some, hholds, if_true]
  exact ⟨_, _, h, mem_solutions_whole.2 ⟨_, List.mem_singleton_self _, hsat⟩⟩

theorem solutions_wellFormed_updating : ∃ r s,
    Runs .engine (.ofAutomata updating []) locally (ends 1) choosing thorough (.ok r) ∧
      s ∈ r.solutions ∧ Sound (.ofAutomata updating []) choosing locally s := by
  obtain ⟨r, s, hreturns, hs⟩ := updated_allowed
  have hruns : Runs .engine (.ofAutomata updating []) locally (ends 1) choosing thorough (.ok r) :=
    updated_runs rfl hreturns
  exact ⟨r, s, hruns, hs, solutions_wellFormed .engine updating [] locally (ends 1) choosing thorough
    rfl r hruns s hs⟩

end Consistency.Check
