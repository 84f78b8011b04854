import Consistency.Proofs.Check.EarlyExit
import Consistency.Proofs.Check.Final
import Consistency.Proofs.Solver.FiniteDomain

/-!
# Forbidden outcomes

A check that finds an outcome forbidden has been told of each terminal state
that no assignment satisfies the query about it. An execution with the outcome
would satisfy one of these queries.
-/

set_option autoImplicit false

namespace Consistency.Check
open Query
open Exploration (Journey)
variable {c : Composition} {m : MemoryModel} {o : Outcome} {p : Precision} {config : CheckConfig}
  {backend : Backend} {solve : SatSolver} {r : CheckResult}

def Trusted (backend : Backend) : Prop :=
  ∀ script, backend script = .ok .unsat → ∀ env, ¬ script.Satisfied env

theorem decide_trusted (hsolve : solve.Complete) : Trusted (Script.decide solve) := by
  intro script h env hs
  refine Script.not_true_of_unsat hsolve h (fun x sort _ hsort => ?_) hs.holds
  exact hs.typed x sort (List.mem_reverse.1 (mem_of_lookup hsort))

/-- Every state that was explored leads to such states only, and those that end were asked
about. -/
theorem explored_of_forbidden (hn : c.Numbered) {ask : TerminalGraph → QueryResult}
    (h : Returns c p config ask (.ok r)) (hr : r.verdict = .forbidden) :
    ∃ K : GlobalState → Prop, K (c.init 0).1 ∧
      ∀ s, K s → Exploration.Explored c p (fun t => ask t = .unsat) K s := by
  rcases returns_cases h with ⟨j, last, history, hreached, heq⟩ | ⟨_, _, -, heq⟩
  · obtain rfl := Except.ok.inj heq
    have hsound : Course.Done c p config ask j last history := Course.sound_of_reached hreached
    obtain ⟨hsolutions, hunknowns, hfailures⟩ := clear_of_forbidden hr
    obtain ⟨hdone, -, hunsat⟩ := hsound.all_unsat ⟨hsolutions, hunknowns, hfailures⟩
    refine ⟨(· ∈ j.history.explored), Journey.init_explored hsound.reached hdone, fun s hs => ?_⟩
    obtain ⟨hreach, hsuccessors, hasked⟩ :=
      Journey.explored_of_done hn hsound.reached hdone hs
    refine ⟨hreach, hsuccessors, fun hterminal hfinal => ?_⟩
    obtain ⟨index, hmem⟩ := hasked hterminal hfinal
    exact ⟨index, hunsat _ hmem⟩
  · exact absurd heq (by simp)

/-- With any solver that can be trusted, no execution shows the outcome unless it lets values
come out of nothing. -/
theorem not_grounded_of_forbidden (hn : c.Numbered) (hc : c.Initialized) (hb : Trusted backend)
    (hm : m.validate = .ok ()) (h : Returns c p config (query backend m o) (.ok r))
    (hr : r.verdict = .forbidden) {x : Scenario} (hx : x.Exhibits c p m o) :
    ¬ x.choice.Grounded (x.graph c p) := by
  intro hground
  obtain ⟨K, hstart, hK⟩ := explored_of_forbidden hn h hr
  obtain ⟨v, hv⟩ := x.exists_recalled hn hx
  obtain ⟨pos, u, hu, hat, hdone⟩ := Scenario.exists_done hn hx hv hK hstart
  have hreach := (hK u hu).reachable
  obtain ⟨hterminal, hfinal⟩ := hat.terminal hx hv hdone (Composition.tidy_of_reachable hn hreach)
  obtain ⟨index, hunsat⟩ := (hK u hu).asked hterminal hfinal
  obtain ⟨script, hscript, hanswer⟩ := script_of_unsat hunsat
  obtain ⟨script', hscript', hadequate⟩ := adequate_of_regular (o := o)
    (EventGraph.regular_ofState hc hreach) (symbolic_ofState hreach) hm
    (valueSymbol_of_reachable hreach o)
  obtain rfl := Except.ok.inj (hscript.symm.trans hscript')
  obtain ⟨hevaluates, hrealizes⟩ := hat.realizes hn hc hx hv hdone hreach hground
  obtain ⟨env, hsatisfied, -, -⟩ := hadequate.complete x.choice v hevaluates hrealizes
  exact hb script hanswer env hsatisfied

theorem Runs.returns {a : Except CheckError CheckResult} (h : Runs solve c m o p config a)
    (hk : config.backend = .builtin) (ha : a = .ok r) : m.validate = .ok () ∧
      o.validate c = .ok () ∧ Returns c p config (query (Script.decide solve) m o) a := by
  cases h with
  | invalidModel => exact absurd ha (by simp)
  | invalidOutcome => exact absurd ha (by simp)
  | noBackend => exact absurd ha (by simp)
  | explored hm ho hbackend hreturns =>
    rw [hk] at hbackend
    obtain rfl := Except.ok.inj hbackend
    exact ⟨hm, ho, hreturns⟩

/-- With a complete procedure for clauses, what is found forbidden happens in no execution, unless
reads take values from writes that need these values themselves. -/
theorem not_exhibited_of_forbidden (solve : SatSolver) (hsolve : solve.Complete)
    (automata : List Automaton) (initial : List (String × Int)) (m : MemoryModel) (o : Outcome)
    (p : Precision) (config : CheckConfig) (hk : config.backend = .builtin) (r : CheckResult)
    (h : Runs solve (.ofAutomata automata initial) m o p config (.ok r))
    (hr : r.verdict = .forbidden) :
    ¬ ∃ x : Scenario, x.Exhibits (.ofAutomata automata initial) p m o ∧
      x.choice.Grounded (x.graph (.ofAutomata automata initial) p) := by
  rintro ⟨x, hx, hground⟩
  obtain ⟨hm, -, hreturns⟩ := h.returns hk rfl
  exact not_grounded_of_forbidden (Composition.ofAutomata_numbered automata initial)
    (Composition.ofAutomata_initialized automata initial) (decide_trusted hsolve) hm hreturns hr hx
    hground

def readsOwn : Choice := ⟨fun w r => w = 1 ∧ r = 2, fun a b => a = 0 ∧ b = 1⟩

def loadsOwn : Scenario := ⟨fun _ => [⟨0, 1⟩, ⟨1, 1⟩], readsOwn⟩

theorem loadsOwn_proper :
    readsOwn.Proper (loadsOwn.graph (.ofAutomata updating []) choosing) := by
  have hreads : (loadsOwn.graph (.ofAutomata updating []) choosing).reads = [2] := by cbv
  have hwrites : (loadsOwn.graph (.ofAutomata updating []) choosing).writes = [0, 1] := by cbv
  have h0 : (loadsOwn.graph (.ofAutomata updating []) choosing).writesSameVar 0 = [0, 1] := by cbv
  have h1 : (loadsOwn.graph (.ofAutomata updating []) choosing).writesSameVar 1 = [0, 1] := by cbv
  have h2 : (loadsOwn.graph (.ofAutomata updating []) choosing).writesSameVar 2 = [0, 1] := by cbv
  have hinit : isInit (loadsOwn.graph (.ofAutomata updating []) choosing) 1 = false := by cbv
  constructor <;> simp [readsOwn, hreads, hwrites, h0, h1, h2, hinit]
  omega

theorem loadsOwn_exhibits :
    loadsOwn.Exhibits (.ofAutomata updating []) choosing locally (ends 1) where
  ends := by
    intro t ht
    obtain rfl : t = ⟨0, .straightLine "P" [.store "x" (.int 1), .load "r" "x"]⟩ := by
      simpa [updating, Composition.ofAutomata] using ht
    exact ⟨_, rfl, by decide, by decide⟩
  bounded := by
    intro t _ bound hb
    obtain rfl : 3 = bound := Option.some.inj hb
    exact Nat.le_succ 2
  proper := loadsOwn_proper
  loads := by
    rintro w r ⟨rfl, rfl⟩
    cbv
  admitted := by
    refine ⟨fun _ _ _ => False, by simp [MemoryModel.Interprets, locally, MemoryModel.relation?],
      fun d hd => ?_⟩
    obtain rfl := List.mem_singleton.1 hd
    rintro a ⟨b, ⟨w, ⟨rfl, rfl⟩, ⟨h, -⟩⟩, -⟩
    exact absurd h (by decide)
  outcome := by
    intro a ha
    obtain rfl := List.mem_singleton.1 ha
    exact ⟨_, _, rfl, rfl, rfl⟩

theorem loadsOwn_grounded :
    loadsOwn.choice.Grounded (loadsOwn.graph (.ofAutomata updating []) choosing) := by
  have hnone : ∀ r s,
      ¬ loadsOwn.choice.Needs (loadsOwn.graph (.ofAutomata updating []) choosing) r s := by
    rintro r s ⟨w, e, ⟨rfl, rfl⟩, -, -, hconst⟩
    have hvalue : valueAt (loadsOwn.graph (.ofAutomata updating []) choosing) 1 = .int 1 := by cbv
    rw [hvalue] at hconst
    exact absurd hconst (by simp [Term.consts])
  intro r hr
  obtain ⟨s, -, hs⟩ := Relation.TransGen.tail'_iff.1 hr
  exact hnone s r hs

theorem updated_runs {config : CheckConfig} (hk : config.backend = .builtin) {n : Int}
    {a : Except CheckError CheckResult} (h : Returns (.ofAutomata updating []) choosing config
      (query (Script.decide .engine) locally (ends n)) a) :
    Runs .engine (.ofAutomata updating []) locally (ends n) choosing config a :=
  .explored locally_validate (by cbv) (hk ▸ rfl) h

/-- The thread ends with what it stored and not with what was there before. -/
theorem not_exhibited_of_forbidden_updating :
    loadsOwn.Exhibits (.ofAutomata updating []) choosing locally (ends 1) ∧
    loadsOwn.choice.Grounded (loadsOwn.graph (.ofAutomata updating []) choosing) ∧
      SatSolver.engine.Complete ∧ ∃ r,
        Runs .engine (.ofAutomata updating []) locally (ends 0) choosing thorough (.ok r) ∧
          r.verdict = .forbidden ∧
            ¬ ∃ x : Scenario, x.Exhibits (.ofAutomata updating []) choosing locally (ends 0) ∧
              x.choice.Grounded (x.graph (.ofAutomata updating []) choosing) := by
  obtain ⟨r, hreturns, hr⟩ := updated_forbidden
  have hruns : Runs .engine (.ofAutomata updating []) locally (ends 0) choosing thorough (.ok r) :=
    updated_runs rfl hreturns
  exact ⟨loadsOwn_exhibits, loadsOwn_grounded, SatSolver.engine_complete, r, hruns, hr,
    not_exhibited_of_forbidden .engine SatSolver.engine_complete updating [] locally (ends 0)
      choosing thorough rfl r hruns hr⟩

end Consistency.Check
