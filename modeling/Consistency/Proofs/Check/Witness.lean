import Consistency.Proofs.Check.Answer
import Consistency.Proofs.Cnf.Search
import Consistency.Proofs.MemoryModel.Interleaving
import Consistency.Proofs.Query.Agreement
import Consistency.Proofs.Query.Recovery
import Consistency.Proofs.Query.Solution
import Consistency.Proofs.Query.Total
import Consistency.Proofs.Solver.Found

/-!
# Witnesses

Before an execution is given as an answer, it is asked whether it shows the
outcome. What the built-in solver finds always does, with any procedure for
clauses. Assignments of other solvers may lack values, and are refused unless
they tell how all but the registers end.
-/

set_option autoImplicit false

namespace Consistency
open Query Execution MemoryModel
variable {g : EventGraph} {m : MemoryModel} {o : Outcome} {w : Assignment} {solve : SatSolver}

theorem holdsIn_iff (hg : g.Legible) : o.holdsIn (.ofAssignment g w) = true ↔
    ∀ d ∈ o.atoms, d.Shown g w (recovered g w) := by
  rw [Outcome.holdsIn, List.all_eq_true]
  exact forall_congr' fun d => imp_congr_right fun _ => atomHolds_iff hg

/-- The last write in the order that was solved for is the one that is put last. -/
theorem Query.Solves.last (h : Solves g m o w) (hg : g.Arranged) {y : String} {a : Nat}
    (ha : a ∈ g.writesTo y)
    (hlast : ∀ b ∈ g.writesTo y, ¬ (Choice.ofEnvironment g w.environment).co a b) :
    Last g w y a where
  write := ha
  latest := by
    intro b hb
    by_cases hne : a = b
    · exact .inr ⟨hne ▸ rfl, Nat.le_of_eq hne.symm⟩
    · have hsame := EventGraph.mem_writesSameVar_of_writesTo ha hb
      have hba := (h.meets.proper.total a (write_of_writesTo ha) b hsame hne).resolve_left
        (hlast b hb)
      have hlt := (h.follows hg).rank_lt hb ha hba
      omega

theorem Query.Solves.shown (h : Solves g m o w) (hg : g.Arranged) {d : Atom} (hd : d ∈ o.atoms) :
    d.Shown g w (recovered g w) := by
  have hends := ends_of_decides h.fits hd (h.outcome d hd)
  cases d with
  | register p reg n =>
    obtain ⟨t, ht, hn⟩ := hends
    rw [Term.Computes, ← h.eval_environment (.register hd ht)] at hn
    exact ⟨t, ht, .inl hn⟩
  | memory y n =>
    obtain ⟨a, ha, hlast, hn⟩ := hends
    obtain ⟨e, he, hw, -⟩ := EventGraph.mem_writesTo.1 ha
    obtain ⟨t, ht⟩ := hg.stores a e he hw
    have hspeaks := speaks_valueAt (o := o) he
    have hvalue : valueAt g a = t := by
      simp only [valueAt, he, Event.valueTerm, ht]
    rw [hvalue] at hn hspeaks
    rw [Term.Computes, ← h.eval_environment hspeaks] at hn
    exact ⟨a, t, h.last hg ha hlast, by rw [he, Option.bind_some, ht], hn⟩

theorem OutOfFragment.message_ne (why : OutOfFragment) :
    why.message ≠ "witness does not exhibit the outcome" := by
  intro h
  have hlist := congrArg String.toList h
  unfold message at hlist
  split at hlist <;> simp at hlist

theorem Script.exists_of_unknown {s : Script} {reason : String}
    (h : s.decide solve = .ok (.unknown reason)) :
    ∃ why : OutOfFragment, reason = why.message := by
  have hstop : ∀ stop : Stop, stop.answer = .ok (.unknown reason) →
      ∃ why : OutOfFragment, reason = why.message := by
    intro stop hstop
    cases stop with
    | failed e => exact absurd hstop (by simp [Stop.answer])
    | gaveUp why => exact ⟨why, (Answer.unknown.inj (Except.ok.inj hstop)).symm⟩
  unfold Script.decide at h
  split at h
  · next stop _ => exact hstop stop h
  · split at h
    · exact absurd h (by simp)
    · exact absurd h (by simp)
    · simp only at h
      split at h
      · exact absurd h (by simp)
      · exact hstop _ h

namespace Check
variable {c : Composition} {p : Precision} {u : GlobalState}

theorem holdsIn_of_decide (hn : c.Numbered) (hc : c.Initialized) (hu : c.Reachable p u)
    (hm : m.validate = .ok ()) {script : Script} {found : Option Assignment}
    (hscript : encode (.ofState c u) m o = .ok script)
    (hfound : script.decide solve = .ok (.sat found)) :
    o.holdsIn (.ofAssignment (.ofState c u) (found.getD ⟨[]⟩)) = true := by
  have harranged := arranged_ofState hc hu
  obtain ⟨w, rfl, hw⟩ :=
    solves_of_decide harranged hm (valueSymbol_of_reachable hu o) hscript hfound
  exact (holdsIn_iff (EventGraph.legible_ofState hn hc hu)).2 fun d hd => hw.shown harranged hd

/-- Whatever assignment the built-in solver accepts for the query about a reachable state shows the
outcome, so that no query is left open because it does not. -/
theorem exhibits_of_decide (solve : SatSolver) (automata : List Automaton)
    (initial : List (String × Int)) (p : Precision) (u : GlobalState)
    (hu : (Composition.ofAutomata automata initial).Reachable p u) (m : MemoryModel)
    (hm : m.validate = .ok ()) (o : Outcome) :
    (∀ script found, encode (.ofState (.ofAutomata automata initial) u) m o = .ok script →
      script.decide solve = .ok (.sat found) → o.holdsIn
        (.ofAssignment (.ofState (.ofAutomata automata initial) u) (found.getD ⟨[]⟩)) = true) ∧
    ∀ index left, query (Script.decide solve) m o
        ⟨index, .ofState (.ofAutomata automata initial) u⟩ = .unknown left →
      left.reason ≠ "witness does not exhibit the outcome" := by
  have hn := Composition.ofAutomata_numbered automata initial
  have hc := Composition.ofAutomata_initialized automata initial
  refine ⟨fun script found hscript hfound => holdsIn_of_decide hn hc hu hm hscript hfound,
    fun index left h => ?_⟩
  obtain ⟨script, hscript⟩ := exists_script hm (.ofState (.ofAutomata automata initial) u) o
  rcases query_cases (Script.decide solve)
    (t := ⟨index, .ofState (.ofAutomata automata initial) u⟩) hscript with
    ⟨found, hfound, hquery⟩ | ⟨-, hquery⟩ | ⟨reason, hreason, hquery⟩ | ⟨e, -, hquery⟩
  · have hholds := holdsIn_of_decide hn hc hu hm hscript hfound
    rw [hquery, witness, if_pos hholds] at h
    exact absurd h (by simp)
  · exact absurd (hquery.symm.trans h) (by simp)
  · obtain ⟨why, rfl⟩ := Script.exists_of_unknown hreason
    obtain rfl := QueryResult.unknown.inj (hquery.symm.trans h)
    exact why.message_ne
  · exact absurd (hquery.symm.trans h) (by simp)

def updating : List Automaton := [.straightLine "P" [.store "x" (.int 1), .load "r" "x"]]

def overwritten : GlobalState :=
  ((Composition.ofAutomata updating []).trans .default
    ((Composition.ofAutomata updating []).init 0).1 ⟨0, 0⟩ 1).1.headD default

def updated : GlobalState :=
  ((Composition.ofAutomata updating []).trans .default overwritten ⟨0, 1⟩ 2).1.headD default

def locally : MemoryModel :=
  ⟨"local", [], [⟨"reads", .irreflexive, .binary .seq (.base .fr) (.base .po)⟩]⟩

def ends (n : Int) : Outcome := ⟨[.register 0 "r" n]⟩

def updatedGraph : EventGraph where
  events := #[⟨0, .init, "x", .write, 0, some (.int 0)⟩,
    ⟨1, .thread 0, "x", .write, 0, some (.int 1)⟩, ⟨2, .thread 0, "x", .read, 1, none⟩]
  threadNames := ["P"]
  registers := [⟨[("r", .const "rv_t0_1")]⟩]
  constraints := []

def updatedScript (n : Int) : Script :=
  ⟨[.comment ("model local: " ++ updatedGraph.render), .declareConst "rf_2_0" .bool,
    .declareConst "rf_2_1" .bool, .declareConst "rv_t0_1" .int, .comment "value domains",
    .assert (Term.oneOf "rv_t0_1" [0, 1]), .comment "rf functional",
    .assert (.or [.const "rf_2_0", .const "rf_2_1"]),
    .assert (.not (.and [.const "rf_2_0", .const "rf_2_1"])), .comment "co total order",
    .comment "data flow", .assert (.implies (.const "rf_2_0") (.eq (.const "rv_t0_1") (.int 0))),
    .assert (.implies (.const "rf_2_1") (.eq (.const "rv_t0_1") (.int 1))),
    .comment "axiom reads", .assert (.not (.const "rf_2_0")), .comment "path constraints",
    .comment ("outcome " ++ (ends n).render), .assert (.eq (.const "rv_t0_1") (.int n))]⟩

theorem updated_reachable : (Composition.ofAutomata updating []).Reachable .default updated := by
  have hstore : ((Composition.ofAutomata updating []).trans .default
      ((Composition.ofAutomata updating []).init 0).1 ⟨0, 0⟩ 1).1 = [overwritten] := by cbv
  have hload : ((Composition.ofAutomata updating []).trans .default overwritten ⟨0, 1⟩ 2).1 =
      [updated] := by cbv
  exact .step ⟨0, 1⟩ 2 (.step ⟨0, 0⟩ 1 (.init 0) (hstore ▸ List.mem_singleton_self overwritten))
    (hload ▸ List.mem_singleton_self updated)

theorem updated_graph : EventGraph.ofState (.ofAutomata updating []) updated = updatedGraph := by
  cbv

set_option maxRecDepth 20000 in
theorem updated_encoded (n : Int) :
    encode updatedGraph locally (ends n) = .ok (updatedScript n) := by
  have hsymbols : intSymbols updatedGraph (ends n) = ⟨["rv_t0_1"]⟩ := by
    show intSymbols updatedGraph (ends 0) = _
    exact OrderedSet.ofList_eq (by decide) (by decide) (by decide)
  apply encoded_ok
  simp only [encode, build, declare, hsymbols]
  cbv

theorem updatedScript_plain (n : Int) : ∀ d ∈ (updatedScript n).commands, d.Plain := by
  simp [updatedScript, Command.Plain]

theorem updatedScript_unsat : (updatedScript 0).decide .engine = .ok .unsat := by
  have hfragment : (updatedScript 0).InFragment False := by
    refine ⟨updatedScript_plain 0, by decide, ?_⟩
    cbv
    simp
  obtain ⟨f, hf⟩ := hfragment.encoded.resolve_right fun h => h.1
  refine Script.decide_unsat SatSolver.engine_sound SatSolver.engine_returns hf (by decide)
    fun a ha => ?_
  have hmem : ∀ x ∈ ["rf_2_0", "rf_2_1", "rv_t0_1"],
      x ∈ (updatedScript 0).assertions.flatMap Term.consts := by decide
  obtain ⟨b, hb⟩ := Term.decided_const (ha "rf_2_0" .bool (hmem _ (by decide)) rfl)
  obtain ⟨b', hb'⟩ := Term.decided_const (ha "rf_2_1" .bool (hmem _ (by decide)) rfl)
  obtain ⟨n, hn⟩ := Term.computed_const (ha "rv_t0_1" .int (hmem _ (by decide)) rfl)
  simp only [Term.Decides, Term.Computes, Term.eval] at hb hb' hn
  cases b with
  | true =>
    exact ⟨.not (.const "rf_2_0"), by decide, by simp [Term.Decides, Term.eval, hb, Value.bool?]⟩
  | false =>
    cases b' with
    | false =>
      exact ⟨.or [.const "rf_2_0", .const "rf_2_1"], by decide,
        by simp [Term.Decides, Term.eval, Term.evalAll, hb, hb', Value.bool?]⟩
    | true =>
      by_cases hone : n = 1
      · subst hone
        exact ⟨.eq (.const "rv_t0_1") (.int 0), by decide,
          by simp [Term.Decides, Term.eval, hn, Value.equal]⟩
      · exact ⟨.implies (.const "rf_2_1") (.eq (.const "rv_t0_1") (.int 1)), by decide,
          by simp [Term.Decides, Term.eval, hb', hn, hone, Value.equal, Value.bool?]⟩

theorem updatedScript_sat : ∃ w, (updatedScript 1).decide .engine = .ok (.sat (some w)) := by
  have hfragment : (updatedScript 1).InFragment False := by
    refine ⟨updatedScript_plain 1, by decide, ?_⟩
    cbv
    simp
  have hwell : Term.WellFormedAll (fun _ => True) (updatedScript 1).assertions := by cbv
  have hsorts : (updatedScript 1).Sorts (fun x => [("rf_2_0", Value.bool false),
      ("rf_2_1", .bool true), ("rv_t0_1", .int 1)].lookup x) := Script.sorts_of_lookup (by decide)
  refine hfragment.exists_sat SatSolver.engine_sound SatSolver.engine_complete
    SatSolver.engine_returns hwell (by decide) hsorts ?_
  unfold Term.Decides
  decide

theorem locally_validate : locally.validate = .ok () := by cbv

theorem exhibits_of_decide_updated :
    (Composition.ofAutomata updating []).Reachable .default updated ∧
      locally.validate = .ok () ∧ ∃ w, (updatedScript 1).decide .engine = .ok (.sat (some w)) ∧
        (ends 1).holdsIn (.ofAssignment (.ofState (.ofAutomata updating []) updated) w) =
          true := by
  obtain ⟨w, hw⟩ := updatedScript_sat
  refine ⟨updated_reachable, locally_validate, w, hw, ?_⟩
  have hencoded : encode (.ofState (.ofAutomata updating []) updated) locally (ends 1) =
      .ok (updatedScript 1) := updated_graph ▸ updated_encoded 1
  have hholds := (exhibits_of_decide .engine updating [] .default updated updated_reachable locally
    locally_validate (ends 1)).1 _ _ hencoded hw
  rwa [Option.getD_some] at hholds

/-- A query is answered with an execution exactly if the solver found an assignment under which
every atom is shown: final values are those recovered, except that a register without a value
passes for one that holds 0. -/
theorem sat_iff (automata : List Automaton) (initial : List (String × Int)) (p : Precision)
    (u : GlobalState) (hu : (Composition.ofAutomata automata initial).Reachable p u)
    (m : MemoryModel) (o : Outcome) (backend : Backend) (index : Nat) (s : Solution) :
    query backend m o ⟨index, .ofState (.ofAutomata automata initial) u⟩ = .sat s ↔
      ∃ script found w, encode (.ofState (.ofAutomata automata initial) u) m o = .ok script ∧
        backend script = .ok (.sat found) ∧ w = found.getD ⟨[]⟩ ∧
          s = ⟨index, .ofAssignment (.ofState (.ofAutomata automata initial) u) w, w⟩ ∧
            ∃ env, Recovers (.ofState (.ofAutomata automata initial) u) w env ∧
              ∀ d ∈ o.atoms, d.Shown (.ofState (.ofAutomata automata initial) u) w env := by
  have hg := EventGraph.legible_ofState (Composition.ofAutomata_numbered automata initial)
    (Composition.ofAutomata_initialized automata initial) hu
  simp only [recovers_iff hg, exists_eq_left, ← holdsIn_iff hg]
  constructor
  · intro h
    obtain ⟨script, found, hscript, hfound, hs⟩ := script_of_sat h
    refine ⟨script, found, _, hscript, hfound, rfl, hs, ?_⟩
    by_contra hholds
    simp [query, hscript, hfound, witness, hholds] at h
  · rintro ⟨script, found, w, hscript, hfound, rfl, rfl, hholds⟩
    simp only [query, hscript, hfound, witness, hholds, if_true]

def silent : Backend := fun _ => .ok (.sat none)

def free : MemoryModel := ⟨"free", [], []⟩

theorem loaded_registerTerm :
    (EventGraph.ofState loading loaded).registerTerm 0 "r" = some (.const "rv_t0_0") := by
  cbv

/-- Without an assignment nothing is recovered. -/
theorem not_computes_silent (g : EventGraph) (name : String) {env : Environment}
    (h : Recovers g ⟨[]⟩ env) (n : Int) : ¬ (Term.const name).Computes env n := by
  intro hn
  obtain ⟨k, -, hk | ⟨-, r, e, -, -, -, a, t, hsource, -⟩⟩ := (h name (.int n)).1 hn
  · exact absurd hk (by simp [Assignment.getInt?, Assignment.get?])
  · exact absurd hsource.chosen (by simp [chosen, Assignment.getBool?, Assignment.get?])

theorem sat_iff_loaded : loading.Reachable .default loaded ∧
    (∃ s, query silent free (ends 0) ⟨0, .ofState loading loaded⟩ = .sat s) ∧
      (EventGraph.ofState loading loaded).registerTerm 0 "r" = some (.const "rv_t0_0") ∧
        ∀ n, ¬ (Term.const "rv_t0_0").Computes (recovered (.ofState loading loaded) ⟨[]⟩) n := by
  have hn := Composition.ofAutomata_numbered [.straightLine "P" [.load "r" "x"]] []
  have hc := Composition.ofAutomata_initialized [.straightLine "P" [.load "r" "x"]] []
  have hm : free.validate = .ok () := by decide
  have hrecovers : Recovers (.ofState loading loaded) ⟨[]⟩ _ :=
    (recovers_iff (EventGraph.legible_ofState hn hc loaded_reachable)).2 rfl
  have hnone := not_computes_silent _ "rv_t0_0" hrecovers
  obtain ⟨script, hscript⟩ := exists_script hm (.ofState loading loaded) (ends 0)
  refine ⟨loaded_reachable, ⟨⟨0, .ofAssignment (.ofState loading loaded) ⟨[]⟩, ⟨[]⟩⟩, ?_⟩,
    loaded_registerTerm, hnone⟩
  refine (sat_iff [.straightLine "P" [.load "r" "x"]] [] .default loaded loaded_reachable free
    (ends 0) silent 0 _).2 ⟨script, none, ⟨[]⟩, hscript, rfl, rfl, rfl, _, hrecovers, ?_⟩
  intro d hd
  obtain rfl := List.mem_singleton.1 hd
  exact ⟨_, loaded_registerTerm, .inr ⟨rfl, hnone⟩⟩

end Check
end Consistency
