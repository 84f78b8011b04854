import Consistency.Proofs.Check.Forbidden
import Consistency.Proofs.Exploration.Lossless

/-!
# Checks that do not stop early

With subsumption such a check asks about fewer graphs, each of the shape of one
that is asked about without it. Graphs of one shape get one answer, so what is
reported with subsumption is reported without it, however many workers take
turns.
-/

set_option autoImplicit false

namespace Consistency.Check
open Exploration (Journey)
variable {c : Composition} {m : MemoryModel} {o : Outcome} {p : Precision} {config : CheckConfig}
  {backend : Backend} {ask : TerminalGraph → QueryResult}

theorem run_builtin {solve : SatSolver} (hk : config.backend = .builtin)
    (hm : m.validate = .ok ()) (ho : o.validate c = .ok ()) :
    run solve c m o p config = explore c p config (query (Script.decide solve) m o) := by
  rw [run, hm, ho, hk]
  rfl

structure Within (few all : CheckResult) : Prop where
  solutions : ∀ s ∈ few.solutions, ∃ t ∈ all.solutions, s.Alike t
  unknowns : ∀ u ∈ few.unknowns, ∃ v ∈ all.unknowns,
    u.description = v.description ∧ u.reason = v.reason
  failures : few.failures ≠ [] → all.failures ≠ []
  allowed : few.verdict = .allowed → all.verdict = .allowed
  forbidden : all.verdict = .forbidden → few.verdict = .forbidden

/-- Verdicts only depend on what is reported. -/
theorem within_of_reports {few all : CheckResult}
    (hsolutions : ∀ s ∈ few.solutions, ∃ t ∈ all.solutions, s.Alike t)
    (hunknowns : ∀ u ∈ few.unknowns, ∃ v ∈ all.unknowns,
      u.description = v.description ∧ u.reason = v.reason)
    (hfailures : few.failures ≠ [] → all.failures ≠ []) : Within few all := by
  refine ⟨hsolutions, hunknowns, hfailures, fun hall => ?_, fun hall => ?_⟩
  · rw [CheckResult.verdict_eq_allowed] at hall ⊢
    obtain ⟨s, hs⟩ := List.exists_mem_of_ne_nil _ hall
    obtain ⟨t, ht, -⟩ := hsolutions s hs
    exact List.ne_nil_of_mem ht
  · rw [CheckResult.verdict_eq_forbidden] at hall ⊢
    obtain ⟨hs, hu, hf⟩ := hall
    refine ⟨List.eq_nil_iff_forall_not_mem.2 fun s hmem => ?_,
      List.eq_nil_iff_forall_not_mem.2 fun u hmem => ?_, not_not.1 fun hne => hfailures hne hf⟩
    · obtain ⟨t, ht, -⟩ := hsolutions s hmem
      exact List.not_mem_nil (hs ▸ ht)
    · obtain ⟨v, hv, -⟩ := hunknowns u hmem
      exact List.not_mem_nil (hu ▸ hv)

theorem within_of_shapes (backend : Backend) (m : MemoryModel) (o : Outcome)
    {found found' : List TerminalGraph} (stats stats' : Stats)
    (hsub : ∀ t ∈ found, ∃ u ∈ found', t.graph.shape = u.graph.shape) :
    Within (whole (query backend m o) found stats) (whole (query backend m o) found' stats') := by
  have hanswer : ∀ t ∈ found, ∀ q, query backend m o t = q →
      ∃ u ∈ found', ∃ q', query backend m o u = q' ∧ q.Alike q' := by
    rintro t ht q rfl
    obtain ⟨u, hu, hshape⟩ := hsub t ht
    exact ⟨u, hu, _, rfl, query_alike backend m o hshape⟩
  refine within_of_reports (fun s hs => ?_) (fun a ha => ?_) fun hne => ?_
  · obtain ⟨t, ht, hask⟩ := mem_solutions_whole.1 hs
    obtain ⟨u, hu, q, hq, halike⟩ := hanswer t ht _ hask
    cases halike with
    | sat hst => exact ⟨_, mem_solutions_whole.2 ⟨u, hu, hq⟩, hst⟩
  · obtain ⟨t, ht, hask⟩ := mem_unknowns_whole.1 ha
    obtain ⟨u, hu, q, hq, halike⟩ := hanswer t ht _ hask
    cases halike with
    | unknown hd hr => exact ⟨_, mem_unknowns_whole.2 ⟨u, hu, hq⟩, hd, hr⟩
  · obtain ⟨e, he⟩ := List.exists_mem_of_ne_nil _ hne
    obtain ⟨t, ht, hask⟩ := mem_failures_whole.1 he
    obtain ⟨u, hu, q, hq, halike⟩ := hanswer t ht _ hask
    cases halike with
    | failed _ f => exact List.ne_nil_of_mem (mem_failures_whole.2 ⟨u, hu, hq⟩)

structure Concludes (c : Composition) (p : Precision) (config : CheckConfig)
    (ask : TerminalGraph → QueryResult) : Prop where
  returns : ∃ r, Returns c p config ask (.ok r)
  noError : ∀ e, ¬ Returns c p config ask (.error e)

/-- Any check with subsumption, compared with any check without it. -/
structure Narrows (c : Composition) (p : Precision) (config : CheckConfig)
    (ask : TerminalGraph → QueryResult) : Prop where
  pruned : Concludes c p { config with subsumption := true } ask
  plain : Concludes c p { config with subsumption := false } ask
  within : ∀ few all, Returns c p { config with subsumption := true } ask (.ok few) →
    Returns c p { config with subsumption := false } ask (.ok all) → Within few all

theorem concludes_of_finite (hfin : (Exploration.reachableKeys c p).Finite)
    (hx : config.Exhaustive) (ask : TerminalGraph → QueryResult) : Concludes c p config ask := by
  refine ⟨?_, fun e h => ?_⟩
  · obtain ⟨j, hj, hdone⟩ := Journey.exists_whole hfin config.jobs config.subsumption
    obtain ⟨a, ha⟩ := exists_returnsOver config ask hj hdone
    obtain rfl := batch_returns hx ha
    exact ⟨_, ha.returns⟩
  · obtain ⟨j, -, -, heq⟩ := whole_of_returns hfin hx h
    exact absurd heq (by simp)

theorem narrows_of_finite (hn : c.Numbered) (hfin : (Exploration.reachableKeys c p).Finite)
    (hx : config.Exhaustive) (backend : Backend) (m : MemoryModel) (o : Outcome) :
    Narrows c p config (query backend m o) := by
  have hpruned : CheckConfig.Exhaustive { config with subsumption := true } := ⟨hx.first, hx.eager⟩
  have hplain : CheckConfig.Exhaustive { config with subsumption := false } := ⟨hx.first, hx.eager⟩
  refine ⟨concludes_of_finite hfin hpruned _, concludes_of_finite hfin hplain _,
    fun few all hfew hall => ?_⟩
  obtain ⟨j, hj, -, heq⟩ := whole_of_returns hfin hpruned hfew
  obtain ⟨j', hj', hdone', heq'⟩ := whole_of_returns hfin hplain hall
  obtain rfl := Except.ok.inj heq
  obtain rfl := Except.ok.inj heq'
  exact within_of_shapes backend m o _ _ fun t ht => Journey.exists_found hn hj hj' hdone' ht

/-- With enough levels both explorations end. -/
theorem collects_of_finite (hfin : (Exploration.reachableKeys c p).Finite)
    {fuel : Nat} (hfuel : (Exploration.reachableKeys c p).ncard < fuel) (subsumption : Bool) :
    ∃ found stats, Exploration.run c p subsumption Exploration.collect fuel (Exploration.start c) [] =
      .ok (some (found, stats)) := by
  rw [Set.ncard_eq_toFinset_card _ hfin] at hfuel
  cases subsumption with
  | true =>
    obtain ⟨r, -, -, hrun⟩ := Exploration.Sweep.run_reached hfin .refl hfuel
    exact ⟨_, _, hrun⟩
  | false =>
    obtain ⟨r, -, -, hrun⟩ := Exploration.Tour.run_reached hfin .refl hfuel
    exact ⟨_, _, hrun⟩

/-- Checks that do not stop early report no more with subsumption than without it, whatever solver
is asked and however many workers take turns. So do those that expand one state after the other
and ask the built-in solver. -/
theorem within_of_finite (automata : List Automaton) (initial : List (String × Int))
    (m : MemoryModel) (o : Outcome) (p : Precision) (config : CheckConfig)
    (hx : config.Exhaustive) (backend : Backend)
    (hfin : (Exploration.reachableKeys (.ofAutomata automata initial) p).Finite) :
    Narrows (.ofAutomata automata initial) p config (query backend m o) ∧
    ∀ solve, config.backend = .builtin → m.validate = .ok () →
      o.validate (.ofAutomata automata initial) = .ok () →
      (Exploration.reachableKeys (.ofAutomata automata initial) p).ncard <
        Exploration.levelLimit →
      ∃ few all,
        run solve (.ofAutomata automata initial) m o p { config with subsumption := true } =
          .ok (some few) ∧
        run solve (.ofAutomata automata initial) m o p { config with subsumption := false } =
          .ok (some all) ∧ Within few all := by
  have hn := Composition.ofAutomata_numbered automata initial
  refine ⟨narrows_of_finite hn hfin hx backend m o, fun solve hk hm ho hlimit => ?_⟩
  have hpruned : CheckConfig.Exhaustive { config with subsumption := true } := ⟨hx.first, hx.eager⟩
  have hplain : CheckConfig.Exhaustive { config with subsumption := false } := ⟨hx.first, hx.eager⟩
  obtain ⟨found, stats, hfew⟩ := collects_of_finite hfin hlimit true
  obtain ⟨found', stats', hall⟩ := collects_of_finite hfin hlimit false
  have hexplore := explore_exhaustive hpruned (query (Script.decide solve) m o) hfew
  have hexplore' := explore_exhaustive hplain (query (Script.decide solve) m o) hall
  refine ⟨_, _, (run_builtin (by exact hk) hm ho).trans hexplore,
    (run_builtin (by exact hk) hm ho).trans hexplore',
    (narrows_of_finite hn hfin hx (Script.decide solve) m o).within _ _
      (returns_of_explore.1 _ hexplore) (returns_of_explore.1 _ hexplore')⟩

open Exploration

def detoured : Composition := .ofAutomata [Sweep.detour] []

def detouredStates : List GlobalState :=
  let after (s : GlobalState) : List GlobalState :=
    (detoured.enabled s).flatMap fun a => (detoured.trans .default s a 0).1
  let loaded := after (detoured.init 0).1
  (detoured.init 0).1 :: (loaded ++ loaded.flatMap after)

theorem detoured_card : (reachableKeys detoured .default).Finite ∧
    (reachableKeys detoured .default).ncard ≤ detouredStates.length := by
  refine card_of_closed fun s hs => key_of_closed (Composition.ofAutomata_numbered _ _)
    ⟨_, List.mem_cons_self, rfl⟩ (fun u hu a ha t ht => ?_) hs
  have hclosed : ∀ u ∈ detouredStates, ∀ a ∈ detoured.enabled u,
      ∀ t ∈ (detoured.trans .default u a 0).1, ∃ v ∈ detouredStates, v.locals = t.locals ∧
        v.emitted.map Event.shape = t.emitted.map Event.shape ∧ v.terminated = t.terminated := by
    decide +kernel
  obtain ⟨v, hv, hlocals, hshapes, hterminated⟩ := hclosed u hu a ha t ht
  exact ⟨v, hv, GlobalState.key_eq_iff.2 ⟨hlocals, .of_eq hshapes, hterminated⟩⟩

theorem within_of_finite_detoured :
    Narrows detoured .default thorough (query (Script.decide .engine) free (ends 0)) ∧
    ∃ few all,
      run .engine detoured free (ends 0) .default { thorough with subsumption := true } =
        .ok (some few) ∧
      run .engine detoured free (ends 0) .default { thorough with subsumption := false } =
        .ok (some all) ∧
      Within few all := by
  have hlength : detouredStates.length = 4 := by cbv
  have hlimit : detouredStates.length < levelLimit := by
    rw [hlength]
    decide
  obtain ⟨hnarrows, hrun⟩ := within_of_finite [Sweep.detour] [] free (ends 0) .default thorough
    thorough_exhaustive (Script.decide .engine) detoured_card.1
  exact ⟨hnarrows, hrun .engine rfl (by decide) (by cbv) (detoured_card.2.trans_lt hlimit)⟩

end Consistency.Check
