import Consistency.Proofs.Check.Witness
import Consistency.Proofs.Query.Typing
import Consistency.Proofs.Thread.Recast

/-!
# Queries within the fragment of the solver

The queries of programs with sorts are well-formed scripts, so that the built-in
solver finds none of them broken. Once the values that reads may see are found,
every integer has a domain: that of a read is asserted, and that of a choice
stands among the path constraints.
-/

set_option autoImplicit false

namespace Consistency

namespace Query
variable {c : Composition} {p : Precision} {s : GlobalState} {g : EventGraph} {m : MemoryModel}
  {o : Outcome} {x : String}

theorem typedGraph_ofState (hc : ∀ t ∈ c.threads, t.automaton.Typed) (h : c.Reachable p s)
    (o : Outcome) : TypedGraph (Composition.TracedInt s) (.ofState c s) o := by
  have htyped := Composition.typed_of_reachable hc h
  refine ⟨valueSymbol_of_reachable h o, symbolic_ofState h, fun e he => ?_, fun t ht => ?_,
    fun i reg t ht => ?_⟩
  · have hemitted := (EventGraph.events_perm c s).mem_iff.1 (Array.mem_toList_iff.2 he)
    exact Event.valueTerm_cases (htyped.stored e hemitted)
      (fun hread => ⟨.inl ⟨e, hemitted, hread, rfl⟩, rfl⟩) rfl
  · obtain ⟨l, hl, ht⟩ := GlobalState.mem_constraints.1 ht
    exact (htyped.locals l hl).constraints t ht
  · obtain ⟨l, hl, rfl⟩ := EventGraph.exists_local ht
    exact (htyped.locals l hl).registers reg

def Limited (g : EventGraph) (x : String) : Prop :=
  x ∈ readSymbols g ∨ ∃ values, values ≠ [] ∧ .oneOf x values ∈ g.constraints

theorem limited_of_traced (c : Composition) (h : Composition.Traced s x) :
    Limited (.ofState c s) x := by
  rcases h with ⟨e, he, hread, rfl⟩ | ⟨l, hl, values, hne, hmem⟩
  · obtain ⟨a, ha⟩ := EventGraph.exists_event (c := c) he
    exact .inl (List.mem_map_of_mem (mem_readsOf.2 ⟨a, ha, hread⟩))
  · exact .inr ⟨values, hne, GlobalState.mem_constraints.2 ⟨l, hl, hmem⟩⟩

theorem domain_of_limited {script : Script}
    (hreads : ∀ y values, readDomain? g y = some values → values.toList ≠ [])
    (hfound : valueDomains g ≠ none) (ha : Asserted g o script) (h : Limited g x) :
    ∃ t ∈ script.assertions, ∃ d ∈ t.domain?, d.1 = x := by
  rcases h with hread | ⟨values, hne, hmem⟩
  · obtain ⟨domains, hdomains⟩ := Option.ne_none_iff_exists'.1 hfound
    have hvalues := readDomain?_eq_some.2 ⟨hread, domains, hdomains, rfl⟩
    obtain ⟨rest, hrest⟩ := ha.front
    refine ⟨_, ?_, _, Term.domain?_oneOf (hreads x _ hvalues), rfl⟩
    rw [hrest]
    exact List.mem_append_left _ (mem_domainTerms.2 ⟨x, _, hvalues, rfl⟩)
  · have hvalue : Term.oneOf x values ∈ valueTerms g o :=
      List.mem_append_right _ (List.mem_append_left _ hmem)
    exact ⟨_, ha.values _ hvalue (Term.oneOf_ne_true x values), _, Term.domain?_oneOf hne, rfl⟩

/-- If integers are limited and the values of reads are found, every integer has a domain. -/
theorem inFragment_of_encode {script : Script} (hg : g.Regular) (hs : g.Symbolic)
    (hlimited : ∀ y ∈ (intSymbols g o).toList, Limited g y)
    (hreads : ∀ y values, readDomain? g y = some values → values.toList ≠ [])
    (hfound : valueDomains g ≠ none) (hm : m.validate = .ok ())
    (h : encode g m o = .ok script) (hwell : script.WellFormed) : script.InFragment True where
  commands := hwell.plain
  declared := by
    intro y hy
    obtain ⟨k, hk⟩ := hwell.consts_declared hy
    rw [hwell.sort_eq hk]
    refine (hwell.bool_or_int hk).imp (congrArg some) fun hint => ⟨congrArg some hint, ?_⟩
    obtain rfl := hint
    obtain ⟨q, hencode, hwritten⟩ := encode_written hg hs hm o
    obtain rfl := Except.ok.inj (h.symm.trans hencode)
    obtain ⟨ds, ts, hw, -⟩ := hwritten ⟨fun _ _ => False, fun _ _ => False⟩ fun _ => 0
    have hdeclared : (y, .int) ∈ q.declared := by
      simpa [Command.sortsOf, QueryState.declared] using hk
    exact domain_of_limited hreads hfound (asserted_of_encode hm h)
      (hlimited y (mem_intSymbols_of_declared hw hdeclared))
  sorts := hwell.sorts

end Query

namespace Check
open Query

structure Answerable (g : EventGraph) (script : Script) : Prop where
  wellFormed : script.WellFormed
  names : (script.declared.map Prod.fst).Nodup
  answered : ∀ solve, script.Answered (fun _ => True) solve
  bounded : valueDomains g ≠ none → ∀ solve, script.Answered Script.NoDomainMissing solve

/-- The query about a reachable state of a program with sorts is well-formed and answered, without
a domain missing if the values that reads may see are found. -/
theorem answerable_of_typed (automata : List Automaton) (initial : List (String × Int))
    (htyped : ∀ a ∈ automata, a.Typed) (p : Precision) (s : GlobalState)
    (hs : (Composition.ofAutomata automata initial).Reachable p s) (m : MemoryModel)
    (hm : m.validate = .ok ()) (o : Outcome) :
    ∃ script, encode (.ofState (.ofAutomata automata initial) s) m o = .ok script ∧
      Answerable (.ofState (.ofAutomata automata initial) s) script := by
  have hn := Composition.ofAutomata_numbered automata initial
  have hc := Composition.ofAutomata_initialized automata initial
  obtain ⟨script, hscript⟩ := exists_script hm (.ofState (.ofAutomata automata initial) s) o
  have hthreads : ∀ t ∈ (Composition.ofAutomata automata initial).threads, t.automaton.Typed := by
    intro t ht
    obtain ⟨⟨a, i⟩, ha, rfl⟩ := List.mem_map.1 ht
    exact htyped a (List.fst_mem_of_mem_zipIdx ha)
  have hgraph := typedGraph_ofState hthreads hs o
  have hwell := wellFormed_of_encode (hgraph.mono fun _ _ hx => hx.2) hscript
  refine ⟨script, hscript, hwell, hwell.names_nodup, hwell.sorted.answered,
    fun hfound => ?_⟩
  have hregular := EventGraph.regular_ofState hc hs
  refine Script.InFragment.answered (inFragment_of_encode hregular hgraph.symbolic
    (fun y hy => ?_) (fun y values => ?_) hfound hm hscript hwell)
  · obtain ⟨k, htraced, -⟩ := hgraph.declared hy
    exact limited_of_traced _ htraced
  · exact readable_of_regular hregular (EventGraph.readSymbols_nodup hn hc hs)
      fun a e he => Composition.initial_int hs e (EventGraph.mem_emitted he)

def summing : List Automaton :=
  [.straightLine "P" [.nondet "n" [0, 1], .load "r" "x",
    .store "y" (.arith .add (.const "n") (.const "r")),
    .assume (.compare .le (.const "n") (.const "r"))]]

theorem summing_typed : ∀ a ∈ summing, a.Typed := by
  refine List.forall_mem_singleton.2 (Automaton.labels_straightLine (P := Label.Typed) "P" ?_)
  simp [Label.Typed, Term.HasSort, AllInt]

def along (s : GlobalState) (edge : Nat) : GlobalState :=
  ((Composition.ofAutomata summing []).trans .default s ⟨0, edge⟩ (2 + edge)).1.headD default

def summed : GlobalState :=
  along (along (along (along ((Composition.ofAutomata summing []).init 0).1 0) 1) 2) 3

theorem along_reachable {s : GlobalState} {edge : Nat}
    (h : (Composition.ofAutomata summing []).Reachable .default s)
    (hnext : ((Composition.ofAutomata summing []).trans .default s ⟨0, edge⟩ (2 + edge)).1 ≠ []) :
    (Composition.ofAutomata summing []).Reachable .default (along s edge) := by
  obtain ⟨t, ts, hts⟩ := List.exists_cons_of_ne_nil hnext
  refine .step ⟨0, edge⟩ (2 + edge) h ?_
  rw [along, hts]
  exact List.mem_cons_self

theorem summed_reachable : (Composition.ofAutomata summing []).Reachable .default summed := by
  refine along_reachable (along_reachable (along_reachable (along_reachable (.init 0) ?_) ?_) ?_) ?_
  all_goals
    cbv
    simp

theorem summed_found : valueDomains (.ofState (.ofAutomata summing []) summed) ≠ none := by
  cbv
  simp

theorem answerable_of_typed_summed : (∀ a ∈ summing, a.Typed) ∧
    (Composition.ofAutomata summing []).Reachable .default summed ∧ free.validate = .ok () ∧
      ∃ script, encode (.ofState (.ofAutomata summing []) summed) free (ends 0) = .ok script ∧
        script.WellFormed ∧ (∀ solve, script.Answered Script.NoDomainMissing solve) ∧
          ∃ a, script.decide .engine = .ok a := by
  have hm : free.validate = .ok () := by decide
  obtain ⟨script, hscript, hanswerable⟩ := answerable_of_typed summing [] summing_typed .default
    summed summed_reachable free hm (ends 0)
  have hbounded := hanswerable.bounded summed_found
  exact ⟨summing_typed, summed_reachable, hm, script, hscript, hanswerable.wellFormed, hbounded,
    (hbounded .engine).answers SatSolver.engine_returns⟩

end Check
end Consistency
