import Consistency.Proofs.Graph.Place
import Consistency.Proofs.Query.Adequacy

/-!
# Domains leave grounded executions alone

In the graph of a reachable state the values found for reads include all that
grounded executions show. The assertions that state these domains are true in
such an execution, whatever else is asserted.
-/

set_option autoImplicit false

namespace Consistency.Query
open EventGraph (ofState)
variable {g : EventGraph} {v : Valuation} {domains : OrderedMap String Values} {x : Choice}

def Reads (g : EventGraph) (v : Valuation) (env : Environment) : Prop :=
  ∀ symbol ∈ readSymbols g, env symbol = some (.int (v symbol))

/-- All reads see values of their domains, and to assert the domains asks for nothing more. -/
structure Allows (g : EventGraph) (domains : OrderedMap String Values) (v : Valuation) : Prop where
  inside : ∀ r e, g.event? r = some e → e.isRead = true →
    ∃ values, domains.get? e.symbol = some values ∧ v e.symbol ∈ values.toList
  neutral : ∀ q, ∃ q₁, Runs (assertDomains g) q ⟨⟩ q₁ ∧ ∀ env, Reads g v env →
    ((∀ t ∈ q₁.asserted, t.Decides env true) ↔ ∀ t ∈ q.asserted, t.Decides env true)

theorem assertDomains_runs (h : valueDomains g = some domains) (q : QueryState) :
    ∃ (q₁ : QueryState) (ts : List Term), Runs (assertDomains g) q ⟨⟩ q₁ ∧
      (∀ t, t ∈ q₁.asserted ↔ t ∈ q.asserted ∨ t ∈ ts) ∧
      ∀ env, (∀ t ∈ ts, t.Decides env true) ↔ ∀ symbol ∈ readSymbols g,
        (Term.oneOf symbol ((domains.get? symbol).getD .empty).toList).Decides env true := by
  let titled : QueryState := { q with commands := .comment "value domains" :: q.commands }
  obtain ⟨q₁, ts, hrun, hgrows, -, hts⟩ := assertAll_runs (fun _ => False) titled
    (fun symbol => .oneOf symbol ((domains.get? symbol).getD .empty).toList) (readSymbols g)
  refine ⟨q₁, ts, ?_, fun t => ?_, hts⟩
  · unfold assertDomains
    rw [h]
    exact Runs.bind_iff.2 ⟨_, titled, runs_add, hrun⟩
  · rw [hgrows.asserted]
    simp [titled, QueryState.asserted, definitionsFrom, Command.assertion]

theorem allows_of_inside (h : valueDomains g = some domains)
    (hin : ∀ symbol ∈ readSymbols g,
      ∃ values, domains.get? symbol = some values ∧ v symbol ∈ values.toList) :
    Allows g domains v where
  inside := by
    intro r e he hr
    exact hin e.symbol (List.mem_map.2 ⟨e, mem_readsOf.2 ⟨r, he, hr⟩, rfl⟩)
  neutral := by
    intro q
    obtain ⟨q₁, ts, hrun, hasserted, hts⟩ := assertDomains_runs h q
    refine ⟨q₁, hrun, fun env henv => ?_⟩
    have htrue : ∀ t ∈ ts, t.Decides env true := by
      rw [hts env]
      intro symbol hs
      obtain ⟨values, hvalues, hmem⟩ := hin symbol hs
      rw [hvalues]
      exact (Term.tells_oneOf (henv symbol hs)).decides_true.2 hmem
    constructor
    · exact fun hall t ht => hall t ((hasserted t).2 (.inl ht))
    · intro hall t ht
      rcases (hasserted t).1 ht with ht | ht
      · exact hall t ht
      · exact htrue t ht

/-- No execution of a reachable state is lost for its domains, as long as no read needs itself. -/
theorem domains_allow_grounded (automata : List Automaton) (initial : List (String × Int))
    (p : Precision) (s : GlobalState)
    (hs : (Composition.ofAutomata automata initial).Reachable p s)
    (domains : OrderedMap String Values)
    (hd : valueDomains (ofState (.ofAutomata automata initial) s) = some domains)
    (v : Valuation) (x : Choice) (hx : x.Feeds (ofState (.ofAutomata automata initial) s) v)
    (hc : ∀ t ∈ (ofState (.ofAutomata automata initial) s).constraints,
      t.Decides v.environment true)
    (hground : x.Grounded (ofState (.ofAutomata automata initial) s)) :
    Allows (ofState (.ofAutomata automata initial) s) domains v := by
  have hnodup := EventGraph.readSymbols_nodup (Composition.ofAutomata_numbered automata initial)
    (Composition.ofAutomata_initialized automata initial) hs
  exact allows_of_inside hd (domains_of_grounded (symbolic_ofState hs) hnodup hx hc hground hd)

def passing : Composition := .ofAutomata
  [.straightLine "P" [.store "x" (.int 1)], .straightLine "Q" [.load "r" "x"]] []

def sent : GlobalState := (passing.trans .default (passing.init 0).1 ⟨0, 0⟩ 1).1.headD default

def received : GlobalState := (passing.trans .default sent ⟨1, 0⟩ 2).1.headD default

def readsSent : Choice := ⟨fun w r => w = 1 ∧ r = 2, fun _ _ => False⟩

theorem received_reachable : passing.Reachable .default received := by
  have hfirst : (passing.trans .default (passing.init 0).1 ⟨0, 0⟩ 1).1 = [sent] := by cbv
  have hsecond : (passing.trans .default sent ⟨1, 0⟩ 2).1 = [received] := by cbv
  have hsent : passing.Reachable .default sent :=
    .step ⟨0, 0⟩ 1 (.init 0) (hfirst ▸ List.mem_singleton_self sent)
  exact .step ⟨1, 0⟩ 2 hsent (hsecond ▸ List.mem_singleton_self received)

theorem received_stores : valueAt (ofState passing received) 1 = .int 1 := by cbv

theorem readsSent_feeds : readsSent.Feeds (ofState passing received) fun _ => 1 := by
  intro r hr
  have hreads : (ofState passing received).reads = [2] := by cbv
  have hwrites : (ofState passing received).writesSameVar 2 = [0, 1] := by cbv
  have hsame : 1 ∈ (ofState passing received).writesSameVar 2 := by simp [hwrites]
  have hseen : valueAt (ofState passing received) 2 = .const (readSymbol 1 0) := by cbv
  rw [hreads] at hr
  obtain rfl := List.mem_singleton.1 hr
  refine ⟨1, hsame, ⟨rfl, rfl⟩, 1, ?_, ?_⟩
  · rw [hseen]
    rfl
  · rw [received_stores]
    rfl

theorem readsSent_grounded : readsSent.Grounded (ofState passing received) := by
  have hnone : ∀ r s, ¬ readsSent.Needs (ofState passing received) r s := by
    rintro r s ⟨w, e, ⟨rfl, -⟩, -, -, hmem⟩
    rw [received_stores] at hmem
    exact absurd hmem (by simp [Term.consts])
  intro r hr
  obtain ⟨s, -, hs⟩ := Relation.TransGen.tail'_iff.1 hr
  exact hnone s r hs

theorem domains_allow_grounded_received : received.isTerminal = true ∧
    passing.Reachable .default received ∧ readsSent.Feeds (ofState passing received) (fun _ => 1) ∧
      readsSent.Grounded (ofState passing received) ∧
        ∃ domains, valueDomains (ofState passing received) = some domains ∧
          Allows (ofState passing received) domains fun _ => 1 := by
  have hsome : (valueDomains (ofState passing received)).isSome = true := by cbv
  obtain ⟨domains, hd⟩ := Option.isSome_iff_exists.1 hsome
  have hnone : (ofState passing received).constraints = [] := by cbv
  have hc : ∀ t ∈ (ofState passing received).constraints,
      t.Decides (Valuation.environment fun _ => 1) true := by
    rw [hnone]
    simp
  exact ⟨by cbv, received_reachable, readsSent_feeds, readsSent_grounded, domains, hd,
    domains_allow_grounded _ [] .default received received_reachable domains hd (fun _ => 1)
      readsSent readsSent_feeds hc readsSent_grounded⟩

end Consistency.Query
