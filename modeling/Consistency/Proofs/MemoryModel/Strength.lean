import Consistency.Proofs.MemoryModel.Standard
import Consistency.Proofs.Query.Adequacy

/-!
# Strength of memory models

Where one model admits no more than another, what satisfies a query under the
first satisfies the query under the second, with the same sources, coherence
order and values: only the symbols of definitions differ.
-/

set_option autoImplicit false

namespace Consistency
variable {g : EventGraph} {m k : MemoryModel} {o : Outcome} {x : Choice} {v : Valuation}
  {env env' : Environment} {t : Term} {a b : Nat}

theorem Choice.Meets.weaken (h : x.Meets g m v)
    (hle : ∀ y : Choice, y.Proper g → m.Admits g y → k.Admits g y) : x.Meets g k v :=
  { h with admitted := hle x h.proper h.admitted }

namespace Query

theorem Speaks.same (h : Speaks g o t) (hf : Fits env g o x v) (hf' : Fits env' g o x v) :
    ∀ name ∈ t.consts, env name = env' name := fun name hn =>
  (hf.values name (h.mem_intSymbols name hn)).trans
    (hf'.values name (h.mem_intSymbols name hn)).symm

theorem same_coTerm (hs : Shows env g x) (hs' : Shows env' g x) (ha : a ∈ g.writes)
    (hb : b ∈ g.writesSameVar a) (hne : a ≠ b) :
    ∀ name ∈ (coTerm g a b).consts, env name = env' name := by
  have h := hs.co a ha b hb hne
  have h' := hs'.co a ha b hb hne
  intro name hn
  by_cases hia : isInit g a = true
  · simp [coTerm, hia, Term.consts] at hn
  · by_cases hib : isInit g b = true
    · simp [coTerm, hia, hib, Term.consts] at hn
    · have hterm : coTerm g a b = .const (coSymbol a b) := by simp [coTerm, hia, hib]
      rw [hterm] at h h' hn
      obtain rfl : name = coSymbol a b := by simpa [Term.consts] using hn
      exact eq_of_decides h h'

theorem same_finalMemory (hf : Fits env g o x v) (hf' : Fits env' g o x v) (y : String) (n : Int) :
    ∀ name ∈ (finalMemory g y n).consts, env name = env' name := by
  intro name hn
  obtain ⟨t, ht, hn⟩ := Term.mem_consts_mkOr hn
  obtain ⟨w, hw, rfl⟩ := List.mem_map.1 ht
  obtain ⟨u, hu, hn⟩ := Term.mem_consts_mkAnd hn
  rcases List.mem_append.1 hu with hu | hu
  · obtain ⟨b, hb, rfl⟩ := List.mem_map.1 hu
    rw [Term.consts_mkNot] at hn
    rw [List.mem_filter, bne_iff_ne] at hb
    exact same_coTerm hf.shows hf'.shows (List.mem_of_mem_filter hw)
      (EventGraph.mem_writesSameVar_of_writesTo hw hb.1) hb.2.symm name hn
  · obtain rfl := List.mem_singleton.1 hu
    obtain ⟨e, he, -, -⟩ := EventGraph.mem_writesTo.1 hw
    refine (speaks_valueAt he).same hf hf' name ?_
    simpa [Term.consts] using hn

/-- The outcome does not depend on definitions. -/
theorem eval_atomTerm (hf : Fits env g o x v) (hf' : Fits env' g o x v) {d : Atom}
    (hd : d ∈ o.atoms) : (atomTerm g d).eval env = (atomTerm g d).eval env' := by
  apply Term.eval_congr
  cases d with
  | memory y n => exact same_finalMemory hf hf' y n
  | register i reg n =>
    intro name hn
    rw [atomTerm] at hn
    cases ht : g.registerTerm i reg with
    | none => simp [ht, Term.consts] at hn
    | some t =>
      refine (Speaks.register hd ht).same hf hf' name ?_
      simpa [ht, Term.consts] using hn

/-- The choice and the values of an assignment that satisfies the one query are those of an
assignment that satisfies the other. -/
theorem exists_satisfied_of_weaker (hg : g.Regular) (hs : g.Symbolic)
    (hm : m.validate = .ok ()) (hk : k.validate = .ok ())
    (hle : ∀ y : Choice, y.Proper g → m.Admits g y → k.Admits g y)
    (hsym : ∀ name ∈ (intSymbols g o).toList, ValueSymbol name) :
    ∃ s t, encode g m o = .ok s ∧ encode g k o = .ok t ∧ ∀ env, s.Satisfied env →
      ∃ env', t.Satisfied env' ∧ Choice.ofEnvironment g env' = .ofEnvironment g env ∧
        ∀ name ∈ (intSymbols g o).toList, env' name = env name := by
  obtain ⟨q, hencode, hwritten⟩ := encode_written hg hs hm o
  obtain ⟨q', hencode', hwritten'⟩ := encode_written hg hs hk o
  refine ⟨_, _, hencode, hencode', fun env hsat => ?_⟩
  obtain ⟨ds, ts, hw, hmeans⟩ := hwritten (.ofEnvironment g env) (.ofEnvironment env)
  rw [satisfied_iff] at hsat
  have hfits : Fits env g o (.ofEnvironment g env) (.ofEnvironment env) :=
    fits_ofEnvironment fun name sort h => hsat.1 name sort ((hw.declared _).2 (.inl h))
  obtain ⟨hmeets, hatoms⟩ := (hmeans env hfits fun t ht => hsat.2 t ((hw.asserted t).2 (.inl ht))).1
    fun t ht => hsat.2 t ((hw.asserted t).2 (.inr ht))
  obtain ⟨ds', ts', hw', hmeans'⟩ := hwritten' (.ofEnvironment g env) (.ofEnvironment env)
  have hweak : ∀ env', Fits env' g o (.ofEnvironment g env) (.ofEnvironment env) →
      (∀ t ∈ definitionsFrom 0 ds', t.Decides env' true) → ∀ t ∈ ts', t.Decides env' true := by
    intro env' hfits' hdefs
    refine (hmeans' env' hfits' hdefs).2 ⟨hmeets.weaken hle, fun d hd => ?_⟩
    rw [Term.Decides, ← eval_atomTerm hfits hfits' hd]
    exact hatoms d hd
  obtain ⟨env', hsat', hfits'⟩ := exists_satisfying hw' hsym hmeets.proper hweak
  refine ⟨env', hsat', ofEnvironment_of_shows hfits'.shows, fun name hn => ?_⟩
  rw [hfits'.values name hn, hfits.values name hn]

end Query

namespace MemoryModel

/-- The first model admits no more than the second, and what satisfies a query under the first
chooses sources, coherence order and values that satisfy it under the second. -/
structure Stronger (g : EventGraph) (m k : MemoryModel) : Prop where
  admits : ∀ x : Choice, x.Proper g → m.Admits g x → k.Admits g x
  satisfied : ∀ o : Outcome, ∃ s t, Query.encode g m o = .ok s ∧ Query.encode g k o = .ok t ∧
    ∀ env, s.Satisfied env → ∃ env', t.Satisfied env' ∧
      Choice.ofEnvironment g env' = .ofEnvironment g env ∧
        ∀ name ∈ (Query.intSymbols g o).toList, env' name = env name

theorem stronger_of_admits {c : Composition} (hc : c.Initialized) {p : Precision} {s : GlobalState}
    (h : c.Reachable p s) (hm : m.validate = .ok ()) (hk : k.validate = .ok ())
    (hle : ∀ x : Choice, m.Admits (.ofState c s) x → k.Admits (.ofState c s) x) :
    Stronger (.ofState c s) m k where
  admits := fun x _ => hle x
  satisfied := fun o => Query.exists_satisfied_of_weaker (EventGraph.regular_ofState hc h)
    (Query.symbolic_ofState h) hm hk (fun x _ => hle x) (Query.valueSymbol_of_reachable h o)

/-- Sequential consistency is the strongest of the standard models and coherence the weakest; total
store order and release-acquire are between them. -/
theorem standard_stronger (automata : List Automaton) (initial : List (String × Int))
    (p : Precision) (s : GlobalState)
    (h : (Composition.ofAutomata automata initial).Reachable p s) :
    Stronger (.ofState (.ofAutomata automata initial) s) sc tso ∧
      Stronger (.ofState (.ofAutomata automata initial) s) sc ra ∧
      Stronger (.ofState (.ofAutomata automata initial) s) tso coherence ∧
      Stronger (.ofState (.ofAutomata automata initial) s) ra coherence := by
  have hc := Composition.ofAutomata_initialized automata initial
  exact ⟨stronger_of_admits hc h sc_valid tso_valid fun _ => tso_of_sc,
    stronger_of_admits hc h sc_valid ra_valid fun _ => ra_of_sc,
    stronger_of_admits hc h tso_valid coherence_valid fun _ => coherence_of_tso,
    stronger_of_admits hc h ra_valid coherence_valid fun _ => coherence_of_ra⟩

theorem standard_stronger_loaded : loading.Reachable .default loaded ∧
    Stronger (.ofState loading loaded) sc tso ∧ Stronger (.ofState loading loaded) sc ra ∧
      Stronger (.ofState loading loaded) tso coherence ∧
      Stronger (.ofState loading loaded) ra coherence :=
  ⟨loaded_reachable, standard_stronger [.straightLine "P" [.load "r" "x"]] [] .default loaded
    loaded_reachable⟩

end MemoryModel
end Consistency
