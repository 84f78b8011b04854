import Mathlib.Data.Set.Card
import Consistency.Proofs.Exploration.Canonical
import Consistency.Proofs.Exploration.Sequential

/-!
# Independence of the schedule

Whatever order the workers of a level take turns in, an exploration without
subsumption visits each state that can be reached once, and ends with the same
terminal graphs under the same numbers.
-/

set_option autoImplicit false

namespace Consistency

attribute [ext] Stats

namespace Exploration
variable {c : Composition} {p : Precision}

namespace Tour

structure Exact (c : Composition) (p : Precision) (r : Tour) : Prop where
  nodup : (r.history.explored.map GlobalState.key).Nodup
  keys : ∀ k, k ∈ r.history.explored.map GlobalState.key ↔ k ∈ reachableKeys c p
  states : r.exploration.stats.states = r.history.explored.length
  generated : r.history.generated = (r.history.explored.map (successors c p)).sum
  duplicates : r.exploration.stats.duplicates + r.exploration.stats.states =
    r.history.generated + 1
  /-- A state is a proper end, or it is blocked, or it has successors. -/
  fate : ∀ s ∈ r.history.explored,
    (proper c s = true ∧ stuck c p s = false ∧ successors c p s = 0) ∨
    (proper c s = false ∧ stuck c p s = true ∧ successors c p s = 0) ∨
    (proper c s = false ∧ stuck c p s = false ∧ 0 < successors c p s)
  terminals : r.exploration.stats.terminals = r.history.explored.countP (proper c)
  blocked : r.exploration.stats.blocked = r.history.explored.countP (stuck c p)
  indices : r.history.found.map TerminalGraph.index = List.range r.exploration.stats.terminals

theorem exact_of_done (hn : c.Numbered) {r : Tour} (h : Reached c p r) (hr : r.Done) :
    Exact c p r := by
  have hcounted := counted_of_reached hn h
  obtain ⟨hwaiting, hteam⟩ := frontier_of_done hr
  have hbusy : r.busy = [] := by rw [busy, hteam, List.map_nil]
  have hmet : r.met = r.history.explored := by rw [met, hwaiting, List.append_nil]
  obtain ⟨-, hstates, hterminals, hblocked, hduplicates, hgenerated, hfound, -, -⟩ := hcounted
  rw [hbusy] at hblocked hgenerated
  rw [hteam, hmet, ← hstates] at hduplicates
  refine ⟨explored_nodup h, mem_explored_iff hn h hr, hstates, hgenerated, hduplicates,
    fun s hs => ?_, hterminals, hblocked, ?_⟩
  · have hreach := (once_of_reached h).reachable s (List.mem_append_left _ hs)
    exact Exploration.fate (Composition.tidy_of_reachable hn hreach)
  · rw [hfound, hterminals, List.countP_eq_length_filter, List.map_map, List.range_eq_range']
    exact List.zipIdx_map_snd 0 _

/-- Any two tours count the same. -/
theorem stats_unique (hn : c.Numbered) {r r' : Tour} (h : Reached c p r) (hr : r.Done)
    (h' : Reached c p r') (hr' : r'.Done) : r.exploration.stats = r'.exploration.stats := by
  have hkeys := explored_unique hn h hr h' hr'
  have hexact := exact_of_done hn h hr
  have hexact' := exact_of_done hn h' hr'
  have hcounted := counted_of_reached hn h
  have hcounted' := counted_of_reached hn h'
  have hranked := ranked_of_reached h
  have hranked' := ranked_of_reached h'
  have hlength : r.history.explored.length = r'.history.explored.length := by
    simpa using congrArg List.length hkeys
  have hstates : r.exploration.stats.states = r'.exploration.stats.states :=
    hexact.states.trans (hlength.trans hexact'.states.symm)
  have hterminals : r.exploration.stats.terminals = r'.exploration.stats.terminals := by
    rw [hexact.terminals, hexact'.terminals, countP_eq_of_keys (fun _ _ => proper_of_key) hkeys]
  have hblocked : r.exploration.stats.blocked = r'.exploration.stats.blocked := by
    rw [hexact.blocked, hexact'.blocked, countP_eq_of_keys (fun _ _ => stuck_of_key) hkeys]
  have hgenerated : r.history.generated = r'.history.generated := by
    rw [hexact.generated, hexact'.generated,
      map_eq_of_keys (fun _ _ _ _ => successors_of_key) hkeys]
  have hduplicates : r.exploration.stats.duplicates = r'.exploration.stats.duplicates := by
    have hsum := hexact.duplicates
    have hsum' := hexact'.duplicates
    omega
  have hqueried := hcounted.queried.trans hcounted'.queried.symm
  have hsubsumed := hcounted.subsumed.trans hcounted'.subsumed.symm
  have hlevels : r.exploration.stats.levels = r'.exploration.stats.levels :=
    Nat.le_antisymm (levels_le hranked hranked' hkeys) (levels_le hranked' hranked hkeys.symm)
  exact Stats.ext hstates hterminals hqueried hsubsumed hduplicates hblocked hlevels

/-- No schedule fails to end, and all of them come to the same. -/
structure Independent (c : Composition) (p : Precision) : Prop where
  progress : ∀ r, Reached c p r → ¬ r.Done → ∃ r', Step c p r r'
  ends : ¬ ∃ f : Nat → Tour, f 0 = start c ∧ ∀ i, Step c p (f i) (f (i + 1))
  exact : ∀ r, Reached c p r → r.Done → Exact c p r
  keys : ∀ r r', Reached c p r → r.Done → Reached c p r' → r'.Done →
    r.history.explored.map GlobalState.key = r'.history.explored.map GlobalState.key
  stats : ∀ r r', Reached c p r → r.Done → Reached c p r' → r'.Done →
    r.exploration.stats = r'.exploration.stats
  found : ∀ r r', Reached c p r → r.Done → Reached c p r' → r'.Done →
    (r.history.found.map fun t => (t.graph.shape, t.index)) =
      r'.history.found.map fun t => (t.graph.shape, t.index)
  /-- The exploration that expands one state after the other is one of them. -/
  sequential : ∀ fuel, (reachableKeys c p).ncard < fuel → ∃ r, Reached c p r ∧ r.Done ∧
    run c p false collect fuel (Exploration.start c) [] =
      .ok (some (r.history.found, r.exploration.stats))

/-- If finitely many keys can be reached, every schedule visits each of them once. -/
theorem independent_of_finite (automata : List Automaton) (initial : List (String × Int))
    (p : Precision) (hfin : (reachableKeys (.ofAutomata automata initial) p).Finite) :
    Independent (.ofAutomata automata initial) p := by
  have hn := Composition.ofAutomata_numbered automata initial
  refine ⟨fun r _ hr => exists_step hr, not_infinite hfin, fun r h hr => exact_of_done hn h hr,
    fun r r' h hr h' hr' => explored_unique hn h hr h' hr',
    fun r r' h hr h' hr' => stats_unique hn h hr h' hr',
    fun r r' h hr h' hr' => found_unique hn h hr h' hr', fun fuel hfuel => ?_⟩
  rw [Set.ncard_eq_toFinset_card _ hfin] at hfuel
  exact run_reached hfin .refl hfuel

def race : List Automaton :=
  [.straightLine "P" [.store "x" (.int 1)], .straightLine "Q" [.load "r" "x"]]

theorem independent_of_finite_race :
    (reachableKeys (.ofAutomata race []) ⟨.empty, some 1⟩).Finite ∧
      Independent (.ofAutomata race []) ⟨.empty, some 1⟩ := by
  have hfin : (reachableKeys (.ofAutomata race []) ⟨.empty, some 1⟩).Finite :=
    finite_of_stepBound (Composition.ofAutomata_numbered race []) rfl
  exact ⟨hfin, independent_of_finite race [] ⟨.empty, some 1⟩ hfin⟩

end Tour
end Exploration
end Consistency
