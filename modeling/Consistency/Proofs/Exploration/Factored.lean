import Mathlib.Data.Set.Card
import Mathlib.SetTheory.Cardinal.Finite
import Consistency.Proofs.Exploration.Product
import Consistency.Proofs.Exploration.Sequential

/-!
# Explorations count products

Without subsumption an exploration visits one state for each combination of what
the threads can become alone, and finds one terminal graph for each combination
of what they can become at final locations that no edge leaves.
-/

set_option autoImplicit false

namespace Consistency.Exploration
variable {c : Composition} {p : Precision}

theorem ncard_univ_pi {n : Nat} (R : Fin n → Set Solo) :
    (Set.univ.pi R).ncard = ∏ i, (R i).ncard := by
  rw [← Nat.card_coe_set_eq, Nat.card_congr (Equiv.Set.univPi R), Nat.card_pi]
  exact Finset.prod_congr rfl fun i _ => Nat.card_coe_set_eq (R i)

/-- A list without repetitions is as long as the set of its members. -/
theorem length_eq_ncard {α : Type} {xs : List α} {S : Set α} (hn : xs.Nodup)
    (h : ∀ a, a ∈ xs ↔ a ∈ S) : xs.length = S.ncard := by
  classical
  have hset : S = (xs.toFinset : Set α) := by
    ext a
    rw [← h, Finset.mem_coe, List.mem_toFinset]
  rw [hset, Set.ncard_coe_finset, List.toFinset_card_of_nodup hn]

/-- A product that is finite and not empty has finite factors. -/
theorem runs_finite (hn : c.Numbered) (hfin : (reachableKeys c p).Finite)
    (i : Fin c.threads.length) : (c.runs p i).Finite := by
  have hbij := Composition.joinKey_bijOn (p := p) hn
  have hprod : (Set.univ.pi (c.runs p)).Finite := by
    apply Set.Finite.of_finite_image _ hbij.injOn
    rw [hbij.image_eq]
    exact hfin
  have hne : (Set.univ.pi (c.runs p)).Nonempty := ⟨_, Composition.solos_mem hn (.init 0)⟩
  rw [← Set.eval_image_univ_pi hne]
  exact hprod.image _

namespace Tour
variable {r : Tour}

def combinations (c : Composition) (r : Tour) : List (Fin c.threads.length → Solo) :=
  (r.history.explored.filter (proper c)).map c.solos

theorem explored_reachable (h : Reached c p r) {s : GlobalState} (hs : s ∈ r.history.explored) :
    c.Reachable p s :=
  (once_of_reached h).reachable s (List.mem_append_left _ hs)

theorem combinations_nodup (hn : c.Numbered) (h : Reached c p r) :
    (r.combinations c).Nodup := by
  apply List.Nodup.of_map c.joinKey
  have hkeys : (r.combinations c).map c.joinKey =
      (r.history.explored.filter (proper c)).map GlobalState.key := by
    rw [combinations, List.map_map]
    apply List.map_congr_left
    intro s hs
    exact (Composition.key_eq_joinKey hn (explored_reachable h (List.mem_of_mem_filter hs))).symm
  rw [hkeys]
  exact (explored_nodup h).sublist (List.filter_sublist.map _)

theorem mem_combinations (hn : c.Numbered) (h : Reached c p r) (hr : r.Done)
    (f : Fin c.threads.length → Solo) :
    f ∈ r.combinations c ↔ f ∈ Set.univ.pi (c.ends p) := by
  constructor
  · intro hf
    obtain ⟨s, hs, rfl⟩ := List.mem_map.1 hf
    obtain ⟨hs, hproper⟩ := List.mem_filter.1 hs
    exact (Composition.proper_iff hn (explored_reachable h hs)).1 hproper
  · intro hf
    have hruns : f ∈ Set.univ.pi (c.runs p) := fun i hi => (hf i hi).1
    obtain ⟨s, hs, rfl⟩ := Composition.exists_solos hn hruns
    obtain ⟨u, hu, hkey⟩ := explored_of_reachable hn h hr hs
    have hreach := explored_reachable h hu
    have hsolos : c.solos u = c.solos s := by
      apply Composition.joinKey_injOn hn (Composition.solos_mem hn hreach) hruns
      rw [← Composition.key_eq_joinKey hn hreach, ← Composition.key_eq_joinKey hn hs, hkey]
    have hproper := (Composition.proper_iff hn hs).2 hf
    rw [← proper_of_key hkey] at hproper
    exact List.mem_map.2 ⟨u, List.mem_filter.2 ⟨hu, hproper⟩, hsolos⟩

theorem map_shape_combinations (hn : c.Numbered) (h : Reached c p r) :
    (r.history.found.map fun t => (t.graph.shape, t.index)) =
      ((r.combinations c).map c.joinShape).zipIdx := by
  rw [map_shape_found hn h, combinations, List.map_map]
  congr 1
  apply List.map_congr_left
  intro s hs
  exact Composition.shape_eq_joinShape hn (explored_reachable h (List.mem_of_mem_filter hs))

/-- What explorations visit and find, in terms of what the threads can become alone. -/
structure Factored (c : Composition) (p : Precision) : Prop where
  finite : ∀ i, (c.runs p i).Finite
  keys : Set.BijOn c.joinKey (Set.univ.pi (c.runs p)) (reachableKeys c p)
  states : ∀ r, Reached c p r → r.Done →
    r.exploration.stats.states = ∏ i, (c.runs p i).ncard
  terminals : ∀ r, Reached c p r → r.Done →
    r.exploration.stats.terminals = ∏ i, (c.ends p i).ncard
  /-- Each combination has its terminal graph, under a number of its own. -/
  found : ∀ r, Reached c p r → r.Done → ∃ combos : List (Fin c.threads.length → Solo),
    combos.Nodup ∧ (∀ f, f ∈ combos ↔ f ∈ Set.univ.pi (c.ends p)) ∧
      (r.history.found.map fun t => (t.graph.shape, t.index)) = (combos.map c.joinShape).zipIdx
  /-- The exploration that expands one state after the other is one of them. -/
  sequential : ∀ fuel, (reachableKeys c p).ncard < fuel → ∃ r, Reached c p r ∧ r.Done ∧
    run c p false collect fuel (Exploration.start c) [] =
      .ok (some (r.history.found, r.exploration.stats))

/-- The terminal states are the product of what the threads end in alone. -/
theorem factored_of_finite (automata : List Automaton) (initial : List (String × Int))
    (p : Precision) (hfin : (reachableKeys (.ofAutomata automata initial) p).Finite) :
    Factored (.ofAutomata automata initial) p := by
  have hn := Composition.ofAutomata_numbered automata initial
  have hbij := Composition.joinKey_bijOn (p := p) hn
  constructor
  · exact runs_finite hn hfin
  · exact hbij
  · intro r h hr
    have hlength := length_eq_ncard (explored_nodup h) (mem_explored_iff hn h hr)
    rw [List.length_map] at hlength
    calc r.exploration.stats.states
      _ = r.history.explored.length := (counted_of_reached hn h).states
      _ = (reachableKeys (.ofAutomata automata initial) p).ncard := hlength
      _ = (Set.univ.pi (Composition.runs _ p)).ncard := hbij.ncard_eq.symm
      _ = ∏ i, (Composition.runs _ p i).ncard := ncard_univ_pi _
  · intro r h hr
    have hlength := length_eq_ncard (combinations_nodup hn h) (mem_combinations hn h hr)
    rw [combinations, List.length_map, ← List.countP_eq_length_filter] at hlength
    calc r.exploration.stats.terminals
      _ = r.history.explored.countP (proper _) := (counted_of_reached hn h).terminals
      _ = (Set.univ.pi (Composition.ends _ p)).ncard := hlength
      _ = ∏ i, (Composition.ends _ p i).ncard := ncard_univ_pi _
  · exact fun r h hr => ⟨r.combinations _, combinations_nodup hn h, mem_combinations hn h hr,
      map_shape_combinations hn h⟩
  · intro fuel hfuel
    rw [Set.ncard_eq_toFinset_card _ hfin] at hfuel
    exact run_reached hfin .refl hfuel

def pick : List Automaton :=
  [.straightLine "P" [.nondet "r" [0, 1]], .straightLine "Q" [.store "x" (.int 1)]]

theorem factored_of_finite_pick :
    (reachableKeys (.ofAutomata pick []) ⟨.ofList ["r"], some 1⟩).Finite ∧
      Factored (.ofAutomata pick []) ⟨.ofList ["r"], some 1⟩ := by
  have hfin : (reachableKeys (.ofAutomata pick []) ⟨.ofList ["r"], some 1⟩).Finite :=
    finite_of_stepBound (Composition.ofAutomata_numbered pick []) rfl
  exact ⟨hfin, factored_of_finite pick [] ⟨.ofList ["r"], some 1⟩ hfin⟩

end Tour
end Consistency.Exploration
