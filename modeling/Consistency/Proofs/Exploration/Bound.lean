import Consistency.Proofs.Composition.Bound
import Consistency.Proofs.Exploration.Lossless

/-!
# Explorations with a bound on the steps

All states of a level have made as many steps as there are levels before it.
When each of `n` threads may take `b` steps, there are therefore no more than
`n * b + 1` levels. What is explored is what can be reached without the bound by
runs in which no thread takes more than `b` steps.
-/

set_option autoImplicit false

namespace Consistency.Exploration
variable {c : Composition} {p : Precision} {tracked : OrderedSet String} {bound bound' : Nat}
  {s : GlobalState}

structure Pruner.Ranked (n : Nat) (w : Pruner) : Prop where
  worker : w.toWorker.Ranked n
  held : w.held ⊆ w.fresh

theorem Pruner.Ranked.turn {n : Nat} {x x' : Exploration} {w w' : Pruner}
    (hturn : w.Turn c p x w' x') (h : w.Ranked n) : w'.Ranked n := by
  have hworker : w'.toWorker.Ranked n := by
    rcases hturn.worker with hturn | ⟨heq, -⟩
    · exact h.worker.turn hturn
    · rw [heq]
      exact h.worker
  refine ⟨hworker, ?_⟩
  have hheld := h.held
  cases hturn with
  | act => exact hheld
  | meet => exact hheld
  | @discover t ts v hpending hnone hvisit =>
    simp only [Pruner.held, hnone, Option.toList_none, List.append_nil, Option.toList_some]
      at hheld ⊢
    exact List.append_subset.2
      ⟨List.Subset.trans hheld (List.subset_append_left _ _), List.subset_append_right _ _⟩
  | prune hsome hsubsume =>
    simp only [Pruner.held, Option.toList_none, List.append_nil]
    exact List.Subset.trans (List.subset_append_left _ _) hheld
  | keep hsome hsubsume =>
    simpa only [Pruner.held, hsome, Option.toList_none, List.append_nil, Option.toList_some]
      using hheld

namespace Sweep

def frontier : Sweep → List GlobalState
  | .between x _ => x.frontier
  | .within _ _ _ => []

structure Ranked (r : Sweep) : Prop where
  last : r.exploration.stats.levels = 0 ∨
    ∃ s ∈ r.history.explored, s.level + 1 = r.exploration.stats.levels
  frontier : ∀ s ∈ r.frontier, s.level = r.exploration.stats.levels
  workers : ∀ w ∈ r.team, w.Ranked r.exploration.stats.levels

theorem start_ranked (c : Composition) : Ranked (start c) where
  last := .inl rfl
  frontier := by
    intro s hs
    obtain rfl := List.mem_singleton.1 hs
    exact Composition.level_init c 0
  workers := by simp [start, team]

theorem Ranked.step {r r' : Sweep} (hs : Step c p r r') (h : Ranked r) : Ranked r' := by
  cases hs with
  | @enter x g hne =>
    refine ⟨.inr ?_, fun s hs => absurd hs List.not_mem_nil, fun w hw => ?_⟩
    · obtain ⟨s, hs⟩ := List.exists_mem_of_ne_nil _ hne
      exact ⟨s, List.mem_append_right _ hs, congrArg (· + 1) (h.frontier s hs)⟩
    · obtain ⟨s, hs, rfl⟩ := List.mem_map.1 hw
      have hstate : s.level + 1 = (x.enter c).stats.levels :=
        congrArg (· + 1) (h.frontier s (List.mem_of_mem_filter hs))
      exact ⟨⟨hstate, by simp [Pruner.start, Worker.start], by simp [Pruner.start, Worker.start]⟩,
        by simp [Pruner.start, Pruner.held]⟩
  | @turn x x' before after w w' g hturn =>
    have hlevels : x'.stats.levels = x.stats.levels := congrArg Stats.levels hturn.stats
    obtain ⟨hlast, hfrontier, hworkers⟩ := h
    refine ⟨hlevels ▸ hlast, fun s hs => absurd hs List.not_mem_nil, ?_⟩
    exact hlevels ▸ Tour.forall_mem_turn hworkers (Pruner.Ranked.turn hturn)
  | @leave x team g hdone =>
    refine ⟨h.last, fun s hs => ?_, fun w hw => absurd hw List.not_mem_nil⟩
    obtain ⟨w, hw, hs⟩ := List.mem_flatMap.1 ((Tour.sortByKey_perm _).mem_iff.1 hs)
    have hranked := h.workers w hw
    exact hranked.worker.fresh s (hranked.held (List.mem_append_left _ hs))

theorem ranked_of_reached {r : Sweep} (h : Reached c p r) : Ranked r :=
  h.invariant (start_ranked c) fun _ _ hs => Ranked.step hs

end Sweep

/-- If the last level has states of at most so many steps, there is no more than one level for
each number of steps. -/
theorem levels_le_of_last {levels total : Nat} {explored : List GlobalState}
    (hlast : levels = 0 ∨ ∃ s ∈ explored, s.level + 1 = levels)
    (h : ∀ s ∈ explored, s.level ≤ total) : levels ≤ total + 1 := by
  rcases hlast with hzero | ⟨s, hs, hlevel⟩
  · omega
  · have hle := h s hs
    omega

theorem Tour.mem_shapes (hn : c.Numbered) {r : Tour} (h : Reached c p r) (hr : r.Done)
    (g : GraphShape) : (∃ t ∈ r.history.found, t.graph.shape = g) ↔
      ∃ s, c.Reachable p s ∧ proper c s = true ∧ endShape c s = g := by
  have hfound := Sweep.mem_found (counted_of_reached hn h).found
  constructor
  · rintro ⟨t, ht, rfl⟩
    obtain ⟨s, hs, hproper, hgraph⟩ := (hfound _).1 ⟨t, ht, rfl⟩
    exact ⟨s, (once_of_reached h).reachable s (List.mem_append_left _ hs), hproper,
      congrArg EventGraph.shape hgraph⟩
  · rintro ⟨s, hs, hproper, rfl⟩
    obtain ⟨u, hu, hkey⟩ := explored_of_reachable hn h hr hs
    obtain ⟨t, ht, hgraph⟩ := (hfound _).2 ⟨u, hu, (proper_of_key hkey).trans hproper, rfl⟩
    refine ⟨t, ht, ?_⟩
    rw [hgraph]
    exact EventGraph.shape_of_key hn hs hkey

/-- The shapes of the proper ends that can be reached without a bound, with at most so many steps
of each thread. -/
def shortEnds (c : Composition) (tracked : OrderedSet String) (bound : Nat) : Set GraphShape :=
  {g | ∃ s, c.Reachable ⟨tracked, none⟩ s ∧ s.key.Within bound ∧ proper c s = true ∧
    Tour.endShape c s = g}

theorem shortEnds_eq (c : Composition) (tracked : OrderedSet String) (bound : Nat) :
    shortEnds c tracked bound = {g | ∃ s, c.Reachable ⟨tracked, some bound⟩ s ∧
      proper c s = true ∧ Tour.endShape c s = g} := by
  ext g
  constructor
  · rintro ⟨s, hs, hwithin, hend⟩
    exact ⟨s, Composition.reachable_bounded_iff.2 ⟨hs, hwithin⟩, hend⟩
  · rintro ⟨s, hs, hend⟩
    obtain ⟨hs, hwithin⟩ := Composition.reachable_bounded_iff.1 hs
    exact ⟨s, hs, hwithin, hend⟩

theorem shortEnds_mono (h : bound ≤ bound') :
    shortEnds c tracked bound ⊆ shortEnds c tracked bound' := by
  rintro g ⟨s, hs, hwithin, hend⟩
  exact ⟨s, hs, fun l hl => (hwithin l hl).trans h, hend⟩

structure Bounded (c : Composition) (tracked : OrderedSet String) (bound : Nat) : Prop where
  /-- Until an exploration is done it goes on, in whatever order the workers take turns. -/
  progress : (∀ r, Tour.Reached c ⟨tracked, some bound⟩ r → ¬ r.Done →
      ∃ r', Tour.Step c ⟨tracked, some bound⟩ r r') ∧
    ∀ r, Sweep.Reached c ⟨tracked, some bound⟩ r → ¬ r.Done →
      ∃ r', Sweep.Step c ⟨tracked, some bound⟩ r r'
  ends : (¬ ∃ f : Nat → Tour, f 0 = Tour.start c ∧
      ∀ i, Tour.Step c ⟨tracked, some bound⟩ (f i) (f (i + 1))) ∧
    ¬ ∃ f : Nat → Sweep, f 0 = Sweep.start c ∧
      ∀ i, Sweep.Step c ⟨tracked, some bound⟩ (f i) (f (i + 1))
  levels : (∀ r, Tour.Reached c ⟨tracked, some bound⟩ r →
      r.exploration.stats.levels ≤ c.threads.length * bound + 1) ∧
    ∀ r, Sweep.Reached c ⟨tracked, some bound⟩ r →
      r.exploration.stats.levels ≤ c.threads.length * bound + 1
  /-- The explorations that expand one state after the other need no more levels either. -/
  sequential : ∀ fuel, c.threads.length * bound + 1 < fuel →
    (∃ r, Tour.Reached c ⟨tracked, some bound⟩ r ∧ r.Done ∧
      run c ⟨tracked, some bound⟩ false collect fuel (start c) [] =
        .ok (some (r.history.found, r.exploration.stats))) ∧
    ∃ r, Sweep.Reached c ⟨tracked, some bound⟩ r ∧ r.Done ∧
      run c ⟨tracked, some bound⟩ true collect fuel (start c) [] =
        .ok (some (r.history.found, r.exploration.stats))
  /-- The counters tell how many actions a thread has taken. -/
  counts : ∀ (as : List Action) (s : GlobalState), c.Trace ⟨tracked, none⟩ as s →
    (s.key.Within bound ↔ ∀ i, (as.countP fun a => a.thread == i) ≤ bound)
  keys : ∀ r, Tour.Reached c ⟨tracked, some bound⟩ r → r.Done → ∀ k,
    k ∈ r.history.explored.map GlobalState.key ↔
      k ∈ reachableKeys c ⟨tracked, none⟩ ∧ k.Within bound
  found : ∀ r, Tour.Reached c ⟨tracked, some bound⟩ r → r.Done →
    {g | ∃ t ∈ r.history.found, t.graph.shape = g} = shortEnds c tracked bound
  /-- With subsumption nothing else is explored or found, and nothing is missed. -/
  pruned : ∀ r, Sweep.Reached c ⟨tracked, some bound⟩ r → r.Done →
    (∀ k ∈ r.history.explored.map GlobalState.key,
      k ∈ reachableKeys c ⟨tracked, none⟩ ∧ k.Within bound) ∧
    (∀ t ∈ r.history.found, t.graph.shape ∈ shortEnds c tracked bound) ∧
    ∀ g ∈ shortEnds c tracked bound, ∃ t ∈ r.history.found, t.graph.shape.Relaxes g
  /-- A smaller bound leaves less to find. -/
  grows : ∀ bound' ≤ bound, shortEnds c tracked bound' ⊆ shortEnds c tracked bound ∧
    ∀ q r, Tour.Reached c ⟨tracked, some bound'⟩ q → q.Done →
      Tour.Reached c ⟨tracked, some bound⟩ r → r.Done →
        q.history.explored.map GlobalState.key ⊆ r.history.explored.map GlobalState.key ∧
          ∀ t ∈ q.history.found, ∃ u ∈ r.history.found, t.graph.shape = u.graph.shape

theorem level_bounded (hn : c.Numbered) (hs : c.Reachable ⟨tracked, some bound⟩ s) :
    s.level ≤ c.threads.length * bound :=
  Composition.level_le hn hs (Composition.within_of_bounded hs)

theorem Tour.levels_bounded (hn : c.Numbered) {r : Tour}
    (h : Reached c ⟨tracked, some bound⟩ r) :
    r.exploration.stats.levels ≤ c.threads.length * bound + 1 :=
  levels_le_of_last (ranked_of_reached h).last fun s hs =>
    level_bounded hn ((once_of_reached h).reachable s (List.mem_append_left _ hs))

theorem Sweep.levels_bounded (hn : c.Numbered) {r : Sweep}
    (h : Reached c ⟨tracked, some bound⟩ r) :
    r.exploration.stats.levels ≤ c.threads.length * bound + 1 :=
  levels_le_of_last (ranked_of_reached h).last fun s hs =>
    level_bounded hn ((sound_of_reached h).reachable s (explored_subset r hs))

/-- A run that ends within so many levels does not need more. -/
theorem run_of_levels_le {σ ε : Type} {subsumption : Bool}
    {visit : σ → List TerminalGraph → Except ε (σ × Bool)} {fuel fuel' : Nat} {acc last : σ}
    {stats : Stats} (h : run c p subsumption visit fuel' (start c) acc = .ok (some (last, stats)))
    (hfuel : stats.levels < fuel) :
    run c p subsumption visit fuel (start c) acc = .ok (some (last, stats)) := by
  have hlevels := (run_levels h).2
  exact run_mono hfuel hlevels

section Explored
variable (hn : c.Numbered)
include hn

theorem Tour.mem_keys_iff {r : Tour} (h : Reached c ⟨tracked, some bound⟩ r) (hr : r.Done)
    (k : StateKey) : k ∈ r.history.explored.map GlobalState.key ↔
      k ∈ reachableKeys c ⟨tracked, none⟩ ∧ k.Within bound := by
  rw [mem_explored_iff hn h hr]
  constructor
  · rintro ⟨s, hs, rfl⟩
    obtain ⟨hs, hwithin⟩ := Composition.reachable_bounded_iff.1 hs
    exact ⟨⟨s, hs, rfl⟩, hwithin⟩
  · rintro ⟨⟨s, hs, rfl⟩, hwithin⟩
    exact ⟨s, Composition.reachable_bounded_iff.2 ⟨hs, hwithin⟩, rfl⟩

theorem Tour.shapes_found {r : Tour} (h : Reached c ⟨tracked, some bound⟩ r) (hr : r.Done) :
    {g | ∃ t ∈ r.history.found, t.graph.shape = g} = shortEnds c tracked bound := by
  rw [shortEnds_eq]
  exact Set.ext (mem_shapes hn h hr)

/-- More steps lead to all that fewer steps lead to. -/
theorem Tour.grows {q r : Tour} (hle : bound ≤ bound') (hq : Reached c ⟨tracked, some bound⟩ q)
    (hqd : q.Done) (h : Reached c ⟨tracked, some bound'⟩ r) (hr : r.Done) :
    q.history.explored.map GlobalState.key ⊆ r.history.explored.map GlobalState.key ∧
      ∀ t ∈ q.history.found, ∃ u ∈ r.history.found, t.graph.shape = u.graph.shape := by
  refine ⟨fun k hk => ?_, fun t ht => ?_⟩
  · obtain ⟨hreach, hwithin⟩ := (mem_keys_iff hn hq hqd k).1 hk
    exact (mem_keys_iff hn h hr k).2 ⟨hreach, fun l hl => (hwithin l hl).trans hle⟩
  · have hshort : t.graph.shape ∈ shortEnds c tracked bound := by
      rw [← shapes_found hn hq hqd]
      exact ⟨t, ht, rfl⟩
    have hmore := shortEnds_mono hle hshort
    rw [← shapes_found hn h hr] at hmore
    obtain ⟨u, hu, heq⟩ := hmore
    exact ⟨u, hu, heq.symm⟩

theorem Sweep.pruned {r : Sweep} (h : Reached c ⟨tracked, some bound⟩ r) (hr : r.Done) :
    (∀ k ∈ r.history.explored.map GlobalState.key,
      k ∈ reachableKeys c ⟨tracked, none⟩ ∧ k.Within bound) ∧
    (∀ t ∈ r.history.found, t.graph.shape ∈ shortEnds c tracked bound) ∧
    ∀ g ∈ shortEnds c tracked bound, ∃ t ∈ r.history.found, t.graph.shape.Relaxes g := by
  rw [shortEnds_eq]
  refine ⟨fun k hk => ?_, fun t ht => exists_end h ht, ?_⟩
  · obtain ⟨s, hs, rfl⟩ := List.mem_map.1 hk
    have hreach := (sound_of_reached h).reachable s (explored_subset r hs)
    obtain ⟨hreach, hwithin⟩ := Composition.reachable_bounded_iff.1 hreach
    exact ⟨⟨s, hreach, rfl⟩, hwithin⟩
  · rintro g ⟨s, hs, hproper, rfl⟩
    exact exists_relaxing hn h hr hs hproper

variable {fuel : Nat} (hfuel : c.threads.length * bound + 1 < fuel)
include hfuel

theorem Tour.run_bounded : ∃ r, Reached c ⟨tracked, some bound⟩ r ∧ r.Done ∧
    run c ⟨tracked, some bound⟩ false collect fuel (Exploration.start c) [] =
      .ok (some (r.history.found, r.exploration.stats)) := by
  have hfin : (reachableKeys c ⟨tracked, some bound⟩).Finite := finite_of_stepBound hn rfl
  obtain ⟨r, h, hr, hrun⟩ := run_reached hfin (g := ⟨[], [], 0⟩) .refl (Nat.lt_succ_self _)
  have hlevels := levels_bounded hn h
  exact ⟨r, h, hr, run_of_levels_le hrun (by omega)⟩

theorem Sweep.run_bounded : ∃ r, Reached c ⟨tracked, some bound⟩ r ∧ r.Done ∧
    run c ⟨tracked, some bound⟩ true collect fuel (Exploration.start c) [] =
      .ok (some (r.history.found, r.exploration.stats)) := by
  have hfin : (reachableKeys c ⟨tracked, some bound⟩).Finite := finite_of_stepBound hn rfl
  obtain ⟨r, h, hr, hrun⟩ := run_reached hfin (g := ⟨[], [], 0⟩) .refl (Nat.lt_succ_self _)
  have hlevels := levels_bounded hn h
  exact ⟨r, h, hr, run_of_levels_le hrun (by omega)⟩

end Explored

/-- A bound on the steps ends every exploration and cuts off what takes more steps. -/
theorem bounded_of_stepBound (automata : List Automaton) (initial : List (String × Int))
    (tracked : OrderedSet String) (bound : Nat) :
    Bounded (.ofAutomata automata initial) tracked bound := by
  have hn := Composition.ofAutomata_numbered automata initial
  have hfin : (reachableKeys (.ofAutomata automata initial) ⟨tracked, some bound⟩).Finite :=
    finite_of_stepBound hn rfl
  exact {
    progress := ⟨fun r _ hr => Tour.exists_step hr, fun r _ hr => Sweep.exists_step hr⟩
    ends := ⟨Tour.not_infinite hfin, Sweep.not_infinite hfin⟩
    levels := ⟨fun r h => Tour.levels_bounded hn h, fun r h => Sweep.levels_bounded hn h⟩
    sequential := fun fuel hfuel => ⟨Tour.run_bounded hn hfuel, Sweep.run_bounded hn hfuel⟩
    counts := fun as s h => h.within_iff
    keys := fun r h hr => Tour.mem_keys_iff hn h hr
    found := fun r h hr => Tour.shapes_found hn h hr
    pruned := fun r h hr => Sweep.pruned hn h hr
    grows := fun bound' hle =>
      ⟨shortEnds_mono hle, fun q r hq hqd h hr => Tour.grows hn hle hq hqd h hr⟩ }

end Consistency.Exploration
