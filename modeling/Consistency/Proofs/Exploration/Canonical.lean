import Consistency.Proofs.Exploration.Account
import Consistency.Proofs.Graph.Place

/-!
# The order of exploration

All states of a level have made equally many steps, and each level is put in
the order of its keys. The states that are explored are therefore in an order
that does not depend on how the workers took turns, and so are the terminal
graphs.
-/

set_option autoImplicit false

namespace Consistency

structure GraphShape where
  events : List EventShape
  threadNames : List String
  registers : List (OrderedMap String Term)
  constraints : List Term
  deriving DecidableEq

def EventGraph.shape (g : EventGraph) : GraphShape :=
  ⟨g.shapes, g.threadNames, g.registers, g.constraints⟩

theorem EventGraph.shape_of_key {c : Composition} {p : Precision} {s u : GlobalState}
    (hn : c.Numbered) (hu : c.Reachable p u) (h : s.key = u.key) :
    (ofState c s).shape = (ofState c u).shape := by
  obtain ⟨hlocals, hshapes, -⟩ := GlobalState.key_eq_iff.1 h
  rw [shape, shape, shapes_of_perm hn hu hshapes]
  simp only [ofState, GlobalState.constraints, hlocals]

namespace Exploration
variable {c : Composition} {p : Precision} {s t u : GlobalState}

def Precedes (k l : StateKey) : Prop :=
  (k.locals.map LocalState.steps).sum < (l.locals.map LocalState.steps).sum ∨
    ((k.locals.map LocalState.steps).sum = (l.locals.map LocalState.steps).sum ∧
      compare k l = .lt)

theorem Precedes.asymm {k l : StateKey} (h : Precedes k l) : ¬ Precedes l k := by
  rintro (hlt | ⟨heq, hlt⟩)
  · rcases h with hlt' | ⟨heq', -⟩ <;> omega
  · rcases h with hlt' | ⟨-, hlt'⟩
    · omega
    · rw [← Std.OrientedCmp.gt_iff_lt, hlt'] at hlt
      exact Ordering.noConfusion hlt

/-- Different keys that are sorted are in strict order. -/
theorem sortByKey_pairwise {states : List GlobalState} (h : (states.map GlobalState.key).Nodup) :
    (sortByKey states).Pairwise fun s t => compare s.key t.key = .lt := by
  have hsorted := @List.pairwise_mergeSort (StateKey × GlobalState)
    (fun a b => (compare a.1 b.1).isLE) (fun _ _ _ => Std.TransCmp.isLE_trans)
    (fun a b => isLE_total a.1 b.1) (states.map fun s => (s.key, s))
  have hkeys : ∀ e ∈ (states.map fun s => (s.key, s)).mergeSort
      (fun a b => (compare a.1 b.1).isLE), e.1 = e.2.key := by
    intro e he
    obtain ⟨s, -, rfl⟩ := List.mem_map.1 (List.mem_mergeSort.1 he)
    rfl
  have hle : (sortByKey states).Pairwise fun s t => (compare s.key t.key).isLE = true := by
    refine List.pairwise_map.2 (hsorted.imp_of_mem fun {a b} ha hb hab => ?_)
    rwa [hkeys a ha, hkeys b hb] at hab
  have hne : (sortByKey states).Pairwise fun s t => s.key ≠ t.key :=
    List.pairwise_map.1 (((Tour.sortByKey_perm states).map GlobalState.key).nodup_iff.2 h)
  refine hle.imp₂ (fun s t hst hne => ?_) hne
  cases hc : compare s.key t.key with
  | lt => rfl
  | eq => exact absurd (Std.LawfulEqOrd.eq_of_compare hc) hne
  | gt =>
    rw [hc] at hst
    exact absurd hst (by decide)

structure Worker.Ranked (n : Nat) (w : Worker) : Prop where
  state : w.state.level + 1 = n
  pending : ∀ t ∈ w.pending, t.level = n
  fresh : ∀ t ∈ w.fresh, t.level = n

theorem Worker.Ranked.turn {n : Nat} {x x' : Exploration} {w w' : Worker}
    (hturn : w.Turn c p x w' x') (h : w.Ranked n) : w'.Ranked n := by
  cases hturn with
  | act hactions hpending =>
    exact ⟨h.state, fun t ht => (Composition.level_trans ht).trans h.state, h.fresh⟩
  | @meet t ts v hpending hvisit =>
    exact ⟨h.state, fun u hu => h.pending u (hpending ▸ List.mem_cons_of_mem t hu), h.fresh⟩
  | @discover t ts v hpending hvisit =>
    refine ⟨h.state, fun u hu => h.pending u (hpending ▸ List.mem_cons_of_mem t hu), fun u hu => ?_⟩
    rcases List.mem_append.1 hu with hu | hu
    · exact h.fresh u hu
    · rw [List.mem_singleton.1 hu]
      exact h.pending t (hpending ▸ List.mem_cons_self)

namespace Tour

def frontier : Tour → List GlobalState
  | .between x _ => x.frontier
  | .within _ _ _ => []

structure Ranked (r : Tour) : Prop where
  explored : ∀ s ∈ r.history.explored, s.level < r.exploration.stats.levels
  last : r.exploration.stats.levels = 0 ∨
    ∃ s ∈ r.history.explored, s.level + 1 = r.exploration.stats.levels
  frontier : ∀ s ∈ r.frontier, s.level = r.exploration.stats.levels
  workers : ∀ w ∈ r.team, w.Ranked r.exploration.stats.levels
  sorted : r.frontier.Pairwise fun s t => compare s.key t.key = .lt
  ordered : (r.history.explored.map GlobalState.key).Pairwise Precedes

theorem start_ranked (c : Composition) : Ranked (start c) where
  explored := by simp [start, history]
  last := .inl rfl
  frontier := by
    intro s hs
    obtain rfl := List.mem_singleton.1 hs
    exact Composition.level_init c 0
  workers := by simp [start, team]
  sorted := List.pairwise_singleton _ _
  ordered := .nil

theorem Ranked.step {r r' : Tour} (hs : Step c p r r') (ho : Once c p r) (h : Ranked r) :
    Ranked r' := by
  cases hs with
  | @enter x g hne =>
    refine ⟨fun s hs => ?_, .inr ?_, fun s hs => absurd hs List.not_mem_nil, fun w hw => ?_,
      .nil, ?_⟩
    · rcases List.mem_append.1 hs with hs | hs
      · exact Nat.lt_succ_of_lt (h.explored s hs)
      · exact Nat.lt_succ_of_le (Nat.le_of_eq (h.frontier s hs))
    · obtain ⟨s, hs⟩ := List.exists_mem_of_ne_nil _ hne
      exact ⟨s, List.mem_append_right _ hs, congrArg (· + 1) (h.frontier s hs)⟩
    · obtain ⟨s, hs, rfl⟩ := List.mem_map.1 hw
      exact ⟨congrArg (· + 1) (h.frontier s (List.mem_of_mem_filter hs)), by simp [Worker.start],
        by simp [Worker.start]⟩
    · show ((g.explored ++ x.frontier).map GlobalState.key).Pairwise Precedes
      rw [List.map_append]
      refine List.pairwise_append.2 ⟨h.ordered, ?_, fun k hk l hl => ?_⟩
      · refine List.pairwise_map.2 (h.sorted.imp_of_mem fun {s t} hs ht hst => .inr ⟨?_, hst⟩)
        exact (h.frontier s hs).trans (h.frontier t ht).symm
      · obtain ⟨s, hs, rfl⟩ := List.mem_map.1 hk
        obtain ⟨t, ht, rfl⟩ := List.mem_map.1 hl
        exact .inl (Nat.lt_of_lt_of_eq (h.explored s hs) (h.frontier t ht).symm)
  | @turn x x' before after w w' g hturn =>
    have hlevels : x'.stats.levels = x.stats.levels := congrArg Stats.levels hturn.frame.1
    obtain ⟨hexplored, hlast, hfrontier, hworkers, hsorted, hordered⟩ := h
    refine ⟨fun s hs => ?_, ?_, fun s hs => absurd hs List.not_mem_nil, ?_, hsorted, hordered⟩
    · exact Nat.lt_of_lt_of_eq (hexplored s hs) hlevels.symm
    · exact hlevels ▸ hlast
    · exact hlevels ▸ forall_mem_turn hworkers (Worker.Ranked.turn hturn)
  | @leave x team g hdone =>
    have hnodup : ((team.flatMap Worker.fresh).map GlobalState.key).Nodup := by
      have hall := ho.nodup
      rw [met, List.map_append] at hall
      exact hall.of_append_right
    refine ⟨h.explored, h.last, fun s hs => ?_, fun w hw => absurd hw List.not_mem_nil,
      sortByKey_pairwise hnodup, h.ordered⟩
    obtain ⟨w, hw, hs⟩ := List.mem_flatMap.1 ((sortByKey_perm _).mem_iff.1 hs)
    exact (h.workers w hw).fresh s hs

theorem ranked_of_reached {r : Tour} (h : Reached c p r) : Ranked r := by
  refine (h.invariant (I := fun r => Once c p r ∧ Ranked r)
    ⟨start_once c p, start_ranked c⟩ fun r r' hs hr => ?_).2
  exact ⟨hr.1.step hs, hr.2.step hs hr.1⟩

theorem frontier_of_done {r : Tour} (hr : r.Done) : r.waiting = [] ∧ r.team = [] := by
  cases r with
  | between x g => exact ⟨hr, rfl⟩
  | within => exact hr.elim

/-- The keys of the explored states are those that can be reached. -/
theorem mem_explored_iff (hn : c.Numbered) {r : Tour} (h : Reached c p r) (hr : r.Done)
    (k : StateKey) : k ∈ r.history.explored.map GlobalState.key ↔
      ∃ s, c.Reachable p s ∧ s.key = k := by
  constructor
  · intro hk
    obtain ⟨s, hs, rfl⟩ := List.mem_map.1 hk
    exact ⟨s, (once_of_reached h).reachable s (List.mem_append_left _ hs), rfl⟩
  · rintro ⟨s, hs, rfl⟩
    obtain ⟨u, hu, hkey⟩ := explored_of_reachable hn h hr hs
    exact List.mem_map.2 ⟨u, hu, hkey⟩

/-- Any two tours explore states with the same keys in the same order. -/
theorem explored_unique (hn : c.Numbered) {r r' : Tour} (h : Reached c p r) (hr : r.Done)
    (h' : Reached c p r') (hr' : r'.Done) :
    r.history.explored.map GlobalState.key = r'.history.explored.map GlobalState.key := by
  refine List.Perm.eq_of_pairwise (fun k l _ _ hkl hlk => absurd hlk hkl.asymm)
    (ranked_of_reached h).ordered (ranked_of_reached h').ordered ?_
  refine (List.perm_ext_iff_of_nodup (explored_nodup h) (explored_nodup h')).2 fun k => ?_
  rw [mem_explored_iff hn h hr, mem_explored_iff hn h' hr']

/-- What keys tell of states is the same for two lists of states with the same keys. -/
theorem map_eq_of_keys {α : Type} {f : GlobalState → α} {states states' : List GlobalState}
    (hf : ∀ s ∈ states, ∀ u ∈ states', s.key = u.key → f s = f u)
    (h : states.map GlobalState.key = states'.map GlobalState.key) :
    states.map f = states'.map f := by
  induction states generalizing states' with
  | nil =>
    rw [List.map_nil, eq_comm, List.map_eq_nil_iff] at h
    rw [h]
  | cons s states ih =>
    cases states' with
    | nil => exact absurd h (by simp)
    | cons u states' =>
      obtain ⟨hkey, hrest⟩ := List.cons.inj h
      have hfirst := hf s List.mem_cons_self u List.mem_cons_self hkey
      have htail := ih (fun t ht v hv => hf t (.tail s ht) v (.tail u hv)) hrest
      rw [List.map_cons, List.map_cons, hfirst, htail]

theorem countP_eq_of_keys {q : GlobalState → Bool} {states states' : List GlobalState}
    (hq : ∀ s u : GlobalState, s.key = u.key → q s = q u)
    (h : states.map GlobalState.key = states'.map GlobalState.key) :
    states.countP q = states'.countP q := by
  have hmap := map_eq_of_keys (f := q) (fun s _ u _ => hq s u) h
  have hcount : ∀ states : List GlobalState, states.countP q = (states.map q).countP id := by
    intro states
    rw [List.countP_map, Function.id_comp]
  rw [hcount, hcount, hmap]

def endShape (c : Composition) (s : GlobalState) : GraphShape := (EventGraph.ofState c s).shape

theorem map_endShape (c : Composition) (states : List GlobalState) :
    (states.filter (proper c)).map (endShape c) =
      ((states.map fun s => (proper c s, endShape c s)).filter Prod.fst).map Prod.snd := by
  rw [List.filter_map, List.map_map]
  rfl

theorem levels_le {r r' : Tour} (h : Ranked r) (h' : Ranked r')
    (hkeys : r.history.explored.map GlobalState.key = r'.history.explored.map GlobalState.key) :
    r.exploration.stats.levels ≤ r'.exploration.stats.levels := by
  rcases h.last with hzero | ⟨s, hs, hlast⟩
  · omega
  · obtain ⟨u, hu, hkey⟩ := List.mem_map.1 (hkeys ▸ List.mem_map_of_mem hs)
    have hlevel := GlobalState.level_of_key hkey
    have hlt := h'.explored u hu
    omega

theorem map_shape_found (hn : c.Numbered) {r : Tour} (h : Reached c p r) :
    (r.history.found.map fun t => (t.graph.shape, t.index)) =
      ((r.history.explored.filter (proper c)).map (endShape c)).zipIdx := by
  rw [(counted_of_reached hn h).found, List.map_map, List.zipIdx_map]
  rfl

/-- Any two tours find the same graphs under the same numbers. -/
theorem found_unique (hn : c.Numbered) {r r' : Tour} (h : Reached c p r) (hr : r.Done)
    (h' : Reached c p r') (hr' : r'.Done) :
    (r.history.found.map fun t => (t.graph.shape, t.index)) =
      r'.history.found.map fun t => (t.graph.shape, t.index) := by
  have hmap := map_eq_of_keys (f := fun s => (proper c s, endShape c s)) (fun s _ u hu hkey => ?_)
    (explored_unique hn h hr h' hr')
  · rw [map_shape_found hn h, map_shape_found hn h', map_endShape, map_endShape, hmap]
  · have hreach := (once_of_reached h').reachable u (List.mem_append_left _ hu)
    exact Prod.ext (proper_of_key hkey) (EventGraph.shape_of_key hn hreach hkey)

end Tour
end Exploration
end Consistency
