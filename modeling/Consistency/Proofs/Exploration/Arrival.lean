import Mathlib.Logic.Relator
import Consistency.Proofs.Exploration.Independence
import Consistency.Proofs.Exploration.Lossless

/-!
# What journeys arrive at

Every journey can be continued until it is done, and on the way what is found is
only added to and no counter goes back. The graphs found are those of proper
ends that can be reached. A journey that is done has left out no successor of an
explored state, so that for each graph that any journey finds it has found one
that demands no more. Without subsumption, or with a single job, all journeys
that are done have found the same.
-/

set_option autoImplicit false

namespace Consistency

structure Stats.AtMost (a b : Stats) : Prop where
  states : a.states ≤ b.states
  terminals : a.terminals ≤ b.terminals
  queried : a.queried ≤ b.queried
  subsumed : a.subsumed ≤ b.subsumed
  duplicates : a.duplicates ≤ b.duplicates
  blocked : a.blocked ≤ b.blocked
  levels : a.levels ≤ b.levels

namespace Stats
variable {a b d : Stats}

theorem AtMost.refl (a : Stats) : a.AtMost a :=
  ⟨le_rfl, le_rfl, le_rfl, le_rfl, le_rfl, le_rfl, le_rfl⟩

theorem AtMost.trans (h : a.AtMost b) (h' : b.AtMost d) : a.AtMost d :=
  ⟨h.states.trans h'.states, h.terminals.trans h'.terminals, h.queried.trans h'.queried,
    h.subsumed.trans h'.subsumed, h.duplicates.trans h'.duplicates, h.blocked.trans h'.blocked,
    h.levels.trans h'.levels⟩

end Stats

theorem GraphShape.Relaxes.refl (g : GraphShape) : g.Relaxes g :=
  ⟨rfl, rfl, rfl, fun _ h => h⟩

namespace Exploration
variable {c : Composition} {p : Precision} {jobs : Nat} {subsumption late : Bool}

theorem enter_atMost (c : Composition) (x : Exploration) : x.stats.AtMost (x.enter c).stats :=
  ⟨Nat.le_add_right _ _, Nat.le_add_right _ _, le_rfl, le_rfl, le_rfl, Nat.le_add_right _ _,
    Nat.le_add_right _ _⟩

theorem gather_atMost (x : Exploration) (team : List Worker) :
    x.stats.AtMost (gather x team).stats :=
  ⟨le_rfl, le_rfl, le_rfl, le_rfl, Nat.le_add_right _ _, Nat.le_add_right _ _, le_rfl⟩

theorem sift_atMost (x : Exploration) (team : List Pruner) : x.stats.AtMost (sift x team).stats :=
  ⟨le_rfl, le_rfl, le_rfl, Nat.le_add_right _ _, Nat.le_add_right _ _, Nat.le_add_right _ _,
    le_rfl⟩

/-- The first member of a list that fails. -/
theorem exists_first {α : Type} {P : α → Prop} {as : List α} (h : ¬ ∀ a ∈ as, P a) :
    ∃ before a after, as = before ++ a :: after ∧ (∀ b ∈ before, P b) ∧ ¬ P a := by
  induction as with
  | nil => exact absurd (List.forall_mem_nil P) h
  | cons a as ih =>
    by_cases ha : P a
    · have hrest : ¬ ∀ b ∈ as, P b := fun hall => h (List.forall_mem_cons.2 ⟨ha, hall⟩)
      obtain ⟨before, b, after, rfl, hbefore, hb⟩ := ih hrest
      exact ⟨a :: before, b, after, rfl, List.forall_mem_cons.2 ⟨ha, hbefore⟩, hb⟩
    · exact ⟨[], a, as, rfl, List.forall_mem_nil P, ha⟩

theorem first_unique {α : Type} {P : α → Prop} {before before' after after' : List α} {a a' : α}
    (hbefore : ∀ b ∈ before, P b) (ha : ¬ P a) (hbefore' : ∀ b ∈ before', P b) (ha' : ¬ P a')
    (h : before ++ a :: after = before' ++ a' :: after') :
    before = before' ∧ a = a' ∧ after = after' := by
  induction before generalizing before' with
  | nil =>
    cases before' with
    | nil => exact ⟨rfl, List.cons.inj h⟩
    | cons b bs =>
      obtain ⟨rfl, -⟩ := List.cons.inj h
      exact absurd (hbefore' a List.mem_cons_self) ha
  | cons b bs ih =>
    cases before' with
    | nil =>
      obtain ⟨rfl, -⟩ := List.cons.inj h
      exact absurd (hbefore b List.mem_cons_self) ha'
    | cons b' bs' =>
      obtain ⟨rfl, htail⟩ := List.cons.inj h
      obtain ⟨rfl, hsame⟩ := ih (List.forall_mem_cons.1 hbefore).2
        (List.forall_mem_cons.1 hbefore').2 htail
      exact ⟨rfl, hsame⟩

namespace Pruner
variable {w w' w'' : Pruner} {x x' x'' : Exploration}

theorem Turn.not_done (h : w.Turn c p x w' x') : ¬ w.Done := by
  rintro ⟨⟨hactions, hpending⟩, hnone⟩
  cases h <;> simp_all

theorem Turn.unique (h : w.Turn c p x w' x') (h' : w.Turn c p x w'' x'') :
    w' = w'' ∧ x' = x'' :=
  Prod.mk.inj (Option.some.inj ((next_of_turn h).symm.trans (next_of_turn h')))

end Pruner

namespace Sweep

/-- The first worker that can make a turn makes it, or the last. -/
def turn? (c : Composition) (p : Precision) (late : Bool) (x : Exploration) :
    List Pruner → Option (Exploration × List Pruner)
  | [] => none
  | w :: ws =>
    let own := (w.next c p x).map fun (w', y) => (y, w' :: ws)
    let rest := (turn? c p late x ws).map fun (y, ws') => (y, w :: ws')
    if late then rest.or own else own.or rest

def advance (c : Composition) (p : Precision) (late : Bool) : Sweep → Sweep
  | .between x h =>
    if x.frontier = [] then .between x h
    else .within (x.enter c) (x.liveStates.map (Pruner.start c))
      { h with explored := h.explored ++ x.frontier, found := h.found ++ x.terminals c }
  | .within x team h => match turn? c p late x team with
    | some (y, team') => .within y team' h
    | none => .between (sift x team)
      { h with generated := h.generated + (team.map fun w => w.generated).sum }

theorem turn?_eq_some {x y : Exploration} {team team' : List Pruner}
    (h : turn? c p late x team = some (y, team')) : ∃ before w w' after,
      team = before ++ w :: after ∧ team' = before ++ w' :: after ∧ w.Turn c p x w' y := by
  induction team generalizing team' with
  | nil => exact absurd h (by simp [turn?])
  | cons w ws ih =>
    have hcases : (w.next c p x).map (fun (w', y) => (y, w' :: ws)) = some (y, team') ∨
        (turn? c p late x ws).map (fun (y, ws') => (y, w :: ws')) = some (y, team') := by
      rw [turn?] at h
      cases late with
      | true => exact ((Option.or_eq_some_iff).1 h).symm.imp And.right id
      | false => exact ((Option.or_eq_some_iff).1 h).imp id And.right
    rcases hcases with hown | hrest
    · obtain ⟨⟨w', y'⟩, hnext, heq⟩ := Option.map_eq_some_iff.1 hown
      obtain ⟨rfl, rfl⟩ := Prod.mk.inj heq
      exact ⟨[], w, w', ws, rfl, rfl, Pruner.turn_of_next hnext⟩
    · obtain ⟨⟨y', ws'⟩, hturn, heq⟩ := Option.map_eq_some_iff.1 hrest
      obtain ⟨rfl, rfl⟩ := Prod.mk.inj heq
      obtain ⟨before, v, v', after, rfl, rfl, hv⟩ := ih hturn
      exact ⟨w :: before, v, v', after, rfl, rfl, hv⟩

theorem turn?_eq_none {x : Exploration} {team : List Pruner} (h : turn? c p late x team = none) :
    ∀ w ∈ team, w.Done := by
  induction team with
  | nil => exact fun w hw => absurd hw List.not_mem_nil
  | cons w ws ih =>
    have hboth : (w.next c p x) = none ∧ turn? c p late x ws = none := by
      rw [turn?] at h
      cases late <;> simpa [Option.or_eq_none_iff, and_comm] using h
    refine List.forall_mem_cons.2 ⟨?_, ih hboth.2⟩
    by_contra hdone
    obtain ⟨w', y, hturn⟩ := Pruner.exists_turn x hdone
    exact absurd ((Pruner.next_of_turn hturn).symm.trans hboth.1) (by simp)

end Sweep

namespace Journey
variable {j j' k k' : Journey} {s : GlobalState} {t : TerminalGraph}

theorem exists_step (h : ¬ j.Done) : ∃ j', Step c p jobs j j' := by
  rcases j with (⟨x, g⟩ | ⟨x, team, g⟩) | (⟨x, g⟩ | ⟨x, team, g⟩)
  · exact ⟨_, .inl (.plain h)⟩
  · by_cases hall : ∀ w ∈ team, w.Done
    · exact ⟨_, .inr (.leave hall)⟩
    · obtain ⟨before, w, after, rfl, hbefore, hw⟩ := exists_first hall
      obtain ⟨w', x', hturn⟩ := Worker.exists_turn (c := c) (p := p) x hw
      exact ⟨_, .inr (.turn (.inr hbefore) hturn)⟩
  · exact ⟨_, .inl (.pruning h)⟩
  · by_cases hall : ∀ w ∈ team, w.Done
    · exact ⟨_, .inr (.pruningLeave hall)⟩
    · obtain ⟨before, w, after, rfl, hbefore, hw⟩ := exists_first hall
      obtain ⟨w', x', hturn⟩ := Pruner.exists_turn (c := c) (p := p) x hw
      exact ⟨_, .inr (.pruningTurn (.inr hbefore) hturn)⟩

theorem Step.not_done (h : Step c p jobs j j') : ¬ j.Done := by
  rcases h with h | h
  · cases h with
    | plain hne => exact hne
    | pruning hne => exact hne
  · cases h <;> exact id

def rest (c : Composition) (p : Precision) (total : Nat) : Journey → Nat × Nat
  | .plain r => r.rest c p total
  | .pruning r => r.rest c p total

/-- By induction on what is left, all journeys end. -/
theorem acc_of_reached (hfin : (reachableKeys c p).Finite) (h : Reached c p jobs subsumption j) :
    Acc (fun j' j => Step c p jobs j j') j := by
  refine acc_of_rest (I := Reached c p jobs subsumption) (rest c p hfin.toFinset.card)
    (fun _ _ hs hr => Relation.ReflTransGen.tail hr hs) (fun a b hs hb => ?_) h
  obtain ⟨r, r', rfl, rfl, hstep⟩ | ⟨r, r', rfl, rfl, hstep⟩ := hs.cases
  · obtain ⟨-, q, hq, hreached⟩ | ⟨-, q, hq, -⟩ := reached_cases hb
    · obtain rfl := Journey.plain.inj hq
      exact Tour.step_rest (Tour.length_explored hfin hreached) hstep
    · exact absurd hq (by simp)
  · obtain ⟨-, q, hq, -⟩ | ⟨-, q, hq, hreached⟩ := reached_cases hb
    · exact absurd hq (by simp)
    · obtain rfl := Journey.pruning.inj hq
      exact Sweep.step_rest (Sweep.length_explored hfin hreached) hstep

theorem acc_of_start (hfin : (reachableKeys c p).Finite) (jobs : Nat) (subsumption : Bool) :
    Acc (fun j' j => Step c p jobs j j') (start c subsumption) :=
  acc_of_reached hfin (.refl : Reached c p jobs subsumption _)

theorem exists_done (hfin : (reachableKeys c p).Finite) (h : Reached c p jobs subsumption j) :
    ∃ j', Relation.ReflTransGen (Step c p jobs) j j' ∧ j'.Done := by
  have hacc := acc_of_reached hfin h
  induction hacc with
  | intro j _ ih =>
    by_cases hdone : j.Done
    · exact ⟨j, .refl, hdone⟩
    · obtain ⟨j₁, hstep⟩ : ∃ j₁, Step c p jobs j j₁ := exists_step hdone
      obtain ⟨j', hsteps, hdone'⟩ := ih j₁ hstep (h.tail hstep)
      exact ⟨j', .head hstep hsteps, hdone'⟩

theorem exists_whole (hfin : (reachableKeys c p).Finite) (jobs : Nat) (subsumption : Bool) :
    ∃ j, Reached c p jobs subsumption j ∧ j.Done :=
  exists_done hfin .refl

theorem Works.found (h : Works c p jobs j j') : j'.history.found = j.history.found := by
  cases h <;> rfl

theorem Works.atMost (h : Works c p jobs j j') :
    j.exploration.stats.AtMost j'.exploration.stats := by
  cases h with
  | turn hfree hturn =>
    have hstats := hturn.frame.1
    simp only [exploration, Tour.exploration, hstats]
    exact .refl _
  | leave hdone => exact gather_atMost _ _
  | pruningTurn hfree hturn =>
    have hstats := hturn.stats
    simp only [exploration, Sweep.exploration, hstats]
    exact .refl _
  | pruningLeave hdone => exact sift_atMost _ _

theorem Enters.found (h : Enters c j j') :
    j'.history.found = j.history.found ++ j.exploration.terminals c := by
  cases h <;> rfl

theorem Enters.exploration (h : Enters c j j') : j'.exploration = j.exploration.enter c := by
  cases h <;> rfl

theorem Step.onward (h : Step c p jobs j j') : j.history.found <+: j'.history.found ∧
    j.exploration.stats.AtMost j'.exploration.stats := by
  rcases h with h | h
  · rw [h.found, h.exploration]
    exact ⟨List.prefix_append _ _, enter_atMost c _⟩
  · rw [h.found]
    exact ⟨List.prefix_rfl, h.atMost⟩

theorem onward_of_steps (h : Relation.ReflTransGen (Step c p jobs) j j') :
    j.history.found <+: j'.history.found ∧
      j.exploration.stats.AtMost j'.exploration.stats := by
  induction h with
  | refl => exact ⟨List.prefix_rfl, .refl _⟩
  | tail _ hs ih => exact ⟨ih.1.trans hs.onward.1, ih.2.trans hs.onward.2⟩

theorem listed_of_reached (hn : c.Numbered) (h : Reached c p jobs subsumption j) :
    j.exploration.stats.terminals = j.history.explored.countP (proper c) ∧
      j.history.found = (j.history.explored.filter (proper c)).zipIdx.map fun (s, i) =>
        ⟨i, .ofState c s⟩ := by
  obtain ⟨-, r, rfl, hr⟩ | ⟨-, r, rfl, hr⟩ := reached_cases h
  · have hcounted := Tour.counted_of_reached hn hr
    exact ⟨hcounted.terminals, hcounted.found⟩
  · have hlisted := Sweep.listed_of_reached hr
    exact ⟨hlisted.terminals, hlisted.found⟩

theorem indices_of_reached (hn : c.Numbered) (h : Reached c p jobs subsumption j) :
    j.history.found.map TerminalGraph.index = List.range j.exploration.stats.terminals := by
  obtain ⟨hterminals, hfound⟩ := listed_of_reached hn h
  rw [hfound, hterminals, List.countP_eq_length_filter, List.map_map, List.range_eq_range']
  exact List.zipIdx_map_snd 0 _

theorem explored_reachable (h : Reached c p jobs subsumption j) :
    ∀ s ∈ j.history.explored, c.Reachable p s := by
  obtain ⟨-, r, rfl, hr⟩ | ⟨-, r, rfl, hr⟩ := reached_cases h
  · exact fun s hs => (Tour.once_of_reached hr).reachable s (List.mem_append_left _ hs)
  · exact fun s hs => (Sweep.sound_of_reached hr).reachable s (Sweep.explored_subset r hs)

/-- Each graph that is found is that of a proper end that can be reached. -/
theorem exists_end (hn : c.Numbered) (h : Reached c p jobs subsumption j)
    (ht : t ∈ j.history.found) : ∃ s, c.Reachable p s ∧ proper c s = true ∧
      t.graph = .ofState c s := by
  obtain ⟨s, hs, hproper, hgraph⟩ :=
    (Sweep.mem_found (listed_of_reached hn h).2 t.graph).1 ⟨t, ht, rfl⟩
  exact ⟨s, explored_reachable h s hs, hproper, hgraph.symm⟩

theorem tour_successors {r : Tour} (hr : Tour.Reached c p r) (hdone : (Journey.plain r).Done)
    (hs : s ∈ r.history.explored) (hlive : s.isTerminal = false) {a : Action}
    (ha : a ∈ c.enabled s) : ∃ number, ∀ t ∈ (c.trans p s a number).1,
      ∃ u ∈ r.history.explored, t.Under u := by
  cases r with
  | within => exact hdone.elim
  | between x g =>
    have honce := Tour.once_of_reached hr
    have hmet : (Tour.between x g).met = g.explored := by
      rw [Tour.met, Tour.waiting, show x.frontier = [] from hdone, List.append_nil]
      rfl
    obtain ⟨w, hw, -⟩ | ⟨number, hnumber⟩ := Tour.closed_of_reached hr s hs hlive a ha
    · exact absurd hw List.not_mem_nil
    · refine ⟨number, fun t ht => ?_⟩
      obtain ⟨w, hw, -⟩ | hvisited := hnumber t ht
      · exact absurd hw List.not_mem_nil
      · obtain ⟨u, hu, hkey⟩ := List.mem_map.1 ((honce.visited t.key).1 hvisited)
        exact ⟨u, hmet ▸ hu, GlobalState.under_of_key hkey.symm⟩

theorem sweep_successors {r : Sweep} (hr : Sweep.Reached c p r) (hdone : (Journey.pruning r).Done)
    (hs : s ∈ r.history.explored) (hlive : s.isTerminal = false) {a : Action}
    (ha : a ∈ c.enabled s) : ∃ number, ∀ t ∈ (c.trans p s a number).1,
      ∃ u ∈ r.history.explored, t.Under u := by
  cases r with
  | within => exact hdone.elim
  | between x g =>
    have hheld : (Sweep.between x g).held = g.explored := by
      rw [Sweep.held, show x.frontier = [] from hdone, List.append_nil]
    obtain ⟨w, hw, -⟩ | ⟨number, hnumber⟩ := Sweep.closed_of_reached hr s hs hlive a ha
    · exact absurd hw List.not_mem_nil
    · refine ⟨number, fun t ht => ?_⟩
      obtain ⟨w, hw, -⟩ | hvisited := hnumber t ht
      · exact absurd hw List.not_mem_nil
      · obtain ⟨u, hu, htu⟩ := (Sweep.sound_of_reached hr).under t hvisited
        exact ⟨u, hheld ▸ hu, htu⟩

/-- Whatever an explored state leads to lies under an explored state. -/
theorem successors_explored (h : Reached c p jobs subsumption j) (hdone : j.Done)
    (hs : s ∈ j.history.explored) (hlive : s.isTerminal = false) {a : Action}
    (ha : a ∈ c.enabled s) : ∃ number, ∀ t ∈ (c.trans p s a number).1,
      ∃ u ∈ j.history.explored, t.Under u := by
  obtain ⟨-, r, rfl, hr⟩ | ⟨-, r, rfl, hr⟩ := reached_cases h
  · exact tour_successors hr hdone hs hlive ha
  · exact sweep_successors hr hdone hs hlive ha

theorem init_explored (h : Reached c p jobs subsumption j) (hdone : j.Done) :
    (c.init 0).1 ∈ j.history.explored := by
  obtain ⟨-, r, rfl, hr⟩ | ⟨-, r, rfl, hr⟩ := reached_cases h
  · have horigin := (Tour.once_of_reached hr).origin
    rwa [Tour.met, (Tour.frontier_of_done hdone).1, List.append_nil] at horigin
  · cases r with
    | within => exact hdone.elim
    | between x g =>
      have horigin := (Sweep.sound_of_reached hr).origin
      rwa [Sweep.met, show x.frontier = [] from hdone, List.append_nil] at horigin

theorem explored_of_done (hn : c.Numbered) (h : Reached c p jobs subsumption j) (hdone : j.Done)
    (hs : s ∈ j.history.explored) :
    Explored c p (· ∈ j.history.found) (· ∈ j.history.explored) s where
  reachable := explored_reachable h s hs
  successors := fun hlive _ ha => successors_explored h hdone hs hlive ha
  asked := by
    intro hterminal hfinal
    have hproper : proper c s = true := by rw [proper, hterminal, hfinal, Bool.and_self]
    obtain ⟨t, ht, hgraph⟩ := (Sweep.mem_found (listed_of_reached hn h).2 _).2 ⟨s, hs, hproper, rfl⟩
    exact ⟨t.index, hgraph ▸ ht⟩

/-- For each graph that a journey finds, one that demands no more is found by any journey that is
done. -/
theorem exists_relaxing (hn : c.Numbered) (h : Reached c p jobs subsumption j) (hdone : j.Done)
    {jobs' : Nat} {subsumption' : Bool} (h' : Reached c p jobs' subsumption' j')
    (ht : t ∈ j'.history.found) :
    ∃ u ∈ j.history.found, u.graph.shape.Relaxes t.graph.shape := by
  obtain ⟨s, hs, hproper, hgraph⟩ := exists_end hn h' ht
  rw [hgraph]
  obtain ⟨-, r, rfl, hr⟩ | ⟨-, r, rfl, hr⟩ := reached_cases h
  · obtain ⟨u, hu, hkey⟩ := Tour.explored_of_reachable hn hr hdone hs
    obtain ⟨t', ht', hgraph'⟩ := (Sweep.mem_found (listed_of_reached hn h).2 _).2
      ⟨u, hu, (proper_of_key hkey).trans hproper, rfl⟩
    refine ⟨t', ht', ?_⟩
    rw [hgraph', EventGraph.shape_of_key hn hs hkey]
    exact .refl _
  · exact Sweep.exists_relaxing hn hr hdone hs hproper

/-- What is found with subsumption is found without it. -/
theorem exists_found (hn : c.Numbered) {jobs' : Nat} (h : Reached c p jobs true j)
    (h' : Reached c p jobs' false j') (hdone' : j'.Done) (ht : t ∈ j.history.found) :
    ∃ u ∈ j'.history.found, t.graph.shape = u.graph.shape := by
  obtain ⟨hno, -⟩ | ⟨-, r, rfl, hr⟩ := reached_cases h
  · exact absurd hno (by decide)
  · obtain ⟨-, q, rfl, hq⟩ | ⟨hno, -⟩ := reached_cases h'
    · exact Sweep.exists_found hn hr hq hdone' ht
    · exact absurd hno (by decide)

/-- With subsumption a single job has one way to go on. -/
theorem sweep_unique (hjobs : jobs ≤ 1) :
    Relator.RightUnique fun r r' : Sweep => Step c p jobs (.pruning r) (.pruning r') := by
  have hfirst : ∀ {P : Prop}, 1 < jobs ∨ P → P := fun h => h.resolve_left (by omega)
  intro r r₁ r₂ h₁ h₂
  cases r with
  | between x g =>
    rcases h₁ with h₁ | h₁
    · cases h₁
      rcases h₂ with h₂ | h₂ <;> cases h₂
      rfl
    · cases h₁
  | within x team g =>
    replace h₁ := h₁.resolve_left fun h => by cases h
    replace h₂ := h₂.resolve_left fun h => by cases h
    generalize hteam : team = team' at h₂
    cases h₁ with
    | pruningTurn hfree hturn =>
      cases h₂ with
      | pruningTurn hfree' hturn' =>
        obtain ⟨rfl, rfl, rfl⟩ := first_unique (hfirst hfree) hturn.not_done (hfirst hfree')
          hturn'.not_done hteam
        obtain ⟨rfl, rfl⟩ := hturn.unique hturn'
        rfl
      | pruningLeave hdone =>
        subst hteam
        exact absurd (hdone _ (List.mem_append_right _ List.mem_cons_self)) hturn.not_done
    | pruningLeave hdone =>
      cases h₂ with
      | pruningTurn hfree hturn =>
        subst hteam
        exact absurd (hdone _ (List.mem_append_right _ List.mem_cons_self)) hturn.not_done
      | pruningLeave => rw [hteam]

theorem pruning_of_steps {r : Sweep} (h : Relation.ReflTransGen (Step c p jobs) (.pruning r) j) :
    ∃ r', j = .pruning r' ∧ Relation.ReflTransGen
      (fun r r' : Sweep => Step c p jobs (.pruning r) (.pruning r')) r r' := by
  induction h with
  | refl => exact ⟨r, rfl, .refl⟩
  | tail _ hs ih =>
    obtain ⟨r₁, rfl, hsteps⟩ := ih
    obtain ⟨q, q', hq, -, -⟩ | ⟨q, q', -, rfl, -⟩ := hs.cases
    · exact absurd hq (by simp)
    · exact ⟨q', rfl, hsteps.tail hs⟩

theorem done_unique (hjobs : jobs ≤ 1) (h : Reached c p jobs true j) (hdone : j.Done)
    (h' : Reached c p jobs true j') (hdone' : j'.Done) : j = j' := by
  have hend : ∀ {q q' : Sweep}, q.Done → Relation.ReflTransGen
      (fun r r' : Sweep => Step c p jobs (.pruning r) (.pruning r')) q q' → q = q' := by
    intro q q' hq hsteps
    rcases Relation.ReflTransGen.cases_head hsteps with heq | ⟨_, hstep, -⟩
    · exact heq
    · exact absurd hq hstep.not_done
  obtain ⟨r, rfl, hsteps⟩ := pruning_of_steps h
  obtain ⟨r', rfl, hsteps'⟩ := pruning_of_steps h'
  rcases Relation.ReflTransGen.total_of_right_unique (sweep_unique hjobs) hsteps hsteps' with
    hrest | hrest
  · rw [hend hdone hrest]
  · rw [hend hdone' hrest]

/-- Without subsumption the graphs that are found may differ in the identities of their events. -/
theorem found_settled (hn : c.Numbered) (hsettled : subsumption = false ∨ jobs ≤ 1)
    (h : Reached c p jobs subsumption j) (hdone : j.Done)
    (h' : Reached c p jobs subsumption j') (hdone' : j'.Done) :
    (j.history.found.map fun t => (t.graph.shape, t.index)) =
      (j'.history.found.map fun t => (t.graph.shape, t.index)) ∧
        j.exploration.stats = j'.exploration.stats := by
  obtain ⟨rfl, r, rfl, hr⟩ | ⟨rfl, -⟩ := reached_cases h
  · obtain ⟨-, r', rfl, hr'⟩ | ⟨hno, -⟩ := reached_cases h'
    · exact ⟨Tour.found_unique hn hr hdone hr' hdone', Tour.stats_unique hn hr hdone hr' hdone'⟩
    · exact absurd hno (by decide)
  · obtain rfl := done_unique (hsettled.resolve_left (by decide)) h hdone h' hdone'
    exact ⟨rfl, rfl⟩

theorem reached_advance (hjobs : 1 < jobs) (late : Bool) {r : Sweep}
    (h : Reached c p jobs true (.pruning r)) :
    Reached c p jobs true (.pruning (r.advance c p late)) := by
  cases r with
  | between x g =>
    rw [Sweep.advance]
    split
    · exact h
    · next hne => exact h.tail (.inl (.pruning hne))
  | within x team g =>
    rw [Sweep.advance]
    split
    · next y team' hturn =>
      obtain ⟨before, w, w', after, rfl, rfl, hw⟩ := Sweep.turn?_eq_some hturn
      exact h.tail (.inr (.pruningTurn (.inl hjobs) hw))
    · next hnone => exact h.tail (.inr (.pruningLeave (Sweep.turn?_eq_none hnone)))

theorem reached_iterate (hjobs : 1 < jobs) (late : Bool) (n : Nat) :
    Reached c p jobs true (.pruning ((Sweep.advance c p late)^[n] (.start c))) := by
  induction n with
  | zero => exact .refl
  | succ n ih =>
    rw [Function.iterate_succ_apply']
    exact reached_advance hjobs late ih

/-- Two ways, one of which tests what was loaded, lead to one place. -/
def rejoining : List Automaton :=
  [((Automaton.straightLine "P" [.load "r" "x", .skip, .skip, .store "x" (.int 1)]).extend 1
    (.assume (.eq (.const "r") (.int 0)))).connect 5 3 .skip]

/-- Two jobs expand the states of a level, the second waits for the first or goes ahead. -/
def racing (late : Bool) : Sweep :=
  (Sweep.advance (.ofAutomata rejoining []) .default late)^[31] (.start (.ofAutomata rejoining []))

set_option maxRecDepth 20000 in
theorem racing_done : (racing false).Done ∧ (racing true).Done := by
  constructor <;> cbv

set_option maxRecDepth 20000 in
theorem racing_found : (racing false).history.found.map (fun t => t.graph.constraints) = [[]] ∧
    (racing true).history.found.map (fun t => t.graph.constraints) =
      [[], [.eq (.const "rv_t0_0") (.int 0)]] := by
  constructor <;> cbv

/-- With subsumption, two jobs may find one graph or two. -/
theorem found_unsettled : ∃ j j',
    Reached (.ofAutomata rejoining []) .default 2 true j ∧ j.Done ∧
    Reached (.ofAutomata rejoining []) .default 2 true j' ∧ j'.Done ∧
    (∀ t ∈ j.history.found, t.graph.constraints = []) ∧
    (∃ t ∈ j'.history.found, t.graph.constraints ≠ []) ∧
      j.history.found.length = 1 ∧ j'.history.found.length = 2 := by
  obtain ⟨hfirst, hlast⟩ := racing_found
  refine ⟨.pruning (racing false), .pruning (racing true), reached_iterate (by decide) false 31,
    racing_done.1, reached_iterate (by decide) true 31, racing_done.2, fun t ht => ?_, ?_, ?_, ?_⟩
  · exact List.mem_singleton.1 (hfirst ▸ List.mem_map_of_mem ht)
  · have hmem : [.eq (.const "rv_t0_0") (.int 0)] ∈
        (racing true).history.found.map fun t => t.graph.constraints := by
      rw [hlast]
      exact List.mem_cons_of_mem _ List.mem_cons_self
    obtain ⟨t, ht, hconstraints⟩ := List.mem_map.1 hmem
    exact ⟨t, ht, by simp [hconstraints]⟩
  · exact (List.length_map _).symm.trans (congrArg List.length hfirst)
  · exact (List.length_map _).symm.trans (congrArg List.length hlast)

def between (x : Exploration) (g : History) : Bool → Journey
  | false => .plain (.between x g)
  | true => .pruning (.between x g)

theorem start_eq (c : Composition) (subsumption : Bool) :
    start c subsumption = between (.start c) ⟨[], [], 0⟩ subsumption := by
  cases subsumption <;> rfl

theorem done_between {x : Exploration} {g : History} :
    (between x g subsumption).Done ↔ x.frontier = [] := by
  cases subsumption <;> exact Iff.rfl

theorem exploration_between {x : Exploration} {g : History} :
    (between x g subsumption).exploration = x := by
  cases subsumption <;> rfl

/-- Any number of jobs can expand the states of a level one after the other. -/
theorem level_leads (p : Precision) (jobs : Nat) (subsumption : Bool) {x : Exploration}
    (g : History) (hne : x.frontier ≠ []) : ∃ j g', Enters c (between x g subsumption) j ∧
      Relation.ReflTransGen (Works c p jobs) j
        (between ((x.enter c).expand c p subsumption) g' subsumption) := by
  cases subsumption with
  | false =>
    obtain ⟨number, hworks⟩ := level_works (c := c) (p := p) jobs (x.enter c)
      { g with explored := g.explored ++ x.frontier, found := g.found ++ x.terminals c }
    exact ⟨_, _, .plain hne, hworks⟩
  | true =>
    obtain ⟨number, hworks⟩ := pruned_level_works (c := c) (p := p) jobs (x.enter c)
      { g with explored := g.explored ++ x.frontier, found := g.found ++ x.terminals c }
    exact ⟨_, _, .pruning hne, hworks⟩

end Journey
end Exploration
end Consistency
