import Consistency.Proofs.Exploration.Levels
import Consistency.Proofs.Exploration.Ending
import Consistency.Proofs.Exploration.Journey

/-!
# One state after the other

The exploration that expands one state after the other follows one of the
schedules: each worker makes all its turns before the next one begins. It
therefore comes to an end when finitely many keys can be reached.
-/

set_option autoImplicit false

namespace Consistency.Exploration
variable {c : Composition} {p : Precision} {s t : GlobalState} {x : Exploration}

/-- What the workers of `team` found, added to what was known; the frontier is kept backwards. -/
def joined (x : Exploration) (team : List Worker) : Exploration :=
  { x with
    frontier := (team.flatMap Worker.fresh).reverse
    stats := { x.stats with
      duplicates := x.stats.duplicates + (team.map Worker.duplicates).sum
      blocked := x.stats.blocked + team.countP fun w => w.generated == 0 } }

def merged (x : Exploration) (team : List Worker) (w : Worker) : Exploration :=
  let y := x.joined team
  { y with
    frontier := w.fresh.reverse ++ y.frontier
    stats := { y.stats with duplicates := y.stats.duplicates + w.duplicates } }

theorem joined_concat (x : Exploration) (team : List Worker) (w : Worker) :
    x.joined (team ++ [w]) =
      if 0 < w.generated then x.merged team w
      else { x.merged team w with stats := { (x.merged team w).stats with
        blocked := (x.merged team w).stats.blocked + 1 } } := by
  by_cases hpos : 0 < w.generated
  · have hmoved : (w.generated == 0) = false := beq_eq_false_iff_ne.2 (Nat.pos_iff_ne_zero.1 hpos)
    simp [joined, merged, hpos, hmoved, Nat.add_assoc]
  · have hnone : w.generated = 0 := Nat.eq_zero_of_not_pos hpos
    simp [joined, merged, hnone, Nat.add_assoc]

theorem gather_eq (x : Exploration) (team : List Worker) : gather x team =
    { x.joined team with frontier := sortByKey (x.joined team).frontier.reverse } := by
  simp only [gather, joined, List.reverse_reverse]

/-- Steps that follow a fold member by member. `rest` are the members that are left, and `I` holds
between two members. -/
theorem foldl_runs {σ τ α : Type} {R : σ → σ → Prop} (f : τ → α → τ) (view : σ → τ)
    (rest : σ → List α) (I : σ → Prop) {z : σ} (hz : I z)
    (step : ∀ z a as, I z → rest z = a :: as →
      ∃ z', Relation.ReflTransGen R z z' ∧ I z' ∧ rest z' = as ∧ view z' = f (view z) a) :
    ∃ z', Relation.ReflTransGen R z z' ∧ I z' ∧ rest z' = [] ∧
      view z' = (rest z).foldl f (view z) := by
  generalize has : rest z = as
  induction as generalizing z with
  | nil => exact ⟨z, .refl, hz, has, rfl⟩
  | cons a as ih =>
    obtain ⟨z₁, hruns₁, hz₁, hrest₁, hview₁⟩ := step _ a as hz has
    obtain ⟨z₂, hruns₂, hz₂, hrest₂, hview₂⟩ := ih hz₁ hrest₁
    refine ⟨z₂, hruns₁.trans hruns₂, hz₂, hrest₂, ?_⟩
    rw [hview₂, hview₁, List.foldl_cons]

namespace Worker
variable {before : List Worker} {w : Worker}

def Runs (c : Composition) (p : Precision) : Worker × Exploration → Worker × Exploration → Prop :=
  Relation.ReflTransGen fun a b => a.1.Turn c p a.2 b.1 b.2

/-- A worker looks up one successor. -/
theorem record_turn {ts : List GlobalState} (before : List Worker) (x : Exploration)
    (hpending : w.pending = t :: ts) : ∃ w' x', w.Turn c p x w' x' ∧
      w'.pending = ts ∧ w'.actions = w.actions ∧ w'.state = w.state ∧
        w'.generated = w.generated + 1 ∧
          x'.merged before w' = (x.merged before w).record false t := by
  cases hvisit : x.visited.visit t.key with
  | mk isNew v =>
    cases isNew with
    | false =>
      refine ⟨_, _, .meet hpending hvisit, rfl, rfl, rfl, rfl, ?_⟩
      have hsame : (x.merged before w).visited.visit t.key = (false, v) := hvisit
      rw [record, hsame]
      rfl
    | true =>
      refine ⟨_, _, .discover hpending hvisit, rfl, rfl, rfl, rfl, ?_⟩
      have hsame : (x.merged before w).visited.visit t.key = (true, v) := hvisit
      rw [record, hsame]
      simp [merged, joined]

/-- A worker looks up all its successors. -/
theorem record_runs (before : List Worker) (w : Worker) (x : Exploration) :
    ∃ w' x', Runs c p (w, x) (w', x') ∧
      w'.pending = [] ∧ w'.actions = w.actions ∧ w'.state = w.state ∧
        w'.generated = w.generated + w.pending.length ∧
          x'.merged before w' = w.pending.foldl (record false) (x.merged before w) := by
  have hlook := foldl_runs (R := fun a b : Worker × Exploration => a.1.Turn c p a.2 b.1 b.2)
    (record false) (fun z => z.2.merged before z.1) (fun z => z.1.pending)
    (fun z => z.1.actions = w.actions ∧ z.1.state = w.state ∧
      z.1.generated + z.1.pending.length = w.generated + w.pending.length)
    (z := (w, x)) ⟨rfl, rfl, rfl⟩ (by
      rintro ⟨v, y⟩ t ts ⟨hactions, hstate, hgenerated⟩ hrest
      obtain ⟨v', y', hturn, hpending', hactions', hstate', hgenerated', hmerged'⟩ :=
        record_turn (c := c) (p := p) before y hrest
      have hlength : v.pending.length = ts.length + 1 := congrArg List.length hrest
      refine ⟨(v', y'), .single hturn,
        ⟨hactions'.trans hactions, hstate'.trans hstate, ?_⟩, hpending', hmerged'⟩
      simp only [hpending', hgenerated'] at hgenerated ⊢
      omega)
  obtain ⟨⟨w', x'⟩, hruns, ⟨hactions, hstate, hgenerated⟩, hpending, hmerged⟩ := hlook
  have hpending : w'.pending = [] := hpending
  simp only [hpending, List.length_nil, Nat.add_zero] at hgenerated
  exact ⟨w', x', hruns, hpending, hactions, hstate, hgenerated, hmerged⟩

/-- A worker takes one action and looks up what it leads to. -/
theorem act_runs {a : Action} {as : List Action} (before : List Worker) (x : Exploration)
    (hactions : w.actions = a :: as) (hpending : w.pending = []) :
    ∃ w' x', Runs c p (w, x) (w', x') ∧
      w'.pending = [] ∧ w'.actions = as ∧ w'.state = w.state ∧
        (x'.merged before w', decide (0 < w'.generated)) =
          act c p false w.state (x.merged before w, decide (0 < w.generated)) a := by
  obtain ⟨w', x', hruns, hpending', hactions', hstate', hgen, hmerged⟩ :=
    record_runs (c := c) (p := p) before
      { w with actions := as, pending := (c.trans p w.state a x.allocated).1 }
      { x with allocated := (c.trans p w.state a x.allocated).2 }
  refine ⟨w', x', .head (.act hactions hpending) hruns, hpending', hactions', hstate',
    Prod.ext hmerged ?_⟩
  show decide (0 < w'.generated) =
    (decide (0 < w.generated) || !(c.trans p w.state a x.allocated).1.isEmpty)
  rw [hgen]
  cases (c.trans p w.state a x.allocated).1 with
  | nil => simp
  | cons t ts => simp

theorem acts_runs (before : List Worker) (w : Worker) (x : Exploration)
    (hpending : w.pending = []) : ∃ w' x', Runs c p (w, x) (w', x') ∧ w'.Done ∧
      (x'.merged before w', decide (0 < w'.generated)) =
        w.actions.foldl (act c p false w.state) (x.merged before w, decide (0 < w.generated)) := by
  have hacts := foldl_runs (R := fun a b : Worker × Exploration => a.1.Turn c p a.2 b.1 b.2)
    (act c p false w.state) (fun z => (z.2.merged before z.1, decide (0 < z.1.generated)))
    (fun z => z.1.actions) (fun z => z.1.pending = [] ∧ z.1.state = w.state)
    (z := (w, x)) ⟨hpending, rfl⟩ (by
      rintro ⟨v, y⟩ a as ⟨hpending, hstate⟩ hrest
      obtain ⟨v', y', hruns, hpending', hactions', hstate', hmerged'⟩ :=
        act_runs (c := c) (p := p) before y hrest hpending
      exact ⟨(v', y'), hruns, ⟨hpending', hstate'.trans hstate⟩, hactions', hstate ▸ hmerged'⟩)
  obtain ⟨⟨w', x'⟩, hruns, ⟨hpending, -⟩, hactions, hmerged⟩ := hacts
  exact ⟨w', x', hruns, ⟨hactions, hpending⟩, hmerged⟩

/-- A worker that makes all its turns expands its state. -/
theorem expandState_runs (before : List Worker) (s : GlobalState) (x : Exploration) :
    ∃ w x', Runs c p (start c s, x) (w, x') ∧ w.Done ∧
      x'.joined (before ++ [w]) = expandState c p false (x.joined before) s := by
  obtain ⟨w, x', hruns, hdone, hacts⟩ :=
    acts_runs (c := c) (p := p) before (start c s) x rfl
  refine ⟨w, x', hruns, hdone, ?_⟩
  have hfold : (c.enabled s).foldl (act c p false s) (x.joined before, false) =
    (x'.merged before w, decide (0 < w.generated)) := hacts.symm
  rw [expandState, hfold, joined_concat]
  simp only [decide_eq_true_eq]

end Worker

namespace Journey
variable {jobs : Nat}

theorem runs_within (jobs : Nat) {w w' : Worker} {x x' : Exploration} {before : List Worker}
    (hbefore : ∀ v ∈ before, v.Done) (after : List Worker) (g : History)
    (h : Worker.Runs c p (w, x) (w', x')) : Relation.ReflTransGen (Works c p jobs)
      (.plain (.within x (before ++ w :: after) g))
      (.plain (.within x' (before ++ w' :: after) g)) := by
  apply Relation.ReflTransGen.lift (fun z : Worker × Exploration =>
    Journey.plain (.within z.2 (before ++ z.1 :: after) g)) _ _ _ h
  intro a b hturn
  exact Works.turn (.inr hbefore) hturn

/-- The workers that are done come first, so that one job is enough. -/
theorem expandStates_works (jobs : Nat) (states : List GlobalState) (before : List Worker)
    (x : Exploration) (g : History) (hbefore : ∀ w ∈ before, w.Done) : ∃ team x',
      Relation.ReflTransGen (Works c p jobs)
        (.plain (.within x (before ++ states.map (Worker.start c)) g)) (.plain (.within x' team g)) ∧
          (∀ w ∈ team, w.Done) ∧
            x'.joined team = states.foldl (expandState c p false) (x.joined before) := by
  induction states generalizing before x with
  | nil =>
    rw [List.map_nil, List.append_nil]
    exact ⟨before, x, .refl, hbefore, rfl⟩
  | cons s states ih =>
    obtain ⟨w, x₁, hruns, hdone, hjoined⟩ :=
      Worker.expandState_runs (c := c) (p := p) before s x
    have hfirst := runs_within jobs hbefore (states.map (Worker.start c)) g hruns
    obtain ⟨team, x₂, hrest, hteam, hjoined₂⟩ := ih (before ++ [w]) x₁
      (List.forall_mem_append.2 ⟨hbefore, List.forall_mem_singleton.2 hdone⟩)
    rw [List.append_assoc] at hrest
    exact ⟨team, x₂, hfirst.trans hrest, hteam, by rw [hjoined₂, hjoined, List.foldl_cons]⟩

theorem level_works (jobs : Nat) (x : Exploration) (g : History) :
    ∃ number, Relation.ReflTransGen (Works c p jobs)
      (.plain (.within x (x.liveStates.map (Worker.start c)) g))
      (.plain (.between (x.expand c p false) { g with generated := number })) := by
  obtain ⟨team, x', hworks, hdone, hjoined⟩ :=
    expandStates_works (c := c) (p := p) jobs x.liveStates [] x g (by simp)
  refine ⟨g.generated + (team.map Worker.generated).sum, hworks.tail ?_⟩
  have hgather : gather x' team = x.expand c p false := by
    rw [gather_eq, hjoined]
    rfl
  rw [← hgather]
  exact .leave hdone

end Journey

namespace Tour

theorem level_steps {g : History} (hne : x.frontier ≠ []) :
    ∃ number, Relation.ReflTransGen (Step c p) (.between x g)
      (.between ((x.enter c).expand c p false)
        ⟨g.explored ++ x.frontier, g.found ++ x.terminals c, number⟩) := by
  obtain ⟨number, hworks⟩ := Journey.level_works (c := c) (p := p) 1 (x.enter c)
    { g with explored := g.explored ++ x.frontier, found := g.found ++ x.terminals c }
  obtain ⟨r, hr, hsteps⟩ := Journey.tour_of_works hworks
  obtain rfl := Journey.plain.inj hr
  exact ⟨number, .head (.enter hne) hsteps⟩

/-- By induction on the levels that are allowed: more than there are keys are enough. -/
theorem run_reached (hfin : (reachableKeys c p).Finite) {fuel : Nat} {g : History}
    (h : Reached c p (.between x g)) (hfuel : hfin.toFinset.card < fuel + g.explored.length) :
    ∃ r, Reached c p r ∧ r.Done ∧
      run c p false collect fuel x g.found = .ok (some (r.history.found, r.exploration.stats)) := by
  induction fuel generalizing x g with
  | zero =>
    have hlength : g.explored.length ≤ hfin.toFinset.card := length_explored hfin h
    omega
  | succ fuel ih =>
    by_cases hempty : x.frontier = []
    · exact ⟨.between x g, h, hempty, run_end hempty fuel⟩
    · obtain ⟨number, hsteps⟩ := level_steps (c := c) (p := p) (g := g) hempty
      have hpos := List.length_pos_iff.2 hempty
      have hlength : hfin.toFinset.card < fuel + (g.explored ++ x.frontier).length := by
        rw [List.length_append]
        omega
      obtain ⟨r, hr, hdone, hrun⟩ := ih (h.trans hsteps) hlength
      refine ⟨r, hr, hdone, ?_⟩
      rw [run_level (List.isEmpty_eq_false_iff.2 hempty) rfl]
      exact hrun

end Tour
end Consistency.Exploration
