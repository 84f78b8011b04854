import Consistency.Proofs.Exploration.Pruning
import Consistency.Proofs.Exploration.Sequential

/-!
# One state after the other, with subsumption

The exploration that expands one state after the other and leaves out what is
covered follows one of the schedules: each worker makes all its turns before
the next one begins, and compares what it discovers at once.
-/

set_option autoImplicit false

namespace Consistency.Exploration
variable {c : Composition} {p : Precision} {s t : GlobalState} {x : Exploration}

def sifted (x : Exploration) (team : List Pruner) : Exploration :=
  { x with
    frontier := (team.flatMap Pruner.kept).reverse
    stats := { x.stats with
      duplicates := x.stats.duplicates + (team.map fun w => w.duplicates).sum
      subsumed := x.stats.subsumed + (team.map Pruner.subsumed).sum
      blocked := x.stats.blocked + team.countP fun w => w.generated == 0 } }

def blended (x : Exploration) (team : List Pruner) (w : Pruner) : Exploration :=
  let y := x.sifted team
  { y with
    frontier := w.kept.reverse ++ y.frontier
    stats := { y.stats with
      duplicates := y.stats.duplicates + w.duplicates
      subsumed := y.stats.subsumed + w.subsumed } }

theorem sifted_concat (x : Exploration) (team : List Pruner) (w : Pruner) :
    x.sifted (team ++ [w]) =
      if 0 < w.generated then x.blended team w
      else { x.blended team w with stats := { (x.blended team w).stats with
        blocked := (x.blended team w).stats.blocked + 1 } } := by
  by_cases hpos : 0 < w.generated
  · have hmoved : (w.generated == 0) = false := beq_eq_false_iff_ne.2 (Nat.pos_iff_ne_zero.1 hpos)
    simp [sifted, blended, hpos, hmoved, Nat.add_assoc]
  · have hnone : w.generated = 0 := Nat.eq_zero_of_not_pos hpos
    simp [sifted, blended, hnone, Nat.add_assoc]

theorem sift_eq (x : Exploration) (team : List Pruner) : sift x team =
    { x.sifted team with frontier := sortByKey (x.sifted team).frontier.reverse } := by
  simp only [sift, sifted, List.reverse_reverse]

namespace Pruner

def Runs (c : Composition) (p : Precision) : Pruner × Exploration → Pruner × Exploration → Prop :=
  Relation.ReflTransGen fun a b => a.1.Turn c p a.2 b.1 b.2

structure Ready (w : Pruner) (pending : List GlobalState) (w' : Pruner) : Prop where
  pending : w'.pending = pending
  candidate : w'.candidate = none
  actions : w'.actions = w.actions
  state : w'.state = w.state
  generated : w'.generated + w'.pending.length = w.generated + w.pending.length

/-- A worker looks up one successor and, if it is new, compares it. -/
theorem record_runs_cons {w : Pruner} {ts : List GlobalState} (before : List Pruner)
    (x : Exploration) (hpending : w.pending = t :: ts) (hnone : w.candidate = none) :
    ∃ w' x', Runs c p (w, x) (w', x') ∧ w.Ready ts w' ∧
      x'.blended before w' = (x.blended before w).record true t := by
  have hcount : w.generated + 1 + ts.length = w.generated + w.pending.length := by
    rw [hpending, List.length_cons]
    omega
  cases hvisit : x.visited.visit t.key with
  | mk isNew v =>
    have hsame : (x.blended before w).visited.visit t.key = (isNew, v) := hvisit
    cases isNew with
    | false =>
      refine ⟨_, _, .single (.meet hpending hnone hvisit), ⟨rfl, hnone, rfl, rfl, hcount⟩, ?_⟩
      rw [record, hsame]
      rfl
    | true =>
      have hdiscover : Runs c p (w, x) (_, _) :=
        .single (b := (_, _)) (.discover hpending hnone hvisit)
      cases hsubsume : v.subsume t with
      | mk covered v' =>
        cases covered with
        | true =>
          have hruns : Runs c p (w, x)
              ({ w with
                  pending := ts, generated := w.generated + 1, fresh := w.fresh ++ [t],
                  candidate := none, subsumed := w.subsumed + 1 },
                { x with visited := v' }) :=
            hdiscover.tail (.prune rfl hsubsume)
          refine ⟨_, _, hruns, ⟨rfl, rfl, rfl, rfl, hcount⟩, ?_⟩
          simp only [record, hsame, hsubsume]
          rfl
        | false =>
          have hruns : Runs c p (w, x)
              ({ w with
                  pending := ts, generated := w.generated + 1, fresh := w.fresh ++ [t],
                  candidate := none, kept := w.kept ++ [t] },
                { x with visited := v' }) :=
            hdiscover.tail (.keep rfl hsubsume)
          refine ⟨_, _, hruns, ⟨rfl, rfl, rfl, rfl, hcount⟩, ?_⟩
          simp only [record, hsame, hsubsume]
          simp [blended, sifted]

/-- A worker looks up all its successors. -/
theorem record_runs (before : List Pruner) (w : Pruner) (x : Exploration)
    (hnone : w.candidate = none) : ∃ w' x', Runs c p (w, x) (w', x') ∧ w.Ready [] w' ∧
      x'.blended before w' = w.pending.foldl (record true) (x.blended before w) := by
  have hlook := foldl_runs (R := fun a b : Pruner × Exploration => a.1.Turn c p a.2 b.1 b.2)
    (record true) (fun z => z.2.blended before z.1) (fun z => z.1.pending)
    (fun z => w.Ready z.1.pending z.1) (z := (w, x)) ⟨rfl, hnone, rfl, rfl, rfl⟩ (by
      rintro ⟨v, y⟩ t ts hv hrest
      obtain ⟨v', y', hruns, hv', hblended⟩ :=
        record_runs_cons (c := c) (p := p) before y hrest hv.candidate
      refine ⟨(v', y'), hruns, ⟨rfl, hv'.candidate, hv'.actions.trans hv.actions,
        hv'.state.trans hv.state, hv'.generated.trans hv.generated⟩, hv'.pending, hblended⟩)
  obtain ⟨⟨w', x'⟩, hruns, hready, hpending, hblended⟩ := hlook
  refine ⟨w', x', hruns, ?_, hblended⟩
  exact ⟨hpending, hready.candidate, hready.actions, hready.state, hready.generated⟩

/-- A worker takes one action and looks up what it leads to. -/
theorem act_runs {w : Pruner} {a : Action} {as : List Action} (before : List Pruner)
    (x : Exploration) (hactions : w.actions = a :: as) (hpending : w.pending = [])
    (hnone : w.candidate = none) : ∃ w' x', Runs c p (w, x) (w', x') ∧
      (w'.pending = [] ∧ w'.candidate = none ∧ w'.state = w.state) ∧ w'.actions = as ∧
        (x'.blended before w', decide (0 < w'.generated)) =
          act c p true w.state (x.blended before w, decide (0 < w.generated)) a := by
  obtain ⟨w', x', hruns, hready, hblended⟩ := record_runs (c := c) (p := p) before
    { w with actions := as, pending := (c.trans p w.state a x.allocated).1 }
    { x with allocated := (c.trans p w.state a x.allocated).2 } hnone
  have hgenerated : w'.generated =
      w.generated + (c.trans p w.state a x.allocated).1.length := by
    have hcount := hready.generated
    rwa [hready.pending] at hcount
  refine ⟨w', x', .head (.act hactions hpending hnone) hruns,
    ⟨hready.pending, hready.candidate, hready.state⟩, hready.actions, Prod.ext hblended ?_⟩
  show decide (0 < w'.generated) =
    (decide (0 < w.generated) || !(c.trans p w.state a x.allocated).1.isEmpty)
  rw [hgenerated]
  cases (c.trans p w.state a x.allocated).1 with
  | nil => simp
  | cons t ts => simp

/-- A worker that makes all its turns expands its state. -/
theorem expandState_runs (before : List Pruner) (s : GlobalState) (x : Exploration) :
    ∃ w x', Runs c p (start c s, x) (w, x') ∧ w.Done ∧
      x'.sifted (before ++ [w]) = expandState c p true (x.sifted before) s := by
  have hacts := foldl_runs (R := fun a b : Pruner × Exploration => a.1.Turn c p a.2 b.1 b.2)
    (act c p true s) (fun z => (z.2.blended before z.1, decide (0 < z.1.generated)))
    (fun z => z.1.actions)
    (fun z => z.1.pending = [] ∧ z.1.candidate = none ∧ z.1.state = s)
    (z := (start c s, x)) ⟨rfl, rfl, rfl⟩ (by
      rintro ⟨v, y⟩ a as ⟨hpending, hnone, hstate⟩ hrest
      obtain ⟨v', y', hruns, ⟨hpending', hnone', hstate'⟩, hactions', hblended'⟩ :=
        act_runs (c := c) (p := p) before y hrest hpending hnone
      exact ⟨(v', y'), hruns, ⟨hpending', hnone', hstate'.trans hstate⟩, hactions',
        hstate ▸ hblended'⟩)
  obtain ⟨⟨w, x'⟩, hruns, ⟨hpending, hnone, -⟩, hactions, hblended⟩ := hacts
  refine ⟨w, x', hruns, ⟨⟨hactions, hpending⟩, hnone⟩, ?_⟩
  have hfold : (c.enabled s).foldl (act c p true s) (x.sifted before, false) =
    (x'.blended before w, decide (0 < w.generated)) := hblended.symm
  rw [expandState, hfold, sifted_concat]
  simp only [decide_eq_true_eq]

end Pruner

namespace Journey
variable {jobs : Nat}

theorem pruner_runs_within (jobs : Nat) {w w' : Pruner} {x x' : Exploration}
    {before : List Pruner}
    (hbefore : ∀ v ∈ before, v.Done) (after : List Pruner) (g : History)
    (h : Pruner.Runs c p (w, x) (w', x')) : Relation.ReflTransGen (Works c p jobs)
      (.pruning (.within x (before ++ w :: after) g))
      (.pruning (.within x' (before ++ w' :: after) g)) := by
  apply Relation.ReflTransGen.lift (fun z : Pruner × Exploration =>
    Journey.pruning (.within z.2 (before ++ z.1 :: after) g)) _ _ _ h
  intro a b hturn
  exact Works.pruningTurn (.inr hbefore) hturn

/-- The workers that are done come first, so that one job is enough. -/
theorem pruned_expandStates_works (jobs : Nat) (states : List GlobalState)
    (before : List Pruner) (x : Exploration) (g : History) (hbefore : ∀ w ∈ before, w.Done) : ∃ team x',
      Relation.ReflTransGen (Works c p jobs)
        (.pruning (.within x (before ++ states.map (Pruner.start c)) g))
        (.pruning (.within x' team g)) ∧ (∀ w ∈ team, w.Done) ∧
          x'.sifted team = states.foldl (expandState c p true) (x.sifted before) := by
  induction states generalizing before x with
  | nil =>
    rw [List.map_nil, List.append_nil]
    exact ⟨before, x, .refl, hbefore, rfl⟩
  | cons s states ih =>
    obtain ⟨w, x₁, hruns, hdone, hsifted⟩ :=
      Pruner.expandState_runs (c := c) (p := p) before s x
    have hfirst := pruner_runs_within jobs hbefore (states.map (Pruner.start c)) g hruns
    obtain ⟨team, x₂, hrest, hteam, hsifted₂⟩ := ih (before ++ [w]) x₁
      (List.forall_mem_append.2 ⟨hbefore, List.forall_mem_singleton.2 hdone⟩)
    rw [List.append_assoc] at hrest
    exact ⟨team, x₂, hfirst.trans hrest, hteam, by rw [hsifted₂, hsifted, List.foldl_cons]⟩

theorem pruned_level_works (jobs : Nat) (x : Exploration) (g : History) :
    ∃ number, Relation.ReflTransGen (Works c p jobs)
      (.pruning (.within x (x.liveStates.map (Pruner.start c)) g))
      (.pruning (.between (x.expand c p true) { g with generated := number })) := by
  obtain ⟨team, x', hworks, hdone, hsifted⟩ :=
    pruned_expandStates_works (c := c) (p := p) jobs x.liveStates [] x g (by simp)
  refine ⟨g.generated + (team.map fun w => w.generated).sum, hworks.tail ?_⟩
  have hsift : sift x' team = x.expand c p true := by
    rw [sift_eq, hsifted]
    rfl
  rw [← hsift]
  exact .pruningLeave hdone

end Journey

namespace Sweep

theorem level_steps {g : History} (hne : x.frontier ≠ []) :
    ∃ number, Relation.ReflTransGen (Step c p) (.between x g)
      (.between ((x.enter c).expand c p true)
        ⟨g.explored ++ x.frontier, g.found ++ x.terminals c, number⟩) := by
  obtain ⟨number, hworks⟩ := Journey.pruned_level_works (c := c) (p := p) 1 (x.enter c)
    { g with explored := g.explored ++ x.frontier, found := g.found ++ x.terminals c }
  obtain ⟨r, hr, hsteps⟩ := Journey.sweep_of_works hworks
  obtain rfl := Journey.pruning.inj hr
  exact ⟨number, .head (.enter hne) hsteps⟩

end Sweep
end Consistency.Exploration
