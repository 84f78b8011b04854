import Consistency.Proofs.Exploration.Pruning

/-!
# Journeys

An exploration with a number of jobs, with or without subsumption. A single job
expands the states of a level one after the other, several jobs take turns in
any order.
-/

set_option autoImplicit false

namespace Consistency.Exploration
variable {c : Composition} {p : Precision} {jobs : Nat} {subsumption : Bool}

def Pruner.next (c : Composition) (p : Precision) (w : Pruner) (x : Exploration) :
    Option (Pruner × Exploration) :=
  match w.candidate, w.pending, w.actions with
  | some t, _, _ => match x.visited.subsume t with
    | (true, v) => some ({ w with candidate := none, subsumed := w.subsumed + 1 },
        { x with visited := v })
    | (false, v) => some ({ w with candidate := none, kept := w.kept ++ [t] },
        { x with visited := v })
  | none, t :: ts, _ => match x.visited.visit t.key with
    | (true, v) => some ({ w with
        pending := ts, generated := w.generated + 1, fresh := w.fresh ++ [t],
        candidate := some t }, { x with visited := v })
    | (false, v) => some ({ w with
        pending := ts, generated := w.generated + 1, duplicates := w.duplicates + 1 },
        { x with visited := v })
  | none, [], a :: as => some ({ w with
      actions := as, pending := (c.trans p w.state a x.allocated).1 },
      { x with allocated := (c.trans p w.state a x.allocated).2 })
  | none, [], [] => none

theorem Pruner.next_of_turn {w w' : Pruner} {x x' : Exploration} (h : w.Turn c p x w' x') :
    w.next c p x = some (w', x') := by
  unfold next
  cases h with
  | act hactions hpending hnone => simp only [hactions, hpending, hnone]
  | meet hpending hnone hvisit => simp only [hpending, hnone, hvisit]
  | discover hpending hnone hvisit => simp only [hpending, hnone, hvisit]
  | prune hsome hsubsume => simp only [hsome, hsubsume]
  | keep hsome hsubsume => simp only [hsome, hsubsume]

theorem Pruner.turn_of_next {w w' : Pruner} {x x' : Exploration}
    (h : w.next c p x = some (w', x')) : w.Turn c p x w' x' := by
  unfold next at h
  split at h
  · next hsome =>
    split at h
    · next hsubsume =>
      obtain ⟨rfl, rfl⟩ := Prod.mk.inj (Option.some.inj h)
      exact .prune hsome hsubsume
    · next hsubsume =>
      obtain ⟨rfl, rfl⟩ := Prod.mk.inj (Option.some.inj h)
      exact .keep hsome hsubsume
  · next hnone hpending =>
    split at h
    · next hvisit =>
      obtain ⟨rfl, rfl⟩ := Prod.mk.inj (Option.some.inj h)
      exact .discover hpending hnone hvisit
    · next hvisit =>
      obtain ⟨rfl, rfl⟩ := Prod.mk.inj (Option.some.inj h)
      exact .meet hpending hnone hvisit
  · next hnone hpending hactions =>
    obtain ⟨rfl, rfl⟩ := Prod.mk.inj (Option.some.inj h)
    exact .act hactions hpending hnone
  · exact absurd h (by simp)

inductive Journey where
  | plain (r : Tour)
  | pruning (r : Sweep)

namespace Journey

def start (c : Composition) : Bool → Journey
  | false => .plain (.start c)
  | true => .pruning (.start c)

def exploration : Journey → Exploration
  | .plain r => r.exploration
  | .pruning r => r.exploration

def history : Journey → History
  | .plain r => r.history
  | .pruning r => r.history

def Done : Journey → Prop
  | .plain r => r.Done
  | .pruning r => r.Done

/-- A level is counted, its terminal graphs are found, and its other states are handed out. -/
inductive Enters (c : Composition) : Journey → Journey → Prop where
  | plain {x : Exploration} {h : History} (hne : x.frontier ≠ []) :
      Enters c (.plain (.between x h)) (.plain (.within (x.enter c)
        (x.liveStates.map (Worker.start c))
        { h with explored := h.explored ++ x.frontier, found := h.found ++ x.terminals c }))
  | pruning {x : Exploration} {h : History} (hne : x.frontier ≠ []) :
      Enters c (.pruning (.between x h)) (.pruning (.within (x.enter c)
        (x.liveStates.map (Pruner.start c))
        { h with explored := h.explored ++ x.frontier, found := h.found ++ x.terminals c }))

/-- With one job a worker waits until those before it are done. -/
inductive Works (c : Composition) (p : Precision) (jobs : Nat) : Journey → Journey → Prop where
  | turn {x x' : Exploration} {before after : List Worker} {w w' : Worker} {h : History}
      (hfree : 1 < jobs ∨ ∀ v ∈ before, v.Done) (hturn : w.Turn c p x w' x') :
      Works c p jobs (.plain (.within x (before ++ w :: after) h))
        (.plain (.within x' (before ++ w' :: after) h))
  | leave {x : Exploration} {team : List Worker} {h : History} (hdone : ∀ w ∈ team, w.Done) :
      Works c p jobs (.plain (.within x team h)) (.plain (.between (gather x team)
        { h with generated := h.generated + (team.map Worker.generated).sum }))
  | pruningTurn {x x' : Exploration} {before after : List Pruner} {w w' : Pruner} {h : History}
      (hfree : 1 < jobs ∨ ∀ v ∈ before, v.Done) (hturn : w.Turn c p x w' x') :
      Works c p jobs (.pruning (.within x (before ++ w :: after) h))
        (.pruning (.within x' (before ++ w' :: after) h))
  | pruningLeave {x : Exploration} {team : List Pruner} {h : History}
      (hdone : ∀ w ∈ team, w.Done) :
      Works c p jobs (.pruning (.within x team h)) (.pruning (.between (sift x team)
        { h with generated := h.generated + (team.map fun w => w.generated).sum }))

def Step (c : Composition) (p : Precision) (jobs : Nat) (j j' : Journey) : Prop :=
  Enters c j j' ∨ Works c p jobs j j'

def Reached (c : Composition) (p : Precision) (jobs : Nat) (subsumption : Bool) : Journey → Prop :=
  Relation.ReflTransGen (Step c p jobs) (start c subsumption)

variable {j j' : Journey}

/-- What a journey without subsumption does is a step of a tour, and with subsumption a step of a
sweep. -/
theorem Step.cases (h : Step c p jobs j j') :
    (∃ r r', j = .plain r ∧ j' = .plain r' ∧ Tour.Step c p r r') ∨
      ∃ r r', j = .pruning r ∧ j' = .pruning r' ∧ Sweep.Step c p r r' := by
  rcases h with h | h
  · cases h with
    | plain hne => exact .inl ⟨_, _, rfl, rfl, .enter hne⟩
    | pruning hne => exact .inr ⟨_, _, rfl, rfl, .enter hne⟩
  · cases h with
    | turn hfree hturn => exact .inl ⟨_, _, rfl, rfl, .turn hturn⟩
    | leave hdone => exact .inl ⟨_, _, rfl, rfl, .leave hdone⟩
    | pruningTurn hfree hturn => exact .inr ⟨_, _, rfl, rfl, .turn hturn⟩
    | pruningLeave hdone => exact .inr ⟨_, _, rfl, rfl, .leave hdone⟩

theorem tour_of_works {r : Tour} (h : Relation.ReflTransGen (Works c p jobs) (.plain r) j) :
    ∃ r', j = .plain r' ∧ Relation.ReflTransGen (Tour.Step c p) r r' := by
  induction h with
  | refl => exact ⟨r, rfl, .refl⟩
  | tail _ hs ih =>
    obtain ⟨r₁, rfl, hsteps⟩ := ih
    obtain ⟨q, q', hq, rfl, hstep⟩ | ⟨q, q', hq, -, -⟩ := Step.cases (.inr hs)
    · obtain rfl := Journey.plain.inj hq
      exact ⟨q', rfl, hsteps.tail hstep⟩
    · exact absurd hq (by simp)

theorem sweep_of_works {r : Sweep} (h : Relation.ReflTransGen (Works c p jobs) (.pruning r) j) :
    ∃ r', j = .pruning r' ∧ Relation.ReflTransGen (Sweep.Step c p) r r' := by
  induction h with
  | refl => exact ⟨r, rfl, .refl⟩
  | tail _ hs ih =>
    obtain ⟨r₁, rfl, hsteps⟩ := ih
    obtain ⟨q, q', hq, -, -⟩ | ⟨q, q', hq, rfl, hstep⟩ := Step.cases (.inr hs)
    · exact absurd hq (by simp)
    · obtain rfl := Journey.pruning.inj hq
      exact ⟨q', rfl, hsteps.tail hstep⟩

theorem reached_cases (h : Reached c p jobs subsumption j) :
    (subsumption = false ∧ ∃ r, j = .plain r ∧ Tour.Reached c p r) ∨
      (subsumption = true ∧ ∃ r, j = .pruning r ∧ Sweep.Reached c p r) := by
  induction h with
  | refl =>
    cases subsumption with
    | false => exact .inl ⟨rfl, _, rfl, .refl⟩
    | true => exact .inr ⟨rfl, _, rfl, .refl⟩
  | tail _ hs ih =>
    obtain ⟨r, r', rfl, rfl, hstep⟩ | ⟨r, r', rfl, rfl, hstep⟩ := hs.cases
    · obtain ⟨hsub, q, hq, hreached⟩ | ⟨-, q, hq, -⟩ := ih
      · obtain rfl := Journey.plain.inj hq
        exact .inl ⟨hsub, r', rfl, hreached.tail hstep⟩
      · exact absurd hq (by simp)
    · obtain ⟨-, q, hq, -⟩ | ⟨hsub, q, hq, hreached⟩ := ih
      · exact absurd hq (by simp)
      · obtain rfl := Journey.pruning.inj hq
        exact .inr ⟨hsub, r', rfl, hreached.tail hstep⟩

end Journey
end Consistency.Exploration
