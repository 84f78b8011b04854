import Mathlib.Logic.Relation
import Consistency.Exploration
import Consistency.Proofs.Composition.Key

/-!
# Schedules

The states of a level are expanded by workers, one for each state, that share
the record of the keys met and the numbers for events. A worker generates the
successors of its state action by action and looks them up one by one, and the
workers take turns in any order. When all are done, what they found makes up the
next level.

A state that was met is met once, whatever the order of the turns.
-/

set_option autoImplicit false

namespace Consistency.Exploration
variable {c : Composition} {p : Precision} {s t : GlobalState}

structure Worker where
  state : GlobalState
  /-- Actions that were not taken yet. -/
  actions : List Action
  /-- Successors by the last action that were not looked up yet. -/
  pending : List GlobalState
  generated : Nat
  duplicates : Nat
  /-- Successors that were new when they were looked up. -/
  fresh : List GlobalState

namespace Worker

def start (c : Composition) (s : GlobalState) : Worker := ⟨s, c.enabled s, [], 0, 0, []⟩

def Done (w : Worker) : Prop := w.actions = [] ∧ w.pending = []

inductive Turn (c : Composition) (p : Precision) :
    Worker → Exploration → Worker → Exploration → Prop where
  | act {w : Worker} {x : Exploration} {a : Action} {as : List Action}
      (hactions : w.actions = a :: as) (hpending : w.pending = []) :
      Turn c p w x { w with actions := as, pending := (c.trans p w.state a x.allocated).1 }
        { x with allocated := (c.trans p w.state a x.allocated).2 }
  | meet {w : Worker} {x : Exploration} {t : GlobalState} {ts : List GlobalState} {v : Visited}
      (hpending : w.pending = t :: ts) (hvisit : x.visited.visit t.key = (false, v)) :
      Turn c p w x
        { w with pending := ts, generated := w.generated + 1, duplicates := w.duplicates + 1 }
        { x with visited := v }
  | discover {w : Worker} {x : Exploration} {t : GlobalState} {ts : List GlobalState} {v : Visited}
      (hpending : w.pending = t :: ts) (hvisit : x.visited.visit t.key = (true, v)) :
      Turn c p w x { w with pending := ts, generated := w.generated + 1, fresh := w.fresh ++ [t] }
        { x with visited := v }

/-- Nothing is counted for the exploration during a turn. -/
theorem Turn.frame {w w' : Worker} {x x' : Exploration} (h : Turn c p w x w' x') :
    x'.stats = x.stats ∧ w'.state = w.state := by
  cases h with
  | act => exact ⟨rfl, rfl⟩
  | meet => exact ⟨rfl, rfl⟩
  | discover => exact ⟨rfl, rfl⟩

end Worker

def gather (x : Exploration) (team : List Worker) : Exploration :=
  { x with
    frontier := sortByKey (team.flatMap Worker.fresh)
    stats := { x.stats with
      duplicates := x.stats.duplicates + (team.map Worker.duplicates).sum
      blocked := x.stats.blocked + team.countP fun w => w.generated == 0 } }

structure History where
  /-- The states that were taken from the frontier, in this order. -/
  explored : List GlobalState
  found : List TerminalGraph
  /-- The number of successors that were generated for them. -/
  generated : Nat

/-- An exploration between two levels or within one. -/
inductive Tour where
  | between (x : Exploration) (h : History)
  | within (x : Exploration) (team : List Worker) (h : History)

namespace Tour

def start (c : Composition) : Tour := .between (Exploration.start c) ⟨[], [], 0⟩

def Done : Tour → Prop
  | .between x _ => x.frontier = []
  | .within _ _ _ => False

inductive Step (c : Composition) (p : Precision) : Tour → Tour → Prop where
  | enter {x : Exploration} {h : History} (hne : x.frontier ≠ []) :
      Step c p (.between x h) (.within (x.enter c) (x.liveStates.map (Worker.start c))
        { h with explored := h.explored ++ x.frontier, found := h.found ++ x.terminals c })
  | turn {x x' : Exploration} {before after : List Worker} {w w' : Worker} {h : History}
      (hturn : Worker.Turn c p w x w' x') :
      Step c p (.within x (before ++ w :: after) h) (.within x' (before ++ w' :: after) h)
  | leave {x : Exploration} {team : List Worker} {h : History} (hdone : ∀ w ∈ team, w.Done) :
      Step c p (.within x team h) (.between (gather x team)
        { h with generated := h.generated + (team.map Worker.generated).sum })

def Reached (c : Composition) (p : Precision) : Tour → Prop :=
  Relation.ReflTransGen (Step c p) (start c)

theorem Reached.invariant {I : Tour → Prop} (hstart : I (start c))
    (hstep : ∀ r r', Step c p r r' → I r → I r') {r : Tour} (h : Reached c p r) : I r := by
  induction h with
  | refl => exact hstart
  | tail _ hs ih => exact hstep _ _ hs ih

def exploration : Tour → Exploration
  | .between x _ => x
  | .within x _ _ => x

def history : Tour → History
  | .between _ h => h
  | .within _ _ h => h

def team : Tour → List Worker
  | .between _ _ => []
  | .within _ team _ => team

def waiting : Tour → List GlobalState
  | .between x _ => x.frontier
  | .within _ team _ => team.flatMap Worker.fresh

def met (r : Tour) : List GlobalState := r.history.explored ++ r.waiting

structure Once (c : Composition) (p : Precision) (r : Tour) : Prop where
  reachable : ∀ s ∈ r.met, c.Reachable p s
  sources : ∀ w ∈ r.team, c.Reachable p w.state
  pending : ∀ w ∈ r.team, ∀ t ∈ w.pending, c.Reachable p t
  nodup : (r.met.map GlobalState.key).Nodup
  visited : ∀ k, r.exploration.visited.keys.contains k = true ↔ k ∈ r.met.map GlobalState.key
  origin : (c.init 0).1 ∈ r.met

theorem start_once (c : Composition) (p : Precision) : Once c p (start c) where
  reachable := by
    intro s hs
    obtain rfl := List.mem_singleton.1 hs
    exact .init 0
  sources := by simp [start, team]
  pending := by simp [start, team]
  nodup := List.nodup_singleton _
  visited := by
    intro k
    have hkeys : (start c).exploration.visited.keys.contains k = ((c.init 0).1.key == k) := by
      simp [start, exploration, Exploration.start, Visited.visit, Visited.empty]
    have hmet : (start c).met = [(c.init 0).1] := rfl
    rw [hkeys, hmet, List.map_singleton, List.mem_singleton, beq_iff_eq, eq_comm]
  origin := List.mem_singleton_self _

theorem sortByKey_perm (states : List GlobalState) : (sortByKey states).Perm states := by
  refine ((List.mergeSort_perm _ _).map Prod.snd).trans (List.Perm.of_eq ?_)
  rw [List.map_map]
  exact List.map_id _

theorem visit_eq_true {v v' : Visited} {k : StateKey} (h : v.visit k = (true, v')) :
    v.keys.contains k = false ∧
      ∀ l, v'.keys.contains l = true ↔ l = k ∨ v.keys.contains l = true := by
  unfold Visited.visit at h
  split at h
  · exact absurd (Prod.mk.inj h).1 (by decide)
  · next hk =>
    obtain ⟨-, rfl⟩ := Prod.mk.inj h
    refine ⟨Bool.eq_false_iff.2 hk, fun l => ?_⟩
    rw [Std.HashSet.contains_insert, Bool.or_eq_true, beq_iff_eq, @eq_comm _ k]

theorem visit_eq_false {v v' : Visited} {k : StateKey} (h : v.visit k = (false, v')) :
    v.keys.contains k = true ∧ v' = v := by
  unfold Visited.visit at h
  split at h
  · next hk => exact ⟨hk, (Prod.mk.inj h).2.symm⟩
  · exact absurd (Prod.mk.inj h).1 (by decide)

/-- Nothing is met while no key is recorded. -/
theorem Once.of_perm {r r' : Tour} (h : Once c p r) (hmet : r'.met.Perm r.met)
    (hvisited : r'.exploration.visited = r.exploration.visited)
    (hsources : ∀ w ∈ r'.team, c.Reachable p w.state)
    (hpending : ∀ w ∈ r'.team, ∀ t ∈ w.pending, c.Reachable p t) : Once c p r' where
  reachable := fun s hs => h.reachable s (hmet.mem_iff.1 hs)
  sources := hsources
  pending := hpending
  nodup := (hmet.map GlobalState.key).nodup_iff.2 h.nodup
  visited := by
    intro k
    rw [hvisited, h.visited]
    exact (hmet.map GlobalState.key).mem_iff.symm
  origin := hmet.mem_iff.2 h.origin

section Turn
variable {x x' : Exploration} {before after : List Worker} {w w' : Worker} {h : History}

theorem met_turn (hw : w'.fresh = w.fresh) :
    (within x' (before ++ w' :: after) h).met = (within x (before ++ w :: after) h).met := by
  simp only [met, waiting, history, List.flatMap_append, List.flatMap_cons, hw]

/-- One member of a team comes to have one state more. -/
theorem perm_concat {α : Type} {f : α → List GlobalState} {v v' : α} (states : List GlobalState)
    (before after : List α) (hf : f v' = f v ++ [t]) :
    (states ++ (before ++ v' :: after).flatMap f).Perm
      (t :: (states ++ (before ++ v :: after).flatMap f)) := by
  simp only [List.flatMap_append, List.flatMap_cons, hf]
  have hperm : ((states ++ before.flatMap f ++ f v) ++ t :: after.flatMap f).Perm _ :=
    List.perm_middle
  simpa using hperm

/-- A worker that discovers a state adds it to those that were met. -/
theorem met_discover (x x' : Exploration) (before after : List Worker) (h : History)
    (hw : w'.fresh = w.fresh ++ [t]) : (within x' (before ++ w' :: after) h).met.Perm
      (t :: (within x (before ++ w :: after) h).met) :=
  perm_concat h.explored before after hw

/-- What holds of all members of a team, one of which has moved on. -/
theorem forall_mem_turn {α : Type} {P : α → Prop} {before after : List α} {w w' : α}
    (hall : ∀ v ∈ before ++ w :: after, P v) (hw : P w → P w') :
    ∀ v ∈ before ++ w' :: after, P v := by
  rw [List.forall_mem_append, List.forall_mem_cons] at hall ⊢
  exact ⟨hall.1, hw hall.2.1, hall.2.2⟩

end Turn

theorem Once.turn {x x' : Exploration} {before after : List Worker} {w w' : Worker} {g : History}
    (hturn : Worker.Turn c p w x w' x') (h : Once c p (.within x (before ++ w :: after) g)) :
    Once c p (.within x' (before ++ w' :: after) g) := by
  have hw : w ∈ before ++ w :: after := List.mem_append_right _ List.mem_cons_self
  cases hturn with
  | @act a as hactions hpending =>
    have hsuccessors : ∀ t ∈ (c.trans p w.state a x.allocated).1, c.Reachable p t := fun t ht =>
      (h.sources w hw).step a x.allocated ht
    exact h.of_perm (.of_eq (met_turn rfl)) rfl (forall_mem_turn h.sources id)
      (forall_mem_turn h.pending fun _ => hsuccessors)
  | @meet t ts v hpending hvisit =>
    obtain ⟨-, rfl⟩ := visit_eq_false hvisit
    refine h.of_perm (.of_eq (met_turn rfl)) rfl (forall_mem_turn h.sources id)
      (forall_mem_turn h.pending fun hold u hu => hold u ?_)
    exact hpending ▸ List.mem_cons_of_mem t hu
  | @discover t ts v hpending hvisit =>
    obtain ⟨hnew, hv⟩ := visit_eq_true hvisit
    have hmet := met_discover (t := t) x { x with visited := v } before after g
      (show { w with pending := ts, generated := w.generated + 1, fresh := w.fresh ++ [t] }.fresh =
        w.fresh ++ [t] from rfl)
    have ht : c.Reachable p t := h.pending w hw t (hpending ▸ List.mem_cons_self)
    have hkeys := hmet.map GlobalState.key
    refine ⟨fun s hs => ?_, forall_mem_turn h.sources id,
      forall_mem_turn h.pending fun hold u hu => hold u ?_, ?_, fun k => ?_, ?_⟩
    · rcases List.mem_cons.1 (hmet.mem_iff.1 hs) with rfl | hs
      · exact ht
      · exact h.reachable s hs
    · exact hpending ▸ List.mem_cons_of_mem t hu
    · refine hkeys.nodup_iff.2 (List.nodup_cons.2 ⟨fun hmem => ?_, h.nodup⟩)
      rw [← h.visited] at hmem
      exact absurd (hnew.symm.trans hmem) (by decide)
    · rw [hkeys.mem_iff, List.map_cons, List.mem_cons, ← h.visited]
      exact hv k
    · exact hmet.mem_iff.2 (List.mem_cons_of_mem t h.origin)

theorem flatMap_fresh_start (c : Composition) (states : List GlobalState) :
    (states.map (Worker.start c)).flatMap Worker.fresh = [] := by
  simp [Worker.start]

theorem Once.step {r r' : Tour} (hs : Step c p r r') (h : Once c p r) : Once c p r' := by
  cases hs with
  | @enter x g hne =>
    have hteam := flatMap_fresh_start c x.liveStates
    refine h.of_perm (.of_eq ?_) rfl (fun w hw => ?_) (fun w hw t ht => ?_)
    · simp only [met, waiting, history, hteam, List.append_nil]
    · obtain ⟨s, hs, rfl⟩ := List.mem_map.1 hw
      exact h.reachable s (List.mem_append_right _ (List.mem_of_mem_filter hs))
    · obtain ⟨s, hs, rfl⟩ := List.mem_map.1 hw
      exact absurd ht List.not_mem_nil
  | @leave x team g hdone =>
    exact h.of_perm ((sortByKey_perm _).append_left g.explored) rfl
      (fun w hw => absurd hw List.not_mem_nil) fun w hw => absurd hw List.not_mem_nil
  | turn hturn => exact h.turn hturn

def Served (c : Composition) (p : Precision) (r : Tour) (s : GlobalState) (a : Action) : Prop :=
  ∃ number, ∀ t ∈ (c.trans p s a number).1,
    (∃ w ∈ r.team, t ∈ w.pending) ∨ r.exploration.visited.keys.contains t.key = true

def Closed (c : Composition) (p : Precision) (r : Tour) : Prop :=
  ∀ s ∈ r.history.explored, s.isTerminal = false → ∀ a ∈ c.enabled s,
    (∃ w ∈ r.team, w.state = s ∧ a ∈ w.actions) ∨ Served c p r s a

theorem mem_turn {α : Type} {before after : List α} {v w : α} (w' : α)
    (h : v ∈ before ++ w :: after) : v = w ∨ v ∈ before ++ w' :: after := by
  simp only [List.mem_append, List.mem_cons] at h ⊢
  tauto

/-- A worker that looks up a state has the same actions left. -/
theorem Closed.look {x x' : Exploration} {before after : List Worker} {w w' : Worker} {g : History}
    {ts : List GlobalState} (h : Closed c p (.within x (before ++ w :: after) g))
    (hp : w.pending = t :: ts) (hp' : w'.pending = ts) (hstate : w'.state = w.state)
    (hactions : w'.actions = w.actions)
    (hv : ∀ k, k = t.key ∨ x.visited.keys.contains k = true →
      x'.visited.keys.contains k = true) : Closed c p (.within x' (before ++ w' :: after) g) := by
  have hw' : w' ∈ before ++ w' :: after := List.mem_append_right _ List.mem_cons_self
  intro s hs hlive a ha
  rcases h s hs hlive a ha with ⟨u, hu, hus, hua⟩ | ⟨number, hnumber⟩
  · rcases mem_turn w' hu with rfl | hu
    · exact .inl ⟨w', hw', hstate.trans hus, hactions ▸ hua⟩
    · exact .inl ⟨u, hu, hus, hua⟩
  · refine .inr ⟨number, fun u hu => ?_⟩
    rcases hnumber u hu with ⟨v, hv', huv⟩ | hmet
    · rcases mem_turn w' hv' with rfl | hv'
      · rw [hp, List.mem_cons] at huv
        rcases huv with rfl | huv
        · exact .inr (hv _ (.inl rfl))
        · exact .inl ⟨w', hw', hp' ▸ huv⟩
      · exact .inl ⟨v, hv', huv⟩
    · exact .inr (hv _ (.inr hmet))

theorem Closed.turn {x x' : Exploration} {before after : List Worker} {w w' : Worker} {g : History}
    (hturn : Worker.Turn c p w x w' x') (h : Closed c p (.within x (before ++ w :: after) g)) :
    Closed c p (.within x' (before ++ w' :: after) g) := by
  have hw' : w' ∈ before ++ w' :: after := List.mem_append_right _ List.mem_cons_self
  cases hturn with
  | @act a as hactions hpending =>
    intro s hs hlive b hb
    rcases h s hs hlive b hb with ⟨u, hu, hus, hua⟩ | ⟨number, hnumber⟩
    · rcases mem_turn _ hu with rfl | hu
      · rw [hactions, List.mem_cons] at hua
        rcases hua with rfl | hua
        · exact .inr ⟨x.allocated, fun t ht => .inl ⟨_, hw', hus ▸ ht⟩⟩
        · exact .inl ⟨_, hw', hus, hua⟩
      · exact .inl ⟨u, hu, hus, hua⟩
    · refine .inr ⟨number, fun t ht => (hnumber t ht).imp_left ?_⟩
      rintro ⟨u, hu, htu⟩
      rcases mem_turn _ hu with rfl | hu
      · rw [hpending] at htu
        exact absurd htu List.not_mem_nil
      · exact ⟨u, hu, htu⟩
  | @meet t ts v hpending hvisit =>
    obtain ⟨hold, rfl⟩ := visit_eq_false hvisit
    refine h.look hpending rfl rfl rfl fun k hk => ?_
    rcases hk with rfl | hk
    · exact hold
    · exact hk
  | @discover t ts v hpending hvisit =>
    exact h.look hpending rfl rfl rfl fun k hk => ((visit_eq_true hvisit).2 k).2 hk

theorem Closed.step {r r' : Tour} (hs : Step c p r r') (h : Closed c p r) : Closed c p r' := by
  cases hs with
  | @enter x g hne =>
    intro s hs hlive a ha
    rcases List.mem_append.1 hs with hs | hs
    · rcases h s hs hlive a ha with ⟨w, hw, -⟩ | ⟨number, hnumber⟩
      · exact absurd hw List.not_mem_nil
      · refine .inr ⟨number, fun t ht => (hnumber t ht).imp_left ?_⟩
        rintro ⟨w, hw, -⟩
        exact absurd hw List.not_mem_nil
    · have hlive' : s ∈ x.liveStates := List.mem_filter.2 ⟨hs, by rw [hlive]; rfl⟩
      exact .inl ⟨Worker.start c s, List.mem_map_of_mem hlive', rfl, ha⟩
  | @leave x team g hdone =>
    intro s hs hlive a ha
    rcases h s hs hlive a ha with ⟨w, hw, -, hwa⟩ | ⟨number, hnumber⟩
    · rw [(hdone w hw).1] at hwa
      exact absurd hwa List.not_mem_nil
    · refine .inr ⟨number, fun t ht => .inr ((hnumber t ht).resolve_left ?_)⟩
      rintro ⟨w, hw, htw⟩
      rw [(hdone w hw).2] at htw
      exact absurd htw List.not_mem_nil
  | turn hturn => exact h.turn hturn

theorem once_of_reached {r : Tour} (h : Reached c p r) : Once c p r :=
  h.invariant (start_once c p) fun _ _ hs => Once.step hs

theorem explored_nodup {r : Tour} (h : Reached c p r) :
    (r.history.explored.map GlobalState.key).Nodup := by
  have hall := (once_of_reached h).nodup
  rw [met, List.map_append] at hall
  exact hall.of_append_left

theorem closed_of_reached {r : Tour} (h : Reached c p r) : Closed c p r := by
  refine h.invariant (fun s hs => ?_) fun _ _ hs => Closed.step hs
  exact absurd hs List.not_mem_nil

/-- When a tour is done, every state that can be reached has the key of an explored one. -/
theorem explored_of_reachable (hn : c.Numbered) {r : Tour} (h : Reached c p r) (hr : r.Done)
    (hs : c.Reachable p s) : ∃ u ∈ r.history.explored, u.key = s.key := by
  have honce := once_of_reached h
  have hclosed := closed_of_reached h
  cases r with
  | within => exact hr.elim
  | between x g =>
    have hmet : (between x g).met = g.explored := by
      simp only [met, waiting, history, show x.frontier = [] from hr, List.append_nil]
    have hvisited : ∀ k, x.visited.keys.contains k = true → ∃ u ∈ g.explored, u.key = k := by
      intro k hk
      exact List.mem_map.1 (hmet ▸ (honce.visited k).1 hk)
    induction hs with
    | init number =>
      exact ⟨(c.init 0).1, hmet ▸ honce.origin, Composition.init_key c 0 number⟩
    | @step s t a number hs ht ih =>
      obtain ⟨u, hu, hkey⟩ := ih
      have hreach := honce.reachable u (List.mem_append_left _ hu)
      -- The explored state has a successor by this action too, so that it is enabled.
      obtain ⟨t', ht', -⟩ := Composition.exists_trans_of_key hkey ht number
      obtain ⟨hlive, ha⟩ :=
        Composition.mem_enabled_of_trans (Composition.tidy_of_reachable hn hreach) ht'
      rcases hclosed u hu hlive a ha with ⟨w, hw, -⟩ | ⟨number', hnumber'⟩
      · exact absurd hw List.not_mem_nil
      · obtain ⟨t'', ht'', hkey''⟩ := Composition.exists_trans_of_key hkey ht number'
        rcases hnumber' t'' ht'' with ⟨w, hw, -⟩ | hv
        · exact absurd hw List.not_mem_nil
        · exact hvisited t.key (hkey'' ▸ hv)

end Tour
end Consistency.Exploration
