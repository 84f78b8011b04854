import Consistency.Proofs.Composition.Simulation
import Consistency.Proofs.Exploration.Account

/-!
# Schedules with subsumption

A worker that prunes compares each state that it discovers with the record of
covers, in a turn of its own, so that others may take turns between the two.
What is covered is left out of the next level.

A recorded cover was put on the next level in the same turn. Every key that was
visited is therefore that of a state that lies under one that was explored,
waits to be explored or waits to be compared. As what a state does is done by
all states that it lies under, each reachable state lies under an explored one
in the end.
-/

set_option autoImplicit false

namespace Consistency

namespace GlobalState
variable {s t : GlobalState}

/-- States that can be compared are looked for in one place. -/
theorem shapeKey_of_coveredBy (h : s.coveredBy t = true) : s.shapeKey = t.shapeKey := by
  have hcovered := coveredBy_iff.1 h
  have hbare := hcovered.toUnder.map_locals hcovered.length fun _ _ hlm => hlm.bare
  have hmap : ∀ u : GlobalState, u.shapeKey =
      ⟨u.locals.map LocalState.bare, u.shapes, u.terminated.toList⟩ := fun _ => rfl
  rw [hmap, hmap, hbare, hcovered.relaxes.shapes, hcovered.terminated]

end GlobalState

namespace Visited
variable {v : Visited} {log : List GlobalState} {s t : GlobalState}

/-- The record comes from visits and tests, and `log` are the states that it was tested for and
that were not covered. -/
inductive Records : Visited → List GlobalState → Prop where
  | empty : Records .empty []
  | visit {v w : Visited} {log : List GlobalState} {k : StateKey} {isNew : Bool} :
      Records v log → v.visit k = (isNew, w) → Records w log
  | covered {v w : Visited} {log : List GlobalState} {s : GlobalState} :
      Records v log → v.subsume s = (true, w) → Records w log
  | added {v w : Visited} {log : List GlobalState} {s : GlobalState} :
      Records v log → v.subsume s = (false, w) → Records w (s :: log)

theorem visit_covers {w : Visited} {k : StateKey} {isNew : Bool} (h : v.visit k = (isNew, w)) :
    w.covers = v.covers := by
  unfold visit at h
  split at h
  · rw [← (Prod.mk.inj h).2]
  · rw [← (Prod.mk.inj h).2]

theorem subsume_eq_true {w : Visited} (h : v.subsume s = (true, w)) :
    w = v ∧ ∃ t ∈ v.covers.getD s.shapeKey [], s.coveredBy t = true := by
  unfold subsume at h
  simp only at h
  split at h
  · next hany => exact ⟨(Prod.mk.inj h).2.symm, List.any_eq_true.1 hany⟩
  · exact absurd (Prod.mk.inj h).1 (by decide)

theorem subsume_eq_false {w : Visited} (h : v.subsume s = (false, w)) :
    w.keys = v.keys ∧ ∀ k t, t ∈ w.covers.getD k [] ↔
      (t = s ∧ s.shapeKey = k) ∨ t ∈ v.covers.getD k [] := by
  unfold subsume at h
  simp only at h
  split at h
  · exact absurd (Prod.mk.inj h).1 (by decide)
  · obtain ⟨-, rfl⟩ := Prod.mk.inj h
    refine ⟨rfl, fun k t => ?_⟩
    rw [Std.HashMap.getD_insert]
    split
    · next hk =>
      obtain rfl := eq_of_beq hk
      simp
    · next hk =>
      have hne : s.shapeKey ≠ k := fun heq => hk (beq_iff_eq.2 heq)
      simp [hne]

theorem Records.mem_covers (h : Records v log) (k : StateKey) (t : GlobalState) :
    t ∈ v.covers.getD k [] ↔ t ∈ log ∧ t.shapeKey = k := by
  induction h generalizing k t with
  | empty => simp [Visited.empty]
  | visit _ hv ih => rw [visit_covers hv, ih]
  | covered _ hs ih => rw [(subsume_eq_true hs).1, ih]
  | added _ hs ih =>
    rw [(subsume_eq_false hs).2, ih, List.mem_cons]
    constructor
    · rintro (⟨rfl, hk⟩ | ⟨ht, hk⟩)
      · exact ⟨.inl rfl, hk⟩
      · exact ⟨.inr ht, hk⟩
    · rintro ⟨rfl | ht, hk⟩
      · exact .inl ⟨rfl, hk⟩
      · exact .inr ⟨ht, hk⟩

/-- Looking in one place is enough. -/
theorem Records.subsume_iff (h : Records v log) (s : GlobalState) :
    (v.subsume s).1 = true ↔ ∃ t ∈ log, s.coveredBy t = true := by
  constructor
  · intro hs
    obtain ⟨-, t, ht, hst⟩ := subsume_eq_true (Prod.ext hs rfl)
    exact ⟨t, ((h.mem_covers _ t).1 ht).1, hst⟩
  · rintro ⟨t, ht, hst⟩
    have hmem := (h.mem_covers s.shapeKey t).2
      ⟨ht, (GlobalState.shapeKey_of_coveredBy hst).symm⟩
    have hany : (v.covers.getD s.shapeKey []).any s.coveredBy = true :=
      List.any_eq_true.2 ⟨t, hmem, hst⟩
    simp only [subsume, hany, if_true]

end Visited

namespace Exploration
variable {c : Composition} {p : Precision} {s t : GlobalState}

/-- A worker that leaves out what is covered. -/
structure Pruner extends Worker where
  /-- A successor that was new and was not compared with the record yet. -/
  candidate : Option GlobalState
  /-- Successors that were new and not covered. -/
  kept : List GlobalState
  subsumed : Nat

namespace Pruner

def start (c : Composition) (s : GlobalState) : Pruner := ⟨.start c s, none, [], 0⟩

def Done (w : Pruner) : Prop := w.toWorker.Done ∧ w.candidate = none

inductive Turn (c : Composition) (p : Precision) :
    Pruner → Exploration → Pruner → Exploration → Prop where
  | act {w : Pruner} {x : Exploration} {a : Action} {as : List Action}
      (hactions : w.actions = a :: as) (hpending : w.pending = []) (hnone : w.candidate = none) :
      Turn c p w x { w with actions := as, pending := (c.trans p w.state a x.allocated).1 }
        { x with allocated := (c.trans p w.state a x.allocated).2 }
  | meet {w : Pruner} {x : Exploration} {t : GlobalState} {ts : List GlobalState} {v : Visited}
      (hpending : w.pending = t :: ts) (hnone : w.candidate = none)
      (hvisit : x.visited.visit t.key = (false, v)) :
      Turn c p w x
        { w with pending := ts, generated := w.generated + 1, duplicates := w.duplicates + 1 }
        { x with visited := v }
  | discover {w : Pruner} {x : Exploration} {t : GlobalState} {ts : List GlobalState} {v : Visited}
      (hpending : w.pending = t :: ts) (hnone : w.candidate = none)
      (hvisit : x.visited.visit t.key = (true, v)) :
      Turn c p w x { w with
          pending := ts, generated := w.generated + 1, fresh := w.fresh ++ [t], candidate := some t }
        { x with visited := v }
  | prune {w : Pruner} {x : Exploration} {t : GlobalState} {v : Visited}
      (hsome : w.candidate = some t) (hsubsume : x.visited.subsume t = (true, v)) :
      Turn c p w x { w with candidate := none, subsumed := w.subsumed + 1 } { x with visited := v }
  | keep {w : Pruner} {x : Exploration} {t : GlobalState} {v : Visited}
      (hsome : w.candidate = some t) (hsubsume : x.visited.subsume t = (false, v)) :
      Turn c p w x { w with candidate := none, kept := w.kept ++ [t] } { x with visited := v }

/-- A turn is one of a worker that does not prune, or what was discovered is compared. -/
theorem Turn.worker {w w' : Pruner} {x x' : Exploration} (h : Turn c p w x w' x') :
    Worker.Turn c p w.toWorker x w'.toWorker x' ∨
      (w'.toWorker = w.toWorker ∧ x'.visited.keys = x.visited.keys ∧
        x'.allocated = x.allocated ∧ x'.stats = x.stats) := by
  cases h with
  | act hactions hpending hnone => exact .inl (.act hactions hpending)
  | meet hpending hnone hvisit => exact .inl (.meet hpending hvisit)
  | discover hpending hnone hvisit => exact .inl (.discover hpending hvisit)
  | prune hsome hsubsume =>
    exact .inr ⟨rfl, congrArg Visited.keys (Visited.subsume_eq_true hsubsume).1, rfl, rfl⟩
  | keep hsome hsubsume => exact .inr ⟨rfl, (Visited.subsume_eq_false hsubsume).1, rfl, rfl⟩

theorem Turn.stats {w w' : Pruner} {x x' : Exploration} (h : Turn c p w x w' x') :
    x'.stats = x.stats := by
  rcases h.worker with h | ⟨-, -, -, hstats⟩
  · exact h.frame.1
  · exact hstats

def held (w : Pruner) : List GlobalState := w.kept ++ w.candidate.toList

end Pruner

def sift (x : Exploration) (team : List Pruner) : Exploration :=
  { x with
    frontier := sortByKey (team.flatMap Pruner.kept)
    stats := { x.stats with
      duplicates := x.stats.duplicates + (team.map fun w => w.duplicates).sum
      subsumed := x.stats.subsumed + (team.map Pruner.subsumed).sum
      blocked := x.stats.blocked + team.countP fun w => w.generated == 0 } }

/-- An exploration with subsumption, between two levels or within one. -/
inductive Sweep where
  | between (x : Exploration) (h : History)
  | within (x : Exploration) (team : List Pruner) (h : History)

namespace Sweep

def start (c : Composition) : Sweep := .between (Exploration.start c) ⟨[], [], 0⟩

def Done : Sweep → Prop
  | .between x _ => x.frontier = []
  | .within _ _ _ => False

inductive Step (c : Composition) (p : Precision) : Sweep → Sweep → Prop where
  | enter {x : Exploration} {h : History} (hne : x.frontier ≠ []) :
      Step c p (.between x h) (.within (x.enter c) (x.liveStates.map (Pruner.start c))
        { h with explored := h.explored ++ x.frontier, found := h.found ++ x.terminals c })
  | turn {x x' : Exploration} {before after : List Pruner} {w w' : Pruner} {h : History}
      (hturn : Pruner.Turn c p w x w' x') :
      Step c p (.within x (before ++ w :: after) h) (.within x' (before ++ w' :: after) h)
  | leave {x : Exploration} {team : List Pruner} {h : History} (hdone : ∀ w ∈ team, w.Done) :
      Step c p (.within x team h) (.between (sift x team)
        { h with generated := h.generated + (team.map fun w => w.generated).sum })

def Reached (c : Composition) (p : Precision) : Sweep → Prop :=
  Relation.ReflTransGen (Step c p) (start c)

theorem Reached.invariant {I : Sweep → Prop} (hstart : I (start c))
    (hstep : ∀ r r', Step c p r r' → I r → I r') {r : Sweep} (h : Reached c p r) : I r := by
  induction h with
  | refl => exact hstart
  | tail _ hs ih => exact hstep _ _ hs ih

def exploration : Sweep → Exploration
  | .between x _ => x
  | .within x _ _ => x

def history : Sweep → History
  | .between _ h => h
  | .within _ _ h => h

def team : Sweep → List Pruner
  | .between _ _ => []
  | .within _ team _ => team

def met : Sweep → List GlobalState
  | .between x h => h.explored ++ x.frontier
  | .within _ team h => h.explored ++ team.flatMap Pruner.kept

def held : Sweep → List GlobalState
  | .between x h => h.explored ++ x.frontier
  | .within _ team h => h.explored ++ team.flatMap Pruner.held

def plain : Sweep → Tour
  | .between x h => .between x h
  | .within x team h => .within x (team.map Pruner.toWorker) h

structure Sound (c : Composition) (p : Precision) (r : Sweep) : Prop where
  reachable : ∀ s ∈ r.held, c.Reachable p s
  sources : ∀ w ∈ r.team, c.Reachable p w.state
  pending : ∀ w ∈ r.team, ∀ t ∈ w.pending, c.Reachable p t
  nodup : (r.held.map GlobalState.key).Nodup
  visited : ∀ s ∈ r.held, r.exploration.visited.keys.contains s.key = true
  /-- All that was visited lies under what is held. -/
  under : ∀ s : GlobalState, r.exploration.visited.keys.contains s.key = true →
    ∃ u ∈ r.held, s.Under u
  covers : ∀ k, ∀ t ∈ r.exploration.visited.covers.getD k [], t ∈ r.met
  origin : (c.init 0).1 ∈ r.met

theorem met_subset (r : Sweep) : r.met ⊆ r.held := by
  cases r with
  | between x h => exact fun _ hs => hs
  | within x team h =>
    intro s hs
    rcases List.mem_append.1 hs with hs | hs
    · exact List.mem_append_left _ hs
    · obtain ⟨w, hw, hs⟩ := List.mem_flatMap.1 hs
      exact List.mem_append_right _ (List.mem_flatMap.2 ⟨w, hw, List.mem_append_left _ hs⟩)

theorem start_sound (c : Composition) (p : Precision) : Sound c p (start c) where
  reachable := by
    intro s hs
    obtain rfl := List.mem_singleton.1 hs
    exact .init 0
  sources := by simp [start, team]
  pending := by simp [start, team]
  nodup := List.nodup_singleton _
  visited := by
    intro s hs
    rw [List.mem_singleton.1 hs]
    simp only [start, exploration, Exploration.start, Visited.visit, Visited.empty,
      Std.HashSet.contains_empty, Bool.false_eq_true, if_false]
    exact Std.HashSet.contains_insert_self
  under := by
    intro s hs
    have hkey : (c.init 0).1.key = s.key := by
      simpa [start, exploration, Exploration.start, Visited.visit, Visited.empty] using hs
    exact ⟨_, List.mem_singleton_self _, GlobalState.under_of_key hkey.symm⟩
  covers := by
    intro k t ht
    simp [start, exploration, Exploration.start, Visited.visit, Visited.empty] at ht
  origin := List.mem_singleton_self _

section Turn
variable {x x' : Exploration} {before after : List Pruner} {w w' : Pruner} {g : History}

theorem met_turn (hw : w'.kept = w.kept) :
    (within x' (before ++ w' :: after) g).met = (within x (before ++ w :: after) g).met := by
  simp only [met, List.flatMap_append, List.flatMap_cons, hw]

theorem held_turn (hw : w'.held = w.held) :
    (within x' (before ++ w' :: after) g).held = (within x (before ++ w :: after) g).held := by
  simp only [held, List.flatMap_append, List.flatMap_cons, hw]

/-- A worker holds one state more than before. -/
theorem held_concat (x x' : Exploration) (before after : List Pruner) (g : History)
    (hw : w'.held = w.held ++ [t]) : (within x' (before ++ w' :: after) g).held.Perm
      (t :: (within x (before ++ w :: after) g).held) :=
  Tour.perm_concat g.explored before after hw

/-- A worker keeps one state more than before. -/
theorem met_concat (x x' : Exploration) (before after : List Pruner) (g : History)
    (hw : w'.kept = w.kept ++ [t]) : (within x' (before ++ w' :: after) g).met.Perm
      (t :: (within x (before ++ w :: after) g).met) :=
  Tour.perm_concat g.explored before after hw

end Turn

/-- Nothing is recorded, and all is held as before. -/
theorem Sound.of_perm {r r' : Sweep} (h : Sound c p r) (hheld : r'.held.Perm r.held)
    (hmet : r'.met.Perm r.met) (hvisited : r'.exploration.visited = r.exploration.visited)
    (hsources : ∀ w ∈ r'.team, c.Reachable p w.state)
    (hpending : ∀ w ∈ r'.team, ∀ t ∈ w.pending, c.Reachable p t) : Sound c p r' where
  reachable := fun s hs => h.reachable s (hheld.mem_iff.1 hs)
  sources := hsources
  pending := hpending
  nodup := (hheld.map GlobalState.key).nodup_iff.2 h.nodup
  visited := by
    intro s hs
    rw [hvisited]
    exact h.visited s (hheld.mem_iff.1 hs)
  under := by
    intro s hs
    rw [hvisited] at hs
    obtain ⟨u, hu, hsu⟩ := h.under s hs
    exact ⟨u, hheld.mem_iff.2 hu, hsu⟩
  covers := by
    intro k t ht
    rw [hvisited] at ht
    exact hmet.mem_iff.2 (h.covers k t ht)
  origin := hmet.mem_iff.2 h.origin

section Turn
variable {x x' : Exploration} {before after : List Pruner} {w w' : Pruner} {g : History}

/-- A worker holds a state with a new key. -/
theorem Sound.discover (h : Sound c p (.within x (before ++ w :: after) g))
    (ht : c.Reachable p t) (hheld : w'.held = w.held ++ [t]) (hkept : w'.kept = w.kept)
    (hstate : w'.state = w.state) (hpending : w'.pending ⊆ w.pending)
    (hnew : x.visited.keys.contains t.key = false)
    (hkeys : ∀ k, x'.visited.keys.contains k = true ↔
      k = t.key ∨ x.visited.keys.contains k = true)
    (hcovers : x'.visited.covers = x.visited.covers) :
    Sound c p (.within x' (before ++ w' :: after) g) := by
  have hperm := held_concat x x' before after g hheld
  have hmem : ∀ s, s ∈ (within x' (before ++ w' :: after) g).held ↔
      s = t ∨ s ∈ (within x (before ++ w :: after) g).held := fun s =>
    hperm.mem_iff.trans List.mem_cons
  constructor
  · intro s hs
    rcases (hmem s).1 hs with rfl | hs
    · exact ht
    · exact h.reachable s hs
  · exact Tour.forall_mem_turn h.sources fun hw => hstate ▸ hw
  · exact Tour.forall_mem_turn h.pending fun hw u hu => hw u (hpending hu)
  · refine (hperm.map GlobalState.key).nodup_iff.2 (List.nodup_cons.2 ⟨fun hin => ?_, h.nodup⟩)
    obtain ⟨s, hs, hkey⟩ := List.mem_map.1 hin
    have hold : x.visited.keys.contains s.key = true := h.visited s hs
    rw [hkey, hnew] at hold
    exact absurd hold (by decide)
  · intro s hs
    apply (hkeys s.key).2
    rcases (hmem s).1 hs with rfl | hs
    · exact .inl rfl
    · exact .inr (h.visited s hs)
  · intro s hs
    rcases (hkeys s.key).1 hs with hkey | hold
    · exact ⟨t, (hmem t).2 (.inl rfl), GlobalState.under_of_key hkey⟩
    · obtain ⟨u, hu, hsu⟩ := h.under s hold
      exact ⟨u, (hmem u).2 (.inr hu), hsu⟩
  · intro k u hu
    rw [met_turn hkept]
    exact h.covers k u (hcovers ▸ hu)
  · rw [met_turn hkept]
    exact h.origin

/-- A worker lets go of a state that is covered. -/
theorem Sound.prune (h : Sound c p (.within x (before ++ w :: after) g))
    (hheld : w.held = w'.held ++ [t]) (hkept : w'.kept = w.kept) (hstate : w'.state = w.state)
    (hpending : w'.pending = w.pending) (hvisited : x'.visited = x.visited)
    (hcover : ∃ u ∈ x.visited.covers.getD t.shapeKey [], t.coveredBy u = true) :
    Sound c p (.within x' (before ++ w' :: after) g) := by
  have hperm := held_concat x' x before after g hheld
  have hmem : ∀ s, s ∈ (within x (before ++ w :: after) g).held ↔
      s = t ∨ s ∈ (within x' (before ++ w' :: after) g).held := fun s =>
    hperm.mem_iff.trans List.mem_cons
  have hmet : (within x' (before ++ w' :: after) g).met =
      (within x (before ++ w :: after) g).met := met_turn hkept
  constructor
  · exact fun s hs => h.reachable s ((hmem s).2 (.inr hs))
  · exact Tour.forall_mem_turn h.sources fun hw => hstate ▸ hw
  · exact Tour.forall_mem_turn h.pending fun hw => hpending ▸ hw
  · exact (List.nodup_cons.1 ((hperm.map GlobalState.key).nodup_iff.1 h.nodup)).2
  · intro s hs
    show x'.visited.keys.contains s.key = true
    rw [hvisited]
    exact h.visited s ((hmem s).2 (.inr hs))
  · intro s hs
    have hold : x.visited.keys.contains s.key = true := hvisited ▸ hs
    obtain ⟨u, hu, hsu⟩ := h.under s hold
    rcases (hmem u).1 hu with rfl | hu
    · obtain ⟨d, hd, hud⟩ := hcover
      have hd : d ∈ (within x' (before ++ w' :: after) g).met := hmet ▸ h.covers _ d hd
      exact ⟨d, met_subset _ hd, hsu.trans (GlobalState.under_of_coveredBy hud)⟩
    · exact ⟨u, hu, hsu⟩
  · intro k u hu
    rw [hmet]
    exact h.covers k u (hvisited ▸ hu)
  · rw [hmet]
    exact h.origin

/-- A worker keeps a state and records it. -/
theorem Sound.keep (h : Sound c p (.within x (before ++ w :: after) g))
    (hheld : w'.held = w.held) (hkept : w'.kept = w.kept ++ [t]) (hstate : w'.state = w.state)
    (hpending : w'.pending = w.pending) (hkeys : x'.visited.keys = x.visited.keys)
    (hcovers : ∀ k u, u ∈ x'.visited.covers.getD k [] ↔
      (u = t ∧ t.shapeKey = k) ∨ u ∈ x.visited.covers.getD k []) :
    Sound c p (.within x' (before ++ w' :: after) g) := by
  have hsame : (within x' (before ++ w' :: after) g).held =
      (within x (before ++ w :: after) g).held := held_turn hheld
  have hmem : ∀ u, u = t ∨ u ∈ (within x (before ++ w :: after) g).met →
      u ∈ (within x' (before ++ w' :: after) g).met := fun u hu =>
    (met_concat x x' before after g hkept).mem_iff.2 (List.mem_cons.2 hu)
  constructor
  · rw [hsame]
    exact h.reachable
  · exact Tour.forall_mem_turn h.sources fun hw => hstate ▸ hw
  · exact Tour.forall_mem_turn h.pending fun hw => hpending ▸ hw
  · rw [hsame]
    exact h.nodup
  · rw [hsame]
    show ∀ s : GlobalState, _ → x'.visited.keys.contains s.key = true
    rw [hkeys]
    exact h.visited
  · rw [hsame]
    show ∀ s : GlobalState, x'.visited.keys.contains s.key = true → _
    rw [hkeys]
    exact h.under
  · intro k u hu
    rcases (hcovers k u).1 hu with ⟨rfl, -⟩ | hu
    · exact hmem u (.inl rfl)
    · exact hmem u (.inr (h.covers k u hu))
  · exact hmem _ (.inr h.origin)

theorem Sound.turn (hturn : Pruner.Turn c p w x w' x')
    (h : Sound c p (.within x (before ++ w :: after) g)) :
    Sound c p (.within x' (before ++ w' :: after) g) := by
  have hw : w ∈ before ++ w :: after := List.mem_append_right _ List.mem_cons_self
  cases hturn with
  | @act a as hactions hpending hnone =>
    have hsuccessors : ∀ t ∈ (c.trans p w.state a x.allocated).1, c.Reachable p t := fun t ht =>
      (h.sources w hw).step a x.allocated ht
    exact h.of_perm (.of_eq (held_turn rfl)) (.of_eq (met_turn rfl)) rfl
      (Tour.forall_mem_turn h.sources id) (Tour.forall_mem_turn h.pending fun _ => hsuccessors)
  | @meet t ts v hpending hnone hvisit =>
    obtain ⟨-, rfl⟩ := Tour.visit_eq_false hvisit
    refine h.of_perm (.of_eq (held_turn rfl)) (.of_eq (met_turn rfl)) rfl
      (Tour.forall_mem_turn h.sources id) (Tour.forall_mem_turn h.pending fun hold u hu => hold u ?_)
    exact hpending ▸ List.mem_cons_of_mem t hu
  | @discover t ts v hpending hnone hvisit =>
    obtain ⟨hnew, hkeys⟩ := Tour.visit_eq_true hvisit
    have hcovers : v.covers = x.visited.covers := Visited.visit_covers hvisit
    have ht : c.Reachable p t := h.pending w hw t (hpending ▸ List.mem_cons_self)
    refine h.discover ht ?_ rfl rfl ?_ hnew hkeys hcovers
    · simp [Pruner.held, hnone]
    · exact fun u hu => hpending ▸ List.mem_cons_of_mem t hu
  | @prune t v hsome hsubsume =>
    obtain ⟨rfl, hcover⟩ := Visited.subsume_eq_true hsubsume
    refine h.prune ?_ rfl rfl rfl rfl hcover
    simp [Pruner.held, hsome]
  | @keep t v hsome hsubsume =>
    obtain ⟨hkeys, hcovers⟩ := Visited.subsume_eq_false hsubsume
    refine h.keep (t := t) ?_ rfl rfl rfl hkeys hcovers
    simp [Pruner.held, hsome]

end Turn

theorem flatMap_start {f : Pruner → List GlobalState} (hf : ∀ s, f (Pruner.start c s) = [])
    (states : List GlobalState) : (states.map (Pruner.start c)).flatMap f = [] := by
  simp [hf]

theorem flatMap_held {team : List Pruner} (h : ∀ w ∈ team, w.candidate = none) :
    team.flatMap Pruner.held = team.flatMap Pruner.kept := by
  apply List.flatMap_congr
  intro w hw
  rw [Pruner.held, h w hw, Option.toList_none, List.append_nil]

theorem Sound.step {r r' : Sweep} (hs : Step c p r r') (h : Sound c p r) : Sound c p r' := by
  cases hs with
  | @enter x g hne =>
    have hheld : ∀ f : Pruner → List GlobalState, (∀ s, f (Pruner.start c s) = []) →
        g.explored ++ x.frontier ++ (x.liveStates.map (Pruner.start c)).flatMap f =
          g.explored ++ x.frontier := by
      intro f hf
      rw [flatMap_start hf, List.append_nil]
    refine h.of_perm (.of_eq (hheld _ fun _ => rfl)) (.of_eq (hheld _ fun _ => rfl)) rfl
      (fun w hw => ?_) (fun w hw t ht => ?_)
    · obtain ⟨s, hs, rfl⟩ := List.mem_map.1 hw
      exact h.reachable s (List.mem_append_right _ (List.mem_of_mem_filter hs))
    · obtain ⟨s, hs, rfl⟩ := List.mem_map.1 hw
      exact absurd ht List.not_mem_nil
  | @leave x team g hdone =>
    have hmet := (Tour.sortByKey_perm (team.flatMap Pruner.kept)).append_left g.explored
    have hheld := flatMap_held fun w hw => (hdone w hw).2
    refine h.of_perm ?_ hmet rfl (fun w hw => absurd hw List.not_mem_nil)
      fun w hw => absurd hw List.not_mem_nil
    show (g.explored ++ sortByKey (team.flatMap Pruner.kept)).Perm
      (g.explored ++ team.flatMap Pruner.held)
    rw [hheld]
    exact hmet
  | turn hturn => exact h.turn hturn

theorem sound_of_reached {r : Sweep} (h : Reached c p r) : Sound c p r :=
  h.invariant (start_sound c p) fun _ _ hs => Sound.step hs

/-- Only the explored states, the workers and the visited keys matter. -/
theorem closed_of_keys {r r' : Tour} (h : Tour.Closed c p r)
    (hexplored : r'.history.explored = r.history.explored) (hteam : r'.team = r.team)
    (hkeys : r'.exploration.visited.keys = r.exploration.visited.keys) : Tour.Closed c p r' := by
  unfold Tour.Closed Tour.Served at h ⊢
  rw [hexplored, hteam, hkeys]
  exact h

/-- What workers that prune take and visit, workers that do not would as well. -/
theorem closed_of_reached {r : Sweep} (h : Reached c p r) : Tour.Closed c p r.plain := by
  refine h.invariant (I := fun r => Tour.Closed c p r.plain) (fun s hs => ?_)
    fun r r' hs hr => ?_
  · exact absurd hs List.not_mem_nil
  · cases hs with
    | @enter x g hne =>
      have hteam : (x.liveStates.map (Pruner.start c)).map Pruner.toWorker =
          x.liveStates.map (Worker.start c) := by
        rw [List.map_map]
        rfl
      have hnext := hr.step (.enter (c := c) (p := p) hne)
      rw [← hteam] at hnext
      exact hnext
    | @leave x team g hdone =>
      have hplain : ∀ w ∈ team.map Pruner.toWorker, w.Done := by
        intro w hw
        obtain ⟨v, hv, rfl⟩ := List.mem_map.1 hw
        exact (hdone v hv).1
      exact closed_of_keys (hr.step (.leave hplain)) rfl rfl rfl
    | @turn x x' before after w w' g hturn =>
      simp only [plain, List.map_append, List.map_cons] at hr ⊢
      rcases hturn.worker with hturn | ⟨hworker, hkeys, -, -⟩
      · exact hr.turn hturn
      · rw [hworker]
        exact closed_of_keys hr rfl rfl hkeys

end Sweep
end Exploration
end Consistency
