import Mathlib.Data.Prod.Lex
import Mathlib.Data.Set.Card
import Mathlib.Data.Set.Finite.Basic
import Mathlib.Order.OrderIsoNat
import Consistency.Proofs.Composition.Bound
import Consistency.Proofs.Exploration.Schedule

/-!
# The end of an exploration

Workers that are not done can go on, and between two levels the next one is
entered. If finitely many keys can be reached, this comes to an end: a level
that is entered leaves fewer keys to explore, and within a level each turn
leaves less work. A bound on the steps of each thread is enough for that.
-/

set_option autoImplicit false

namespace Consistency.Exploration
variable {c : Composition} {p : Precision} {s : GlobalState}

def reachableKeys (c : Composition) (p : Precision) : Set StateKey :=
  {k | ∃ s, c.Reachable p s ∧ s.key = k}

/-- States with different keys are no more than the keys. -/
theorem length_le_card (hfin : (reachableKeys c p).Finite) {states : List GlobalState}
    (hnodup : (states.map GlobalState.key).Nodup) (h : ∀ s ∈ states, c.Reachable p s) :
    states.length ≤ hfin.toFinset.card := by
  rw [← List.length_map GlobalState.key, ← List.toFinset_card_of_nodup hnodup]
  apply Finset.card_le_card
  intro k hk
  apply hfin.mem_toFinset.2
  obtain ⟨s, hs, rfl⟩ := List.mem_map.1 (List.mem_toFinset.1 hk)
  exact ⟨s, h s hs, rfl⟩

/-- Steps that leave less, be it of the first or of the second kind, come to an end. -/
theorem acc_of_rest {α : Type} {R : α → α → Prop} {I : α → Prop} (rest : α → Nat × Nat)
    (keep : ∀ a b, R a b → I a → I b)
    (less : ∀ a b, R a b → I b → Prod.Lex (· < ·) (· < ·) (rest b) (rest a)) {a : α} (ha : I a) :
    Acc (fun b a => R a b) a := by
  have hwf : WellFounded (InvImage (Prod.Lex (· < ·) (· < ·)) rest) :=
    InvImage.wf _ (WellFounded.prod_lex Nat.lt_wfRel.wf Nat.lt_wfRel.wf)
  induction a using hwf.induction with
  | _ a ih =>
    apply Acc.intro
    intro b hab
    have hb : I b := keep a b hab ha
    exact ih b (less a b hab hb) hb

/-- By induction on the level: a composition has finitely many states in it, but for the numbers
of events. -/
theorem exists_representatives (hn : c.Numbered) (p : Precision) (n : Nat) :
    ∃ states : List GlobalState, ∀ s, c.Reachable p s → s.level = n →
      ∃ u ∈ states, c.Reachable p u ∧ u.key = s.key := by
  induction n with
  | zero =>
    refine ⟨[(c.init 0).1], fun s hs hlevel => ⟨_, List.mem_singleton_self _, .init 0, ?_⟩⟩
    cases hs with
    | init number => exact Composition.init_key c 0 number
    | step a number hs ht =>
      rw [Composition.level_trans ht] at hlevel
      exact absurd hlevel (Nat.succ_ne_zero _)
  | succ n ih =>
    obtain ⟨states, hstates⟩ := ih
    refine ⟨states.flatMap fun u => (c.enabled u).flatMap fun a => (c.trans p u a 0).1,
      fun t ht hlevel => ?_⟩
    cases ht with
    | init number =>
      rw [Composition.level_init] at hlevel
      exact absurd hlevel.symm (Nat.succ_ne_zero n)
    | @step s t a number hs ht =>
      rw [Composition.level_trans ht] at hlevel
      obtain ⟨u, hu, hreach, hkey⟩ := hstates s hs (Nat.succ.inj hlevel)
      obtain ⟨t', ht', hkey'⟩ := Composition.exists_trans_of_key hkey ht 0
      have ha := (Composition.mem_enabled_of_trans (Composition.tidy_of_reachable hn hreach) ht').2
      refine ⟨t', ?_, hreach.step a 0 ht', hkey'⟩
      exact List.mem_flatMap.2 ⟨u, hu, List.mem_flatMap.2 ⟨a, ha, ht'⟩⟩

theorem finite_of_level_le (hn : c.Numbered) {bound : Nat}
    (h : ∀ s, c.Reachable p s → s.level ≤ bound) : (reachableKeys c p).Finite := by
  choose states hstates using exists_representatives hn p
  have hfinite : (⋃ n ∈ Set.Iic bound, {k | k ∈ (states n).map GlobalState.key}).Finite :=
    (Set.finite_Iic bound).biUnion fun n _ => List.finite_toSet _
  apply hfinite.subset
  rintro k ⟨s, hs, rfl⟩
  obtain ⟨u, hu, -, hkey⟩ := hstates s.level s hs rfl
  exact Set.mem_biUnion (h s hs) (List.mem_map.2 ⟨u, hu, hkey⟩)

theorem steps_le {bound : Nat} (hp : p.stepBound = some bound) (hs : c.Reachable p s) :
    ∀ l ∈ s.locals, l.steps ≤ bound := by
  obtain ⟨tracked, stepBound⟩ := p
  subst hp
  exact Composition.within_of_bounded hs

/-- When the steps of a thread are bounded, finitely many keys can be reached. -/
theorem finite_of_stepBound (hn : c.Numbered) {bound : Nat} (hp : p.stepBound = some bound) :
    (reachableKeys c p).Finite :=
  finite_of_level_le hn fun _ hs => Composition.level_le hn hs (steps_le hp hs)

/-- By induction on the steps to the state: its key is among those of a list that no action leads
out of. -/
theorem key_of_closed (hn : c.Numbered) {states : List GlobalState}
    (hinit : ∃ u ∈ states, u.key = (c.init 0).1.key)
    (hstep : ∀ u ∈ states, ∀ a ∈ c.enabled u, ∀ t ∈ (c.trans p u a 0).1,
      ∃ v ∈ states, v.key = t.key) (hs : c.Reachable p s) : ∃ u ∈ states, u.key = s.key := by
  induction hs with
  | init number =>
    obtain ⟨u, hu, hkey⟩ := hinit
    exact ⟨u, hu, hkey.trans (Composition.init_key c 0 number)⟩
  | @step s t a number hs ht ih =>
    obtain ⟨u, hu, hkey⟩ := ih
    obtain ⟨t', ht', hkey'⟩ := Composition.exists_trans_of_key hkey ht 0
    have ha := (Composition.mem_enabled_of_trans (Composition.tidy_of_reachable hn hs) ht).2
    rw [← Composition.enabled_of_key hkey] at ha
    obtain ⟨v, hv, hkeyv⟩ := hstep u hu a ha t' ht'
    exact ⟨v, hv, hkeyv.trans hkey'⟩

/-- There are no more keys than states in such a list. -/
theorem card_of_closed {states : List GlobalState}
    (h : ∀ s, c.Reachable p s → ∃ u ∈ states, u.key = s.key) :
    (reachableKeys c p).Finite ∧ (reachableKeys c p).ncard ≤ states.length := by
  classical
  have hsub : reachableKeys c p ⊆ ((states.map GlobalState.key).toFinset : Set StateKey) := by
    rintro k ⟨s, hs, rfl⟩
    obtain ⟨u, hu, hkey⟩ := h s hs
    exact Finset.mem_coe.2 (List.mem_toFinset.2 (List.mem_map.2 ⟨u, hu, hkey⟩))
  refine ⟨(Finset.finite_toSet _).subset hsub, ?_⟩
  calc (reachableKeys c p).ncard
    _ ≤ (states.map GlobalState.key).toFinset.card :=
      (Set.ncard_le_ncard hsub (Finset.finite_toSet _)).trans (Set.ncard_coe_finset _).le
    _ ≤ (states.map GlobalState.key).length := List.toFinset_card_le _
    _ = states.length := List.length_map _

namespace Worker
variable {w w' : Worker} {x x' : Exploration}

theorem exists_turn (x : Exploration) (h : ¬ w.Done) : ∃ w' x', w.Turn c p x w' x' := by
  cases hpending : w.pending with
  | nil =>
    cases hactions : w.actions with
    | nil => exact absurd ⟨hactions, hpending⟩ h
    | cons a as => exact ⟨_, _, .act hactions hpending⟩
  | cons t ts =>
    cases hvisit : x.visited.visit t.key with
    | mk isNew v =>
      cases isNew with
      | false => exact ⟨_, _, .meet hpending hvisit⟩
      | true => exact ⟨_, _, .discover hpending hvisit⟩

def work (c : Composition) (p : Precision) (w : Worker) : Nat :=
  w.pending.length + (w.actions.map fun a => (c.trans p w.state a 0).1.length + 1).sum

theorem Turn.work (h : w.Turn c p x w' x') : w'.work c p + 1 = w.work c p := by
  cases h with
  | @act a as hactions hpending =>
    have hlength := Composition.length_trans (c := c) (s := w.state) p rfl a x.allocated 0
    simp only [Worker.work, hactions, hpending, List.map_cons, List.sum_cons, List.length_nil]
    omega
  | meet hpending hvisit =>
    simp only [Worker.work, hpending, List.length_cons]
    omega
  | discover hpending hvisit =>
    simp only [Worker.work, hpending, List.length_cons]
    omega

end Worker

namespace Tour
variable {r r' : Tour}

theorem exists_step (h : ¬ r.Done) : ∃ r', Step c p r r' := by
  cases r with
  | between x g => exact ⟨_, .enter h⟩
  | within x team g =>
    by_cases hall : ∀ w ∈ team, w.Done
    · exact ⟨_, .leave hall⟩
    · obtain ⟨w, hw, hnot⟩ : ∃ w ∈ team, ¬ w.Done := by simpa using hall
      obtain ⟨before, after, rfl⟩ := List.append_of_mem hw
      obtain ⟨w', x', hturn⟩ := Worker.exists_turn (c := c) (p := p) x hnot
      exact ⟨_, .turn hturn⟩

def work (c : Composition) (p : Precision) : Tour → Nat
  | .between _ _ => 0
  | .within _ team _ => (team.map (Worker.work c p)).sum + 1

theorem length_explored (hfin : (reachableKeys c p).Finite) (h : Reached c p r) :
    r.history.explored.length ≤ hfin.toFinset.card :=
  length_le_card hfin (explored_nodup h) fun s hs =>
    (once_of_reached h).reachable s (List.mem_append_left _ hs)

def rest (c : Composition) (p : Precision) (total : Nat) (r : Tour) : Nat × Nat :=
  (total - r.history.explored.length, r.work c p)

theorem step_rest {total : Nat} (hle : r'.history.explored.length ≤ total) (h : Step c p r r') :
    Prod.Lex (· < ·) (· < ·) (r'.rest c p total) (r.rest c p total) := by
  cases h with
  | @enter x g hne =>
    apply Prod.Lex.left
    have hpos := List.length_pos_iff.2 hne
    simp only [history, List.length_append] at hle ⊢
    omega
  | @turn x x' before after w w' g hturn =>
    apply Prod.Lex.right
    have hwork := hturn.work
    simp only [work, List.map_append, List.map_cons, List.sum_append, List.sum_cons]
    omega
  | leave hdone => exact .right _ (Nat.succ_pos _)

/-- By induction on what is left, all schedules end. -/
theorem acc_of_reached (hfin : (reachableKeys c p).Finite) (h : Reached c p r) :
    Acc (fun r' r => Step c p r r') r :=
  acc_of_rest (rest c p hfin.toFinset.card) (fun _ _ hs hr => Relation.ReflTransGen.tail hr hs)
    (fun _ _ hs hr => step_rest (length_explored hfin hr) hs) h

theorem not_infinite (hfin : (reachableKeys c p).Finite) :
    ¬ ∃ f : Nat → Tour, f 0 = start c ∧ ∀ i, Step c p (f i) (f (i + 1)) := by
  rintro ⟨f, hstart, hf⟩
  have hacc := acc_of_reached hfin (r := start c) .refl
  exact not_acc_iff_exists_descending_chain.2 ⟨f, hstart, hf⟩ hacc

end Tour
end Consistency.Exploration
