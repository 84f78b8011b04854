import Consistency.Proofs.Check.Scenario
import Consistency.Proofs.Exploration.Levels

/-!
# Executions are explored

An execution is followed through the explored states. After some moves of each
thread there is an explored state that has come as far, with constraints that
are true; when all moves are made it is terminal and has the events of the
execution.
-/

set_option autoImplicit false

namespace Consistency

theorem flatMap_perm {β : Type} {ts : List Thread} {th : Thread} {f g : Thread → List β}
    {es : List β} (hn : ts.Pairwise fun s t => s.id ≠ t.id) (hth : th ∈ ts)
    (hother : ∀ t, t.id ≠ th.id → f t = g t) (hself : (f th).Perm (es ++ g th)) :
    (ts.flatMap f).Perm (es ++ ts.flatMap g) := by
  induction ts with
  | nil => exact absurd hth (by simp)
  | cons t ts ih =>
    rw [List.pairwise_cons] at hn
    rw [List.flatMap_cons, List.flatMap_cons]
    rcases List.mem_cons.1 hth with rfl | hmem
    · have hrest : ts.flatMap f = ts.flatMap g :=
        List.flatMap_congr fun t ht => hother t (hn.1 t ht).symm
      rw [hrest, ← List.append_assoc]
      exact hself.append_right _
    · rw [hother t (hn.1 th hmem), ← List.append_assoc]
      refine ((ih hn.2 hmem).append_left (g t)).trans ?_
      rw [← List.append_assoc]
      exact List.perm_append_comm.append_right _

namespace Composition
variable {c : Composition}

theorem Numbered.increasing (hn : c.Numbered) : c.threads.Pairwise fun s t => s.id < t.id := by
  refine List.pairwise_iff_getElem.2 fun i j hi hj hij => ?_
  rw [hn i _ (List.getElem?_eq_getElem hi), hn j _ (List.getElem?_eq_getElem hj)]
  exact hij

theorem Numbered.distinct (hn : c.Numbered) : c.threads.Pairwise fun s t => s.id ≠ t.id :=
  hn.increasing.imp Nat.ne_of_lt

theorem initial_shapes (c : Composition) (number : Nat) :
    (c.initialEvents number).map Event.shape =
      c.initialOccurrences.map fun o => o.event.shape := by
  rw [initialEvents, initialOccurrences, List.map_map, List.map_map]
  rfl

end Composition

namespace Scenario
open Consistency.Composition
variable {x : Scenario} {c : Composition} {p : Precision} {m : MemoryModel} {o : Outcome}
  {v : Valuation} {pos : Nat → Nat} {s u : GlobalState} {t : Thread}

def Recalled (x : Scenario) (c : Composition) (p : Precision) (v : Valuation) : Prop :=
  ∀ t ∈ c.threads, t.RecallsAll v p t.initialState (x.moves t.id)

def stateAt (x : Scenario) (p : Precision) (t : Thread) (k : Nat) : LocalState :=
  t.trackAll p t.initialState ((x.moves t.id).take k)

def shapesAt (x : Scenario) (p : Precision) (k : Nat → Nat) (t : Thread) : List EventShape :=
  (t.occurrences p t.initialState ((x.moves t.id).take (k t.id))).map fun o => o.event.shape

/-- The state has come as far in the execution as `pos` says of each thread. -/
structure At (x : Scenario) (c : Composition) (p : Precision) (v : Valuation) (pos : Nat → Nat)
    (s : GlobalState) : Prop where
  locals : ∀ (i : Nat) (t : Thread) (l : LocalState), c.threads[i]? = some t →
    s.locals[i]? = some l → l.bare = x.stateAt p t (pos t.id) ∧ l.Feasible v
  shapes : (s.emitted.map Event.shape).Perm
    (c.initialOccurrences.map (fun o => o.event.shape) ++ c.threads.flatMap (x.shapesAt p pos))

theorem At.under (h : x.At c p v pos s) (hu : s.Under u) : x.At c p v pos u where
  locals := by
    intro i t l ht hl
    obtain ⟨l', hl', hle⟩ := hu.locals i l hl
    obtain ⟨hbare, hfeasible⟩ := h.locals i t l' ht hl'
    exact ⟨hle.bare.symm.trans hbare, hle.feasible hfeasible⟩
  shapes := hu.shapes.symm.trans h.shapes

theorem init_at (x : Scenario) (c : Composition) (p : Precision) (v : Valuation) (number : Nat) :
    x.At c p v (fun _ => 0) (c.init number).1 where
  locals := by
    intro i t l ht hl
    have hstart : l = t.initialState := by
      simpa [init, ht, eq_comm] using hl
    subst hstart
    exact ⟨rfl, by simp [LocalState.Feasible, Thread.initialState, LocalState.start,
      OrderedSet.empty]⟩
  shapes := by
    have hnone : c.threads.flatMap (x.shapesAt p fun _ => 0) = [] :=
      List.flatMap_eq_nil_iff.2 fun _ _ => rfl
    rw [hnone, List.append_nil, ← initial_shapes c number]
    exact (List.reverse_perm _).map Event.shape

/-- A thread makes one move. -/
theorem At.settle (h : x.At c p v pos s) (hn : c.Numbered) {i : Nat} {l next : LocalState}
    {m : Move} (ht : c.threads[i]? = some t) (hl : s.locals[i]? = some l)
    (hm : (x.moves t.id)[pos t.id]? = some m) (number : Nat)
    (hbare : next.bare = t.track p (x.stateAt p t (pos t.id)) m) (hfeasible : next.Feasible v) :
    x.At c p v (Function.update pos t.id (pos t.id + 1))
      (Composition.settle s (t.emit l m.edge number ++ s.emitted) i t next) where
  locals := by
    intro j t' l' ht' hl'
    have hid := hn i t ht
    have hid' := hn j t' ht'
    by_cases hj : j = i
    · subst hj
      obtain rfl := Option.some.inj (ht.symm.trans ht')
      have hlt := (List.getElem?_eq_some_iff.1 hl).1
      have hself : (Composition.settle s (t.emit l m.edge number ++ s.emitted) j t
          next).locals[j]? = some next := List.getElem?_set_self hlt
      obtain rfl := Option.some.inj (hself.symm.trans hl')
      rw [Function.update_self, stateAt, Thread.trackAll_take hm]
      exact ⟨hbare, hfeasible⟩
    · have hother : (Composition.settle s (t.emit l m.edge number ++ s.emitted) i t
          next).locals[j]? = s.locals[j]? := List.getElem?_set_ne (Ne.symm hj)
      rw [hother] at hl'
      rw [Function.update_of_ne (by rw [hid, hid']; exact hj)]
      exact h.locals j t' l' ht' hl'
  shapes := by
    have hbefore := (h.locals i t l ht hl).1
    have hone : (t.occurs (x.stateAt p t (pos t.id)) m).map (fun o => o.event.shape) =
        (t.emit l m.edge number).map Event.shape := by
      rw [← hbefore, Thread.occurs, Thread.emit_bare, List.map_map]
      unfold Thread.emit
      cases t.access l m.edge <;> rfl
    have hself : (x.shapesAt p (Function.update pos t.id (pos t.id + 1)) t).Perm
        ((t.emit l m.edge number).map Event.shape ++ x.shapesAt p pos t) := by
      rw [shapesAt, Function.update_self, Thread.occurrences_take hm, List.map_append]
      exact List.perm_append_comm.trans (.of_eq (congrArg (· ++ _) hone))
    have hother : ∀ t', t'.id ≠ t.id →
        x.shapesAt p (Function.update pos t.id (pos t.id + 1)) t' = x.shapesAt p pos t' := by
      intro t' hne
      rw [shapesAt, shapesAt, Function.update_of_ne hne]
    have hall := flatMap_perm hn.distinct (List.mem_of_getElem? ht) hother hself
    have hnew := (h.shapes.append_left ((t.emit l m.edge number).map Event.shape)).trans
      (List.perm_append_comm_assoc _ _ _)
    rw [Composition.settle, List.map_append]
    exact hnew.trans (hall.symm.append_left _)

section Following
variable {Q : TerminalGraph → Prop} {K : GlobalState → Prop}
variable (hn : c.Numbered) (hx : x.Exhibits c p m o) (hv : x.Recalled c p v)
  (hK : ∀ s, K s → Exploration.Explored c p Q K s)
include hn hx hv hK

/-- Some explored state has made the next move of a thread as well. -/
theorem exists_next (hs : K s) (hat : x.At c p v pos s) {i : Nat} (ht : c.threads[i]? = some t)
    (hlt : pos t.id < (x.moves t.id).length) :
    ∃ u, K u ∧ x.At c p v (Function.update pos t.id (pos t.id + 1)) u := by
  have hmem := List.mem_of_getElem? ht
  have htidy := tidy_of_reachable hn (hK s hs).reachable
  have hi : i < s.locals.length := htidy.length ▸ (List.getElem?_eq_some_iff.1 ht).1
  have hl := List.getElem?_eq_getElem hi
  have hm := List.getElem?_eq_getElem hlt
  obtain ⟨hbare, hfeasible⟩ := hat.locals i t _ ht hl
  obtain ⟨μ, hμ, -, -⟩ := hx.ends t hmem
  obtain ⟨μ₁, μ₂, hplay, hmove, -⟩ := Thread.play_take hμ hm
  obtain ⟨hbefore, hrecalls⟩ := (hv t hmem).at hm
  have hagrees := Thread.trackAll_agrees (LocalState.start_agrees v _) hbefore hplay
  have hbound : p.exhausted (x.stateAt p t (pos t.id)).steps = false := by
    have hsteps := Thread.trackAll_steps (p := p) hplay t.initialState
    rw [List.length_take_of_le (Nat.le_of_lt hlt)] at hsteps
    have hcount : (x.stateAt p t (pos t.id)).steps = pos t.id :=
      hsteps.trans (Nat.zero_add _)
    rw [hcount, Precision.exhausted]
    cases hp : p.stepBound with
    | none => rfl
    | some bound =>
      have hle := hx.bounded t hmem bound hp
      simp only [decide_eq_false_iff_not]
      omega
  obtain ⟨next, hnext, hnextBare, hnextFeasible⟩ :=
    Thread.exists_step hbare hfeasible hagrees hrecalls hmove hbound
  have hout : (x.moves t.id)[pos t.id].edge ∈ t.automaton.outgoing s.locals[i].location := by
    obtain ⟨e, registers, he, hsource, -, -⟩ := Thread.move_edge hmove
    have hlocation : s.locals[i].bare.location = (x.stateAt p t (pos t.id)).location :=
      congrArg LocalState.location hbare
    exact Automaton.mem_outgoing.2
      ⟨e, he, hsource.trans (hagrees.location.symm.trans hlocation.symm)⟩
  have hrun : t.isTerminated s.locals[i] = false := by
    rw [Thread.isTerminated, Bool.eq_false_iff]
    exact fun hterm => Automaton.isTerminal_iff.1 hterm _ hout
  have hlive : s.isTerminal = false := by
    rw [Bool.eq_false_iff]
    intro hterm
    rw [htidy.isTerminal_iff.1 hterm i t _ ht hl] at hrun
    exact absurd hrun (by decide)
  obtain ⟨number, hsuccessors⟩ := (hK s hs).successors hlive _ (htidy.mem_enabled ht hl hout)
  have htrans := settle_mem_trans ht hl ((htidy.terminated_at ht hl).trans hrun) hnext number
  obtain ⟨u, hu, hunder⟩ := hsuccessors _ htrans
  exact ⟨u, hu, (hat.settle hn ht hl hm number hnextBare hnextFeasible).under hunder⟩

/-- Some explored state has made all moves of a thread. -/
theorem exists_finished (hs : K s) (hat : x.At c p v pos s) {i : Nat}
    (ht : c.threads[i]? = some t) (hle : pos t.id ≤ (x.moves t.id).length) :
    ∃ u, K u ∧ x.At c p v (Function.update pos t.id (x.moves t.id).length) u := by
  obtain ⟨left, hleft⟩ := Nat.exists_eq_add_of_le hle
  induction left generalizing pos s with
  | zero =>
    rw [hleft, Nat.add_zero, Function.update_eq_self]
    exact ⟨s, hs, hat⟩
  | succ left ih =>
    obtain ⟨u, hu, hnext⟩ := exists_next hn hx hv hK hs hat ht (by omega)
    have hgo := ih hu hnext (by rw [Function.update_self]; omega)
      (by rw [Function.update_self]; omega)
    rwa [Function.update_idem] at hgo

/-- Thread by thread, all moves are made. -/
theorem exists_done (hstart : K (c.init 0).1) : ∃ pos u, K u ∧ x.At c p v pos u ∧
    ∀ t ∈ c.threads, pos t.id = (x.moves t.id).length := by
  have hsome : ∀ n, n ≤ c.threads.length → ∃ pos u, K u ∧ x.At c p v pos u ∧
      ∀ i, pos i = if i < n then (x.moves i).length else 0 := by
    intro n
    induction n with
    | zero => exact fun _ => ⟨_, _, hstart, init_at x c p v 0, by simp⟩
    | succ n ih =>
      intro hlt
      obtain ⟨pos, s, hs, hat, hpos⟩ := ih (Nat.le_of_succ_le hlt)
      have ht := List.getElem?_eq_getElem hlt
      have hid := hn n _ ht
      have hzero : pos c.threads[n].id = 0 := by
        rw [hpos, hid, if_neg (Nat.lt_irrefl n)]
      obtain ⟨u, hu, hdone⟩ := exists_finished hn hx hv hK hs hat ht (by rw [hzero]; omega)
      refine ⟨_, u, hu, hdone, fun i => ?_⟩
      rw [hid]
      by_cases hi : i = n
      · subst hi
        rw [Function.update_self, if_pos (Nat.lt_succ_self i)]
      · rw [Function.update_of_ne hi, hpos]
        have hsame : i < n ↔ i < n + 1 := by omega
        simp only [hsame]
  obtain ⟨pos, u, hu, hat, hpos⟩ := hsome _ (Nat.le_refl _)
  refine ⟨pos, u, hu, hat, fun t ht => ?_⟩
  obtain ⟨i, hi⟩ := List.mem_iff_getElem?.1 ht
  rw [hpos, hn i t hi, if_pos (List.getElem?_eq_some_iff.1 hi).1]

end Following
end Scenario
end Consistency
