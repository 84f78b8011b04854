import Consistency.Proofs.Composition.Key

/-!
# Bounded steps

A bound on the steps of each thread only forbids the steps that would exceed it.
As a thread never takes a step back, a state in which no thread has exceeded the
bound is reached by steps none of which does.
-/

set_option autoImplicit false

namespace Consistency

def StateKey.Within (bound : Nat) (k : StateKey) : Prop := ∀ l ∈ k.locals, l.steps ≤ bound

namespace Thread
variable {t : Thread} {tracked : OrderedSet String} {bound edge : Nat} {s next : LocalState}

theorem mem_step_bounded : next ∈ t.step ⟨tracked, some bound⟩ s edge ↔
    next ∈ t.step ⟨tracked, none⟩ s edge ∧ s.steps < bound := by
  unfold step
  cases t.automaton.edge? edge with
  | none => simp
  | some e =>
    by_cases hsource : e.source = s.location
    · have hfollow : t.follow ⟨tracked, some bound⟩ s e = t.follow ⟨tracked, none⟩ s e := rfl
      by_cases hlt : s.steps < bound
      · simp [hsource, Precision.exhausted, hlt, hfollow]
      · simp [Precision.exhausted, hlt, Nat.not_lt.1 hlt]
    · simp [hsource]

end Thread

namespace Composition
variable {c : Composition} {p : Precision} {tracked : OrderedSet String} {bound bound' : Nat}
  {s t : GlobalState} {a : Action}

theorem mem_trans_bounded {number : Nat} :
    t ∈ (c.trans ⟨tracked, some bound⟩ s a number).1 ↔
      t ∈ (c.trans ⟨tracked, none⟩ s a number).1 ∧
        ∀ l, s.locals[a.thread]? = some l → l.steps < bound := by
  constructor
  · intro h
    obtain ⟨th, l, next, hth, hl, hstep, hrun, rfl⟩ := mem_trans h
    obtain ⟨hstep, hlt⟩ := Thread.mem_step_bounded.1 hstep
    refine ⟨settle_mem_trans hth hl hrun hstep number, fun m hm => ?_⟩
    rwa [← Option.some.inj (hl.symm.trans hm)]
  · rintro ⟨h, hlt⟩
    obtain ⟨th, l, next, hth, hl, hstep, hrun, rfl⟩ := mem_trans h
    exact settle_mem_trans hth hl hrun (Thread.mem_step_bounded.2 ⟨hstep, hlt l hl⟩) number

/-- The thread that moves had steps left, and no other thread has changed. -/
theorem within_of_trans {number : Nat} (h : t ∈ (c.trans p s a number).1)
    (ht : t.key.Within bound) :
    s.key.Within bound ∧ ∀ l, s.locals[a.thread]? = some l → l.steps < bound := by
  obtain ⟨th, l, next, -, hl, hstep, -, rfl⟩ := mem_trans h
  have hsteps := (Thread.step_counts hstep number).1
  have hi : a.thread < s.locals.length := (List.getElem?_eq_some_iff.1 hl).1
  have hlt : l.steps < bound := by
    have hnext := ht next (List.mem_set hi next)
    omega
  refine ⟨fun m hm => ?_, fun m hm => ?_⟩
  · obtain ⟨j, hj⟩ := List.mem_iff_getElem?.1 hm
    by_cases hji : j = a.thread
    · subst hji
      rw [← Option.some.inj (hl.symm.trans hj)]
      exact Nat.le_of_lt hlt
    · have hkeep : (s.locals.set a.thread next)[j]? = some m :=
        (List.getElem?_set_ne (Ne.symm hji)).trans hj
      exact ht m (List.mem_of_getElem? hkeep)
  · rwa [← Option.some.inj (hl.symm.trans hm)]

theorem within_of_bounded (hs : c.Reachable ⟨tracked, some bound⟩ s) : s.key.Within bound := by
  refine hs.invariant (I := fun s => s.key.Within bound) (fun number l hl => ?_)
    fun s a number t ht h l hl => ?_
  · obtain ⟨th, -, rfl⟩ := List.mem_map.1 hl
    exact Nat.zero_le bound
  · obtain ⟨th, l', next, -, hl', hstep, -, rfl⟩ := mem_trans ht
    rcases List.mem_or_eq_of_mem_set hl with hl | rfl
    · exact h l hl
    · have hlt := (Thread.mem_step_bounded.1 hstep).2
      rw [(Thread.step_counts hstep number).1]
      exact hlt

/-- The bound cuts off the states that lie beyond it, and no others. -/
theorem reachable_bounded_iff : c.Reachable ⟨tracked, some bound⟩ s ↔
    c.Reachable ⟨tracked, none⟩ s ∧ s.key.Within bound := by
  constructor
  · refine fun h => ⟨?_, within_of_bounded h⟩
    exact h.invariant Reachable.init
      fun _ a number _ ht hs => hs.step a number (mem_trans_bounded.1 ht).1
  · rintro ⟨h, hwithin⟩
    induction h with
    | init number => exact .init number
    | step a number hs ht ih =>
      obtain ⟨hbefore, hlt⟩ := within_of_trans ht hwithin
      exact (ih hbefore).step a number (mem_trans_bounded.2 ⟨ht, hlt⟩)

theorem level_le (hn : c.Numbered) (hs : c.Reachable p s) (h : s.key.Within bound) :
    s.level ≤ c.threads.length * bound := by
  have hsum := List.sum_le_card_nsmul (s.locals.map LocalState.steps) bound
    (List.forall_mem_map.2 h)
  rwa [List.length_map, (tidy_of_reachable hn hs).length] at hsum

inductive Trace (c : Composition) (p : Precision) : List Action → GlobalState → Prop where
  | init (number : Nat) : Trace c p [] (c.init number).1
  | step {as : List Action} {s t : GlobalState} (a : Action) (number : Nat) :
      Trace c p as s → t ∈ (c.trans p s a number).1 → Trace c p (as ++ [a]) t

theorem reachable_iff_trace : c.Reachable p s ↔ ∃ as, c.Trace p as s := by
  constructor
  · intro h
    induction h with
    | init number => exact ⟨[], .init number⟩
    | step a number _ ht ih =>
      obtain ⟨as, has⟩ := ih
      exact ⟨as ++ [a], has.step a number ht⟩
  · rintro ⟨as, h⟩
    induction h with
    | init number => exact .init number
    | step a number _ ht ih => exact ih.step a number ht

/-- A thread counts the actions that are its own. -/
theorem Trace.steps {as : List Action} (h : c.Trace p as s) (i : Nat) :
    (as.countP fun a => a.thread == i) = s.locals[i]?.elim 0 LocalState.steps := by
  induction h with
  | init number =>
    show 0 = (c.threads.map Thread.initialState)[i]?.elim 0 LocalState.steps
    rw [List.getElem?_map]
    cases c.threads[i]? with
    | none => rfl
    | some th => rfl
  | step a number _ ht ih =>
    obtain ⟨th, l, next, -, hl, hstep, -, rfl⟩ := mem_trans ht
    rw [List.countP_append, ih]
    show _ = ((_ : GlobalState).locals.set a.thread next)[i]?.elim 0 LocalState.steps
    by_cases hi : a.thread = i
    · subst hi
      have hlt := (List.getElem?_eq_some_iff.1 hl).1
      rw [List.getElem?_set_self hlt, hl]
      simp [(Thread.step_counts hstep number).1]
    · rw [List.getElem?_set_ne hi]
      simp [hi]

/-- A state is within the bound if each thread has taken at most so many actions. -/
theorem Trace.within_iff {as : List Action} (h : c.Trace p as s) :
    s.key.Within bound ↔ ∀ i, (as.countP fun a => a.thread == i) ≤ bound := by
  constructor
  · intro hs i
    rw [h.steps i]
    cases hl : s.locals[i]? with
    | none => exact Nat.zero_le bound
    | some l => exact hs l (List.mem_of_getElem? hl)
  · intro hs l hl
    obtain ⟨i, hi⟩ := List.mem_iff_getElem?.1 hl
    have hi : s.locals[i]? = some l := hi
    have hcount := hs i
    rwa [h.steps i, hi] at hcount

end Composition
end Consistency
