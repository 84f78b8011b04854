import Mathlib.Algebra.Ring.Nat
import Consistency.Proofs.Composition.Cover
import Consistency.Proofs.Composition.Place
import Consistency.Proofs.Term.Order

/-!
# Keys of states

Keys are in linear order. States with equal keys can do the same and end alike,
and whatever one steps to, the other steps to a state with an equal key. A step
leads to a state with one step more, so that equal keys lie on one level.
-/

set_option autoImplicit false

namespace Consistency

instance : Std.TransOrd Owner where
  eq_swap {a b} := by
    cases a <;> cases b <;> first | rfl | exact Std.OrientedOrd.eq_swap (α := Nat)
  isLE_trans {a b c} := by
    cases a <;> cases b <;> cases c <;>
      first | exact Std.TransOrd.isLE_trans (α := Nat) | simp [compare, Owner.order]

instance : Std.LawfulEqOrd Owner where
  compare_self {a} := by cases a <;> first | rfl | exact Std.compare_self (α := Nat)
  eq_of_compare {a b} h := by
    cases a <;> cases b
    case thread.thread => exact congrArg Owner.thread (Std.LawfulEqOrd.eq_of_compare (α := Nat) h)
    case init.init => rfl
    all_goals exact absurd h Ordering.noConfusion

instance : Std.TransOrd EventKind where
  eq_swap {a b} := by cases a <;> cases b <;> decide
  isLE_trans {a b c} := by cases a <;> cases b <;> cases c <;> decide

instance : Std.LawfulEqOrd EventKind where
  compare_self {a} := by cases a <;> decide
  eq_of_compare {a b} := by cases a <;> cases b <;> decide

namespace EventShape

instance : Std.TransOrd EventShape :=
  inferInstanceAs (Std.TransCmp (compareLex (compareOn owner) (compareLex (compareOn index)
    (compareLex (compareOn var) (compareLex (compareOn kind) (compareOn value))))))

instance : Std.LawfulEqOrd EventShape where
  compare_self {s} := by
    show order s s = .eq
    simp only [order, Std.compare_self, Ordering.eq_then]
  eq_of_compare {s t} h := by
    have h : order s t = .eq := h
    simp only [order, Ordering.then_eq_eq, Std.LawfulEqOrd.compare_eq_iff_eq] at h
    cases s
    cases t
    simpa using h

end EventShape

namespace LocalState

instance : Std.TransOrd LocalState :=
  inferInstanceAs (Std.TransCmp (compareLex (compareOn location) (compareLex (compareOn valuation)
    (compareLex (compareOn constraints) (compareLex (compareOn accesses) (compareOn steps))))))

instance : Std.LawfulEqOrd LocalState where
  compare_self {s} := by
    show order s s = .eq
    simp only [order, Std.compare_self, Ordering.eq_then]
  eq_of_compare {s t} h := by
    have h : order s t = .eq := h
    simp only [order, Ordering.then_eq_eq, Std.LawfulEqOrd.compare_eq_iff_eq] at h
    cases s
    cases t
    simpa using h

end LocalState

namespace StateKey

instance : Std.TransOrd StateKey :=
  inferInstanceAs (Std.TransCmp (compareLex (compareOn locals) (compareLex (compareOn events)
    (compareOn terminated))))

instance : Std.LawfulEqOrd StateKey where
  compare_self {s} := by
    show order s s = .eq
    simp only [order, Std.compare_self, Ordering.eq_then]
  eq_of_compare {s t} h := by
    have h : order s t = .eq := h
    simp only [order, Ordering.then_eq_eq, Std.LawfulEqOrd.compare_eq_iff_eq] at h
    cases s
    cases t
    simpa using h

end StateKey

namespace GlobalState
variable {s u : GlobalState}

def level (s : GlobalState) : Nat := (s.locals.map LocalState.steps).sum

theorem shapes_eq_iff : s.shapes = u.shapes ↔
    (s.emitted.map Event.shape).Perm (u.emitted.map Event.shape) := by
  constructor
  · intro h
    exact s.shapes_perm.symm.trans ((List.Perm.of_eq h).trans u.shapes_perm)
  · exact mergeSort_eq_of_perm

theorem key_eq_iff : s.key = u.key ↔ s.locals = u.locals ∧
    (s.emitted.map Event.shape).Perm (u.emitted.map Event.shape) ∧
      s.terminated = u.terminated := by
  rw [key, key, StateKey.mk.injEq, shapes_eq_iff]
  have hset : s.terminated.toList = u.terminated.toList ↔ s.terminated = u.terminated := by
    cases s.terminated
    cases u.terminated
    simp
  rw [hset]

theorem level_of_key (h : s.key = u.key) : s.level = u.level := by
  rw [level, level, (key_eq_iff.1 h).1]

theorem isTerminal_of_key (h : s.key = u.key) : s.isTerminal = u.isTerminal := by
  obtain ⟨hlocals, -, hterminated⟩ := key_eq_iff.1 h
  rw [isTerminal, isTerminal, hlocals, hterminated]

end GlobalState

namespace Composition
variable {c : Composition} {p : Precision} {s t u : GlobalState} {a : Action}

/-- The key of the initial state, whatever numbers its events get. -/
theorem init_key (c : Composition) (number number' : Nat) :
    (c.init number).1.key = (c.init number').1.key := by
  refine GlobalState.key_eq_iff.2 ⟨rfl, .of_eq ?_, rfl⟩
  simp only [init, initialEvents, List.map_reverse, List.map_map]
  rfl

theorem level_init (c : Composition) (number : Nat) : (c.init number).1.level = 0 := by
  apply List.sum_eq_zero
  intro n hn
  obtain ⟨l, hl, rfl⟩ := List.mem_map.1 hn
  obtain ⟨t, -, rfl⟩ := List.mem_map.1 hl
  rfl

theorem enabled_of_key (h : s.key = u.key) : c.enabled s = c.enabled u := by
  obtain ⟨hlocals, -, hterminated⟩ := GlobalState.key_eq_iff.1 h
  rw [enabled, enabled, hlocals, hterminated]

/-- The successors by an action, for each state that the thread may go to. -/
theorem trans_fst (c : Composition) (p : Precision) (s : GlobalState) (a : Action) (number : Nat) :
    (c.trans p s a number).1 = match c.threads[a.thread]?, s.locals[a.thread]? with
      | some t, some l => if s.terminated.contains a.thread then [] else
          (t.step p l a.edge).map
            (settle s (t.emit l a.edge number ++ s.emitted) a.thread t)
      | _, _ => [] := by
  unfold trans
  cases c.threads[a.thread]? with
  | none => rfl
  | some t =>
    cases s.locals[a.thread]? with
    | none => rfl
    | some l =>
      simp only
      split
      · rfl
      · cases t.step p l a.edge with
        | nil => rfl
        | cons next rest => cases hx : t.access l a.edge <;> simp [Thread.emit, hx]

theorem shapes_emit (t : Thread) (l : LocalState) (edge number number' : Nat) :
    (t.emit l edge number).map Event.shape = (t.emit l edge number').map Event.shape := by
  rw [Thread.emit, Thread.emit]
  cases t.access l edge <;> rfl

/-- What a state steps to is told by its key, whatever numbers events get. -/
theorem trans_key (h : s.key = u.key) (a : Action) (number number' : Nat) :
    (c.trans p s a number).1.map GlobalState.key =
      (c.trans p u a number').1.map GlobalState.key := by
  obtain ⟨hlocals, hshapes, hterminated⟩ := GlobalState.key_eq_iff.1 h
  rw [trans_fst, trans_fst, hlocals, hterminated]
  split
  · next t l _ _ =>
    split
    · rfl
    · rw [List.map_map, List.map_map]
      refine List.map_congr_left fun next _ => GlobalState.key_eq_iff.2 ⟨?_, ?_, ?_⟩
      · rw [settle, settle, hlocals]
      · simp only [settle, List.map_append, shapes_emit t l a.edge number number']
        exact hshapes.append_left _
      · rw [settle, settle, hterminated]
  · rfl

theorem exists_trans_of_key (h : u.key = s.key) {number : Nat}
    (ht : t ∈ (c.trans p s a number).1) (number' : Nat) :
    ∃ t' ∈ (c.trans p u a number').1, t'.key = t.key := by
  have hmem : t.key ∈ (c.trans p s a number).1.map GlobalState.key := List.mem_map_of_mem ht
  rw [← trans_key h a number' number] at hmem
  exact List.mem_map.1 hmem

theorem length_trans (p : Precision) (h : s.key = u.key) (a : Action) (number number' : Nat) :
    (c.trans p s a number).1.length = (c.trans p u a number').1.length := by
  have hkeys := congrArg List.length (trans_key (c := c) (p := p) h a number number')
  rwa [List.length_map, List.length_map] at hkeys

theorem sum_set {ns : List Nat} {i n : Nat} (h : ns[i]? = some n) :
    (ns.set i (n + 1)).sum = ns.sum + 1 := by
  induction ns generalizing i with
  | nil => exact absurd h (by simp)
  | cons m ns ih =>
    cases i with
    | zero =>
      obtain rfl := Option.some.inj h
      simp only [List.set_cons_zero, List.sum_cons]
      omega
    | succ i =>
      simp only [List.set_cons_succ, List.sum_cons, ih h]
      omega

/-- Each step is counted. -/
theorem level_trans {number : Nat} (h : t ∈ (c.trans p s a number).1) :
    t.level = s.level + 1 := by
  obtain ⟨th, l, next, -, hl, hstep, -, rfl⟩ := mem_trans h
  obtain ⟨hlt, hl⟩ := List.getElem?_eq_some_iff.1 hl
  have hsteps := (Thread.step_counts hstep number).1
  rw [GlobalState.level, GlobalState.level, settle, List.map_set, hsteps]
  have hget : (s.locals.map LocalState.steps)[a.thread]? = some l.steps := by
    simp [hlt, hl]
  exact sum_set hget

theorem mem_enabled_of_trans (hs : c.Tidy s) {number : Nat}
    (h : t ∈ (c.trans p s a number).1) : s.isTerminal = false ∧ a ∈ c.enabled s := by
  obtain ⟨th, l, next, hth, hl, hstep, hrun, rfl⟩ := mem_trans h
  obtain ⟨e, he, hsource, -⟩ := Thread.mem_step hstep
  have hout : a.edge ∈ th.automaton.outgoing l.location := Automaton.mem_outgoing.2 ⟨e, he, hsource⟩
  refine ⟨?_, hs.mem_enabled hth hl hout⟩
  rw [Bool.eq_false_iff]
  intro hterminal
  have hterm := hs.isTerminal_iff.1 hterminal a.thread th l hth hl
  rw [← hs.terminated_at hth hl, hrun] at hterm
  exact absurd hterm (by decide)

end Composition
end Consistency
