import Consistency.Proofs.Composition.Cover
import Consistency.Proofs.Composition.Key
import Consistency.Proofs.Run

/-!
# Monotonicity

A thread that lies under another can do the same, label by label, and comes to
lie under what the other becomes. So whatever a state can do, each state that
it lies under can do as well, and both come to an end together.
-/

set_option autoImplicit false

namespace Consistency

namespace LocalState
variable {s u : LocalState}

theorem Under.location (h : s.Under u) : s.location = u.location := by
  show s.bare.location = u.bare.location
  rw [h.bare]

theorem Under.valuation (h : s.Under u) : s.valuation = u.valuation := by
  show s.bare.valuation = u.bare.valuation
  rw [h.bare]

theorem Under.accesses (h : s.Under u) : s.accesses = u.accesses := by
  show s.bare.accesses = u.bare.accesses
  rw [h.bare]

theorem Under.steps (h : s.Under u) : s.steps = u.steps := by
  show s.bare.steps = u.bare.steps
  rw [h.bare]

/-- Constraints are not looked at when an expression is evaluated. -/
theorem Under.eval (h : s.Under u) (t : Term) : s.eval t = u.eval t := by
  simp only [LocalState.eval, register, h.valuation]

theorem Under.advance (h : s.Under u) (e : Edge) :
    (Thread.advance s e).Under (Thread.advance u e) := by
  constructor
  · simp only [Thread.advance, LocalState.bare, h.valuation, h.accesses, h.steps]
  · exact h.constraints

theorem Under.assign (h : s.Under u) (reg : String) (value : Term) :
    (s.assign reg value).Under (u.assign reg value) := by
  constructor
  · simp only [LocalState.assign, LocalState.bare, h.location, h.valuation, h.accesses, h.steps]
  · exact h.constraints

theorem Under.constrain (h : s.Under u) (guard : Term) :
    (s.constrain guard).Under (u.constrain guard) := by
  constructor
  · exact h.bare
  · intro g hg
    rcases OrderedSet.mem_insert.1 hg with rfl | hg
    · exact OrderedSet.mem_insert.2 (.inl rfl)
    · exact OrderedSet.mem_insert.2 (.inr (h.constraints hg))

end LocalState

namespace Thread
variable {t : Thread} {p : Precision} {s u next next' : LocalState}

theorem choose_under (h : s.Under u) (hn : next.Under next') (reg : String) (values : List Int) :
    List.Forall₂ LocalState.Under (t.choose p s next reg values)
      (t.choose p u next' reg values) := by
  unfold choose
  simp only [h.steps]
  split
  · exact .nil
  · split
    · rw [List.forall₂_map_left_iff, List.forall₂_map_right_iff, List.forall₂_same]
      intro v hv
      exact hn.assign reg (.int v)
    · exact .cons ((hn.constrain _).assign reg _) .nil

/-- Guards are the same for both, so that what is left open is left open for both. -/
theorem follow_under (h : s.Under u) (e : Edge) :
    List.Forall₂ LocalState.Under (t.follow p s e) (t.follow p u e) := by
  have hn := h.advance e
  unfold follow
  cases e.label with
  | skip => exact .cons hn .nil
  | store var value => exact .cons hn .nil
  | assume cond =>
    simp only [h.eval]
    split
    · exact .cons hn .nil
    · exact .nil
    · exact .cons (hn.constrain _) .nil
  | assign reg value =>
    simp only [h.eval]
    exact .cons (hn.assign reg _) .nil
  | nondet reg values => exact choose_under h hn reg values
  | load reg var =>
    simp only [h.accesses]
    exact .cons (hn.assign reg _) .nil

theorem step_under (h : s.Under u) (edge : Nat) :
    List.Forall₂ LocalState.Under (t.step p s edge) (t.step p u edge) := by
  unfold step
  split
  · exact .nil
  · next e he =>
    rw [h.location, h.steps]
    split
    · exact .nil
    · exact follow_under h e

theorem emit_under (h : s.Under u) (edge number number' : Nat) :
    (t.emit s edge number).map Event.shape = (t.emit u edge number').map Event.shape := by
  rw [← emit_bare t s, ← emit_bare t u, h.bare]
  exact Composition.shapes_emit t u.bare edge number number'

end Thread

namespace GlobalState.Under
variable {c : Composition} {p : Precision} {s u : GlobalState} {i : Nat}

/-- States with as many threads correspond thread by thread. -/
theorem getElem? (h : s.Under u) (hlen : s.locals.length = u.locals.length) (i : Nat) :
    (s.locals[i]? = none ∧ u.locals[i]? = none) ∨
      ∃ l m, s.locals[i]? = some l ∧ u.locals[i]? = some m ∧ l.Under m := by
  cases hm : u.locals[i]? with
  | none =>
    refine .inl ⟨?_, rfl⟩
    rw [List.getElem?_eq_none_iff] at hm ⊢
    omega
  | some m =>
    obtain ⟨l, hl, hlm⟩ := h.locals i m hm
    exact .inr ⟨l, m, hl, rfl, hlm⟩

theorem constraints (h : s.Under u) : u.constraints.toList ⊆ s.constraints.toList := by
  intro g hg
  obtain ⟨m, hm, hg⟩ := mem_constraints.1 hg
  obtain ⟨i, hi⟩ := List.mem_iff_getElem?.1 hm
  obtain ⟨l, hl, hlm⟩ := h.locals i m hi
  exact mem_constraints.2 ⟨l, List.mem_of_getElem? hl, hlm.constraints hg⟩

theorem length (hs : c.Tidy s) (hu : c.Tidy u) : s.locals.length = u.locals.length :=
  hs.length.trans hu.length.symm

theorem map_locals {α : Type} {f : LocalState → α} (h : s.Under u)
    (hlen : s.locals.length = u.locals.length) (hf : ∀ l m : LocalState, l.Under m → f l = f m) :
    s.locals.map f = u.locals.map f := by
  apply List.ext_getElem?
  intro i
  rw [List.getElem?_map, List.getElem?_map]
  rcases h.getElem? hlen i with ⟨hl, hm⟩ | ⟨l, m, hl, hm, hlm⟩
  · rw [hl, hm]
  · rw [hl, hm, Option.map_some, Option.map_some, hf l m hlm]

theorem terminated (h : s.Under u) (hs : c.Tidy s) (hu : c.Tidy u) (i : Nat) :
    s.terminated.contains i = u.terminated.contains i := by
  have hmem : ∀ v : GlobalState, v.terminated.contains i = true ↔ i ∈ v.terminated.toList := by
    intro v
    simp [OrderedSet.contains]
  rw [Bool.eq_iff_iff, hmem, hmem, hs.terminated, hu.terminated]
  rcases h.getElem? (length hs hu) i with ⟨hl, hm⟩ | ⟨l, m, hl, hm, hlm⟩
  · simp [hl, hm]
  · simp [hl, hm, Thread.isTerminated, hlm.location]

theorem isTerminal (h : s.Under u) (hs : c.Tidy s) (hu : c.Tidy u) :
    s.isTerminal = u.isTerminal := by
  rw [Bool.eq_iff_iff, hs.isTerminal_iff, hu.isTerminal_iff]
  apply forall_congr'
  intro i
  rcases h.getElem? (length hs hu) i with ⟨hl, hm⟩ | ⟨l, m, hl, hm, hlm⟩
  · simp [hl, hm]
  · simp [hl, hm, Thread.isTerminated, hlm.location]

/-- A thread that moves on in both states. -/
theorem settle (h : s.Under u) (hlen : s.locals.length = u.locals.length) {es fs : List Event}
    {th : Thread} {next next' : LocalState} (hn : next.Under next')
    (he : (es.map Event.shape).Perm (fs.map Event.shape)) :
    (Composition.settle s (es ++ s.emitted) i th next).Under
      (Composition.settle u (fs ++ u.emitted) i th next') where
  locals := by
    intro j m hm
    simp only [Composition.settle, List.getElem?_set] at hm ⊢
    by_cases hij : i = j
    · subst hij
      by_cases hlt : i < u.locals.length
      · rw [if_pos rfl, if_pos hlt] at hm
        obtain rfl := Option.some.inj hm
        rw [if_pos rfl, if_pos (hlen ▸ hlt)]
        exact ⟨next, rfl, hn⟩
      · rw [if_pos rfl, if_neg hlt] at hm
        exact absurd hm (by simp)
    · rw [if_neg hij] at hm ⊢
      exact h.locals j m hm
  shapes := by
    simp only [Composition.settle, List.map_append]
    exact he.append h.shapes

/-- The successors of one state are related to those of the other, one by one, if a thread that
moves on in both relates them. -/
theorem forall₂_trans {R : GlobalState → GlobalState → Prop} {a : Action} {number number' : Nat}
    (h : s.Under u) (hlen : s.locals.length = u.locals.length)
    (hdone : s.terminated.contains a.thread = u.terminated.contains a.thread)
    (hsettle : ∀ {es fs : List Event} {th : Thread} {next next' : LocalState}, next.Under next' →
      (es.map Event.shape).Perm (fs.map Event.shape) →
        R (Composition.settle s (es ++ s.emitted) a.thread th next)
          (Composition.settle u (fs ++ u.emitted) a.thread th next')) :
    List.Forall₂ R (c.trans p s a number).1 (c.trans p u a number').1 := by
  rw [Composition.trans_fst, Composition.trans_fst]
  cases c.threads[a.thread]? with
  | none => exact .nil
  | some th =>
    rcases h.getElem? hlen a.thread with ⟨hl, hm⟩ | ⟨l, m, hl, hm, hlm⟩
    · simp only [hl, hm]
      exact .nil
    · simp only [hl, hm, hdone]
      split
      · exact .nil
      · rw [List.forall₂_map_left_iff, List.forall₂_map_right_iff]
        apply (Thread.step_under hlm a.edge).imp
        intro next next' hn
        exact hsettle hn (.of_eq (Thread.emit_under hlm a.edge number number'))

theorem exists_trans {t : GlobalState} (h : s.Under u) (hs : c.Tidy s) (hu : c.Tidy u)
    {a : Action} {number : Nat} (ht : t ∈ (c.trans p s a number).1) (number' : Nat) :
    ∃ t' ∈ (c.trans p u a number').1, t.Under t' := by
  have hlen := length hs hu
  have hall : List.Forall₂ GlobalState.Under (c.trans p s a number).1 (c.trans p u a number').1 :=
    h.forall₂_trans hlen (h.terminated hs hu a.thread) (h.settle hlen)
  exact forall₂_mem_left hall ht

end GlobalState.Under
end Consistency
