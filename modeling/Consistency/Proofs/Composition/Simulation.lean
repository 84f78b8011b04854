import Mathlib
import Consistency.Proofs.Composition.Monotone

/-!
# The order that states are pruned by

To be covered is to lie under another state with the same threads at an end.
This is a preorder and a forward simulation: a covering state takes every step
that the covered one takes, and comes to as many states, which cover those of
the other one by one. So no run is lost when the covered state is left out.
-/

set_option autoImplicit false

namespace Consistency

theorem LocalState.coveredBy_iff {s u : LocalState} : s.coveredBy u = true ↔ s.Under u := by
  constructor
  · exact under_of_coveredBy
  · intro h
    simp only [coveredBy, h.location, h.accesses, h.steps, h.valuation, beq_self_eq_true,
      Bool.true_and, OrderedSet.subset, List.all_eq_true]
    intro g hg
    exact List.contains_iff_mem.2 (h.constraints hg)

namespace GlobalState
variable {c : Composition} {p : Precision} {s t u : GlobalState}

structure Covered (s u : GlobalState) : Prop extends s.Under u where
  length : s.locals.length = u.locals.length
  terminated : s.terminated = u.terminated

theorem coveredBy_iff : s.coveredBy u = true ↔ s.Covered u := by
  constructor
  · intro h
    have hunder := under_of_coveredBy h
    simp only [coveredBy, Bool.and_eq_true, beq_iff_eq] at h
    exact ⟨hunder, h.1.1.1, h.1.1.2⟩
  · intro h
    simp only [coveredBy, h.length, h.terminated, shapes_eq_iff.2 h.shapes, beq_self_eq_true,
      Bool.true_and, Bool.and_true, List.all_eq_true]
    intro q hq
    obtain ⟨i, hi⟩ := List.mem_iff_getElem?.1 hq
    obtain ⟨hl, hm⟩ := List.getElem?_zip_eq_some.1 hi
    obtain ⟨l, hl', hlm⟩ := h.locals i _ hm
    obtain rfl := Option.some.inj (hl'.symm.trans hl)
    exact LocalState.coveredBy_iff.2 hlm

namespace Covered

theorem refl (s : GlobalState) : s.Covered s where
  locals := fun _ l hl => ⟨l, hl, .refl l⟩
  shapes := .refl _
  length := rfl
  terminated := rfl

theorem trans (h : s.Covered t) (k : t.Covered u) : s.Covered u where
  toUnder := h.toUnder.trans k.toUnder
  length := h.length.trans k.length
  terminated := h.terminated.trans k.terminated

theorem isTerminal (h : s.Covered u) : s.isTerminal = u.isTerminal := by
  rw [GlobalState.isTerminal, h.terminated, h.length, GlobalState.isTerminal]

/-- A thread ends in both states or in neither, as it comes to the same location. -/
theorem settle {es fs : List Event} {i : Nat} {th : Thread} {next next' : LocalState}
    (h : s.Covered u) (hn : next.Under next')
    (he : (es.map Event.shape).Perm (fs.map Event.shape)) :
    (Composition.settle s (es ++ s.emitted) i th next).Covered
      (Composition.settle u (fs ++ u.emitted) i th next') where
  toUnder := h.toUnder.settle h.length hn he
  length := by
    simp only [Composition.settle, List.length_set]
    exact h.length
  terminated := by
    have hend : th.isTerminated next = th.isTerminated next' := by
      rw [Thread.isTerminated, hn.location, Thread.isTerminated]
    simp only [Composition.settle, hend, h.terminated]

theorem forall₂_trans (h : s.Covered u) (a : Action) (number number' : Nat) :
    List.Forall₂ Covered (c.trans p s a number).1 (c.trans p u a number').1 := by
  apply h.toUnder.forall₂_trans h.length
  · rw [h.terminated]
  · exact h.settle

end Covered

structure Relaxes (u s : GlobalState) : Prop where
  shapes : u.shapes = s.shapes
  registers : u.locals.map LocalState.valuation = s.locals.map LocalState.valuation
  constraints : u.constraints.toList ⊆ s.constraints.toList

theorem Covered.relaxes (h : s.Covered u) : u.Relaxes s where
  shapes := (shapes_eq_iff.2 h.shapes).symm
  registers := (h.toUnder.map_locals h.length fun _ _ hlm => hlm.valuation).symm
  constraints := h.toUnder.constraints

end GlobalState

namespace Composition
variable {c : Composition} {p : Precision} {s u : GlobalState}
  {run : List (Action × GlobalState)}

/-- The actions that a run takes from a state and the states it comes to, whatever numbers the
events are given. -/
inductive Run (c : Composition) (p : Precision) :
    GlobalState → List (Action × GlobalState) → Prop where
  | nil (s : GlobalState) : Run c p s []
  | cons {s t : GlobalState} {a : Action} {number : Nat} {rest : List (Action × GlobalState)} :
      t ∈ (c.trans p s a number).1 → Run c p t rest → Run c p s ((a, t) :: rest)

/-- A run is followed step by step, so that each state is covered by the one it is matched to. -/
theorem Run.covered (h : c.Run p s run) (hsu : s.Covered u) :
    ∃ run', c.Run p u run' ∧
      List.Forall₂ (fun x y => x.1 = y.1 ∧ x.2.Covered y.2) run run' := by
  induction h generalizing u with
  | nil s => exact ⟨[], .nil u, .nil⟩
  | @cons s t a number rest ht _ ih =>
    -- The successor of `u` in the place that `t` has among the successors of `s`.
    obtain ⟨t', ht', hcovered⟩ := forall₂_mem_left (hsu.forall₂_trans a number number) ht
    obtain ⟨rest', hrest', hmatch⟩ := ih hcovered
    exact ⟨(a, t') :: rest', .cons ht' hrest', .cons ⟨rfl, hcovered⟩ hmatch⟩

/-- To be covered is a preorder and a forward simulation. -/
theorem coveredBy_simulates (c : Composition) (p : Precision) :
    (∀ s : GlobalState, s.coveredBy s = true) ∧
    (∀ s t u : GlobalState,
      s.coveredBy t = true → t.coveredBy u = true → s.coveredBy u = true) ∧
    ∀ s u : GlobalState, s.coveredBy u = true →
      u.Relaxes s ∧ s.isTerminal = u.isTerminal ∧
      (∀ (a : Action) (number number' : Nat),
        List.Forall₂ (fun t t' => t.coveredBy t' = true)
          (c.trans p s a number).1 (c.trans p u a number').1) ∧
      ∀ run, c.Run p s run → ∃ run', c.Run p u run' ∧
        List.Forall₂ (fun x y => x.1 = y.1 ∧ x.2.coveredBy y.2 = true ∧ y.2.Relaxes x.2)
          run run' := by
  simp only [GlobalState.coveredBy_iff]
  refine ⟨.refl, fun s t u => .trans, fun s u hsu => ⟨hsu.relaxes, hsu.isTerminal, ?_, ?_⟩⟩
  · intro a number number'
    exact hsu.forall₂_trans a number number'
  · intro run hrun
    obtain ⟨run', hrun', hmatch⟩ := hrun.covered hsu
    exact ⟨run', hrun', hmatch.imp fun _ _ hxy => ⟨hxy.1, hxy.2, hxy.2.relaxes⟩⟩

def joining : Composition :=
  .ofAutomata [(Automaton.straightLine "P" [.load "r" "x", .assume (.eq (.const "r") (.int 0)),
    .store "y" (.const "r")]).connect 1 2 .skip] []

def joiningAfter (edges : List Nat) : GlobalState :=
  edges.foldl (fun s e => (joining.trans .default s ⟨0, e⟩ 0).1.headD s) (joining.init 0).1

/-- The way with the test is covered by the way without it, and not the other way round. -/
theorem coveredBy_simulates_joining :
    (joiningAfter [0, 1]).coveredBy (joiningAfter [0, 3]) = true ∧
    (joiningAfter [0, 3]).coveredBy (joiningAfter [0, 1]) = false ∧
    ∃ run', joining.Run .default (joiningAfter [0, 3]) run' ∧
      List.Forall₂ (fun x y => x.1 = y.1 ∧ x.2.coveredBy y.2 = true ∧ y.2.Relaxes x.2)
        [(⟨0, 2⟩, joiningAfter [0, 1, 2])] run' := by
  have hcovered : (joiningAfter [0, 1]).coveredBy (joiningAfter [0, 3]) = true := by
    cbv
  have hstep : joiningAfter [0, 1, 2] ∈
      (joining.trans .default (joiningAfter [0, 1]) ⟨0, 2⟩ 0).1 := by
    cbv
    exact List.mem_singleton_self _
  obtain ⟨-, -, hsimulates⟩ := coveredBy_simulates joining .default
  exact ⟨hcovered, by cbv, (hsimulates _ _ hcovered).2.2.2 _ (.cons hstep (.nil _))⟩

end Composition
end Consistency
