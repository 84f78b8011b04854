import Consistency.Proofs.Composition.Progress
import Consistency.Proofs.Thread.Simulation

/-!
# Covered states

A state lies under another if the two differ in the identities of events and in
constraints only, of which the other has no more. Equal keys and the test for
subsumption both tell so.
-/

set_option autoImplicit false

namespace Consistency

structure LocalState.Under (s t : LocalState) : Prop where
  bare : s.bare = t.bare
  constraints : t.constraints.toList ⊆ s.constraints.toList

structure GlobalState.Under (s t : GlobalState) : Prop where
  locals : ∀ (i : Nat) (m : LocalState), t.locals[i]? = some m →
    ∃ l, s.locals[i]? = some l ∧ l.Under m
  shapes : (s.emitted.map Event.shape).Perm (t.emitted.map Event.shape)

namespace LocalState
variable {s t u : LocalState} {v : Valuation}

theorem Under.refl (s : LocalState) : s.Under s := ⟨rfl, fun _ h => h⟩

theorem Under.trans (h : s.Under t) (k : t.Under u) : s.Under u :=
  ⟨h.bare.trans k.bare, fun _ hc => h.constraints (k.constraints hc)⟩

theorem Under.feasible (h : s.Under t) (hs : s.Feasible v) : t.Feasible v :=
  fun c hc => hs c (h.constraints hc)

theorem under_of_coveredBy (h : s.coveredBy t = true) : s.Under t := by
  simp only [coveredBy, Bool.and_eq_true, beq_iff_eq, OrderedSet.subset, List.all_eq_true] at h
  obtain ⟨⟨⟨⟨hloc, hacc⟩, hsteps⟩, hval⟩, hsub⟩ := h
  refine ⟨?_, fun c hc => ?_⟩
  · unfold bare
    rw [hloc, hacc, hsteps, hval]
  · simpa [OrderedSet.contains] using hsub c hc

end LocalState

namespace GlobalState
variable {s t u : GlobalState}

theorem Under.trans (h : s.Under t) (k : t.Under u) : s.Under u where
  locals := by
    intro i n hn
    obtain ⟨m, hm, hmn⟩ := k.locals i n hn
    obtain ⟨l, hl, hlm⟩ := h.locals i m hm
    exact ⟨l, hl, hlm.trans hmn⟩
  shapes := h.shapes.trans k.shapes

theorem shapes_perm (s : GlobalState) : s.shapes.Perm (s.emitted.map Event.shape) :=
  List.mergeSort_perm _ _

theorem under_of_key (h : s.key = t.key) : s.Under t := by
  have hlocals : s.locals = t.locals := congrArg StateKey.locals h
  have hshapes : s.shapes = t.shapes := congrArg StateKey.events h
  refine ⟨fun i m hm => ⟨m, ?_, .refl m⟩, ?_⟩
  · rw [hlocals]
    exact hm
  · exact (shapes_perm s).symm.trans ((List.Perm.of_eq hshapes).trans (shapes_perm t))

theorem under_of_coveredBy (h : s.coveredBy t = true) : s.Under t := by
  simp only [coveredBy, Bool.and_eq_true, beq_iff_eq, List.all_eq_true] at h
  obtain ⟨⟨⟨hlength, -⟩, hlocals⟩, hshapes⟩ := h
  refine ⟨fun i m hm => ?_, ?_⟩
  · have hi : i < s.locals.length := hlength ▸ (List.getElem?_eq_some_iff.1 hm).1
    have hl := List.getElem?_eq_getElem hi
    have hz : (s.locals.zip t.locals)[i]? = some (s.locals[i], m) :=
      List.getElem?_zip_eq_some.2 ⟨hl, hm⟩
    exact ⟨_, hl, LocalState.under_of_coveredBy (hlocals _ (List.mem_of_getElem? hz))⟩
  · exact (shapes_perm s).symm.trans ((List.Perm.of_eq hshapes).trans (shapes_perm t))

end GlobalState
end Consistency
