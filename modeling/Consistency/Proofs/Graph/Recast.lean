import Consistency.Proofs.Graph.Shape
import Consistency.Proofs.Thread.Recast

/-!
# Graphs under another precision

Graphs of states that differ in the choices that were made at once have the same
layout, and their terms are the same when it is known what is picked. A model
admits the same choices of both, and a term of one has the value of the other
if both have values.
-/

set_option autoImplicit false

namespace Consistency
open Query (valueAt)

theorem EventShape.fixed_valueTerm (w : Valuation) (s : EventShape) :
    (s.fixed w).event.valueTerm = s.event.valueTerm.fixed w := by
  obtain ⟨owner, index, var, kind, value⟩ := s
  cases value with
  | some t => rfl
  | none =>
    cases kind with
    | read => exact (Term.fixed_read w owner.number index).symm
    | write => rfl

namespace EventGraph

structure WellFormed (g : EventGraph) : Prop where
  stored : ∀ e ∈ g.shapes, ∀ u, e.value = some u → u.WellFormed fun _ => True
  registers : ∀ i reg u, g.registerTerm i reg = some u → u.WellFormed fun _ => True
  constraints : ∀ u ∈ g.constraints, u.WellFormed fun _ => True

/-- The graphs are the same when it is known what the threads pick: `v` has the values of all
symbols of `g`, and `w` has the picks that are symbols of `k` alone as well. -/
structure Recast (v w : Valuation) (g k : EventGraph) : Prop where
  events : g.shapes.map (EventShape.fixed w) = k.shapes.map (EventShape.fixed w)
  registers : ∀ i reg, (g.registerTerm i reg).map (Term.fixed w) =
    (k.registerTerm i reg).map (Term.fixed w)
  reads : ∀ i n, w (readSymbol i n) = v (readSymbol i n)
  stored : ∀ e ∈ g.shapes, ∀ u, e.value = some u → u.Keeps v w
  kept : ∀ i reg u, g.registerTerm i reg = some u → u.Keeps v w
  feasible : ∀ u ∈ k.constraints, (u.fixed w).Decides w.environment true

variable {v w : Valuation} {g k : EventGraph} {a : Nat}

theorem valueAt_shape (g : EventGraph) (a : Nat) : valueAt g a =
    (g.shapes[a]?.map fun s => s.event.valueTerm).getD (.int 0) := by
  rw [shapes, List.getElem?_map, Array.getElem?_toList, Option.map_map]
  unfold valueAt event?
  cases g.events[a]? <;> rfl

theorem WellFormed.valueAt (h : g.WellFormed) (a : Nat) :
    (valueAt g a).WellFormed fun _ => True := by
  rw [valueAt_shape]
  cases hs : g.shapes[a]? with
  | none => trivial
  | some s =>
    have hstored := h.stored s (List.mem_of_getElem? hs)
    obtain ⟨owner, index, var, kind, value⟩ := s
    cases value with
    | some t => exact hstored t rfl
    | none =>
      cases kind <;> trivial

namespace Recast

theorem layout_eq (h : Recast v w g k) : g.layout = k.layout := by
  have hbare : ∀ f : EventGraph,
      (f.shapes.map (EventShape.fixed w)).map EventShape.bare = f.layout := fun f => by
    rw [List.map_map]
    rfl
  rw [← hbare, ← hbare, h.events]

theorem valueAt_fixed (h : Recast v w g k) (a : Nat) :
    (valueAt g a).fixed w = (valueAt k a).fixed w := by
  have hterm : ∀ f : EventGraph, (valueAt f a).fixed w =
      ((f.shapes.map (EventShape.fixed w))[a]?.map fun s => s.event.valueTerm).getD (.int 0) :=
    fun f => by
      rw [valueAt_shape, List.getElem?_map]
      cases f.shapes[a]? with
      | none => rfl
      | some s => exact (s.fixed_valueTerm w).symm
  rw [hterm, hterm, h.events]

theorem valueAt_keeps (h : Recast v w g k) (a : Nat) :
    (valueAt g a).Keeps v w := by
  rw [valueAt_shape]
  cases hs : g.shapes[a]? with
  | none => exact Term.keeps_int v w 0
  | some s =>
    have hstored := h.stored s (List.mem_of_getElem? hs)
    obtain ⟨owner, index, var, kind, value⟩ := s
    cases value with
    | some t => exact hstored t rfl
    | none =>
      cases kind with
      | read => exact Term.keeps_const (h.reads owner.number index)
      | write => exact Term.keeps_int v w 0

/-- Terms of a node have the same value, if they have values. -/
theorem valueAt_unique (h : Recast v w g k) {r r' : Value} {u : Valuation}
    (hu : ∀ i n, u (Thread.choiceSymbol i n) = w (Thread.choiceSymbol i n))
    (hg : (valueAt g a).eval u.environment = some r)
    (hk : (valueAt k a).eval u.environment = some r') : r' = r :=
  (Term.value_unique hu (h.valueAt_fixed a) hg hk).symm

end Recast
end EventGraph
end Consistency
