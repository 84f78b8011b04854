import Mathlib.Logic.Relation
import Consistency.Proofs.Graph.Nodes

/-!
# Meaning of memory models

Relation expressions denote relations between the nodes of an event graph, once
reads-from and coherence have been chosen. A model admits the choice if its
axioms hold under a meaning of its names that agrees with their definitions.
-/

set_option autoImplicit false

namespace Consistency
open Query (isInit inSet)

structure Choice where
  /-- The read takes its value from the write. -/
  rf : Nat → Nat → Prop
  co : Nat → Nat → Prop

/-- One source of the same variable for each read, and a strict total order of the writes to
each variable, in which the initial write is first. -/
structure Choice.Proper (g : EventGraph) (x : Choice) : Prop where
  source : ∀ w r, x.rf w r → r ∈ g.reads ∧ w ∈ g.writesSameVar r
  sourced : ∀ r ∈ g.reads, ∃! w, x.rf w r
  writes : ∀ a b, x.co a b → a ∈ g.writes ∧ b ∈ g.writesSameVar a
  irrefl : ∀ a, ¬ x.co a a
  trans : ∀ a b c, x.co a b → x.co b c → x.co a c
  total : ∀ a ∈ g.writes, ∀ b ∈ g.writesSameVar a, a ≠ b → x.co a b ∨ x.co b a
  initial : ∀ a ∈ g.writes, isInit g a = true → ∀ b ∈ g.writesSameVar a, a ≠ b → x.co a b

theorem Choice.Proper.asymm {g : EventGraph} {x : Choice} {a b : Nat} (hx : x.Proper g)
    (h : x.co a b) : ¬ x.co b a :=
  fun h' => hx.irrefl a (hx.trans a b a h h')

theorem Choice.not_init_of_co {g : EventGraph} {x : Choice} {a b : Nat} (hx : x.Proper g)
    (h : x.co a b) : isInit g b = false := by
  obtain ⟨ha, hb⟩ := hx.writes a b h
  obtain ⟨d, e, hd, he, hw, hv⟩ := EventGraph.mem_writesSameVar.1 hb
  obtain ⟨d', hd', hwd⟩ := EventGraph.mem_writes.1 ha
  obtain rfl := Option.some.inj (hd.symm.trans hd')
  by_contra hi
  rw [Bool.not_eq_false] at hi
  have hba : b ≠ a := by
    rintro rfl
    exact hx.irrefl b h
  refine hx.asymm h (hx.initial b (EventGraph.mem_writes.2 ⟨e, he, hw⟩) hi a ?_ hba)
  exact EventGraph.mem_writesSameVar.2 ⟨e, d, he, hd, hwd, hv.symm⟩

abbrev Meaning := String → Nat → Nat → Prop

def BaseRelation.Holds (g : EventGraph) (x : Choice) (a b : Nat) : BaseRelation → Prop
  | .po => g.programOrder a b = true
  | .rf => x.rf a b
  | .co => x.co a b
  | .fr => ∃ w, x.rf w a ∧ x.co w b
  | .loc => g.sameVar a b = true
  | .int => g.sameThread a b = true
  | .ext => a ∈ g.nodes ∧ b ∈ g.nodes ∧ g.sameThread a b = false
  | .id => a ∈ g.nodes ∧ a = b

def RelOp.Combine (r q : Nat → Nat → Prop) (a b : Nat) : RelOp → Prop
  | .union => r a b ∨ q a b
  | .diff => r a b ∧ ¬ q a b
  | .inter => r a b ∧ q a b
  | .seq => ∃ i, r a i ∧ q i b

def RelSuffix.Apply (g : EventGraph) (r : Nat → Nat → Prop) (a b : Nat) : RelSuffix → Prop
  | .inverse => r b a
  | .plus => Relation.TransGen r a b
  | .star => Relation.TransGen r a b ∨ (a ∈ g.nodes ∧ a = b)
  | .optional => r a b ∨ (a ∈ g.nodes ∧ a = b)

namespace RelExpr

def Denotes (g : EventGraph) (x : Choice) (ρ : Meaning) : RelExpr → Nat → Nat → Prop
  | .base rel, a, b => rel.Holds g x a b
  | .named name, a, b => ρ name a b
  | .product s t, a, b => inSet g s a = true ∧ inSet g t b = true
  | .identity s, a, b => inSet g s a = true ∧ a = b
  | .binary op d e, a, b => op.Combine (d.Denotes g x ρ) (e.Denotes g x ρ) a b
  | .suffixed op e, a, b => op.Apply g (e.Denotes g x ρ) a b

end RelExpr

def AxiomKind.Holds (r : Nat → Nat → Prop) : AxiomKind → Prop
  | .acyclic => ∀ a, ¬ Relation.TransGen r a a
  | .irreflexive => ∀ a, ¬ r a a
  | .empty => ∀ a b, ¬ r a b

namespace MemoryModel

def Interprets (m : MemoryModel) (g : EventGraph) (x : Choice) (ρ : Meaning) : Prop :=
  ∀ name e, m.relation? name = some e → ∀ a b, ρ name a b ↔ e.Denotes g x ρ a b

def Admits (m : MemoryModel) (g : EventGraph) (x : Choice) : Prop :=
  ∃ ρ, m.Interprets g x ρ ∧ ∀ d ∈ m.axioms, d.kind.Holds (d.rel.Denotes g x ρ)

end MemoryModel
end Consistency
