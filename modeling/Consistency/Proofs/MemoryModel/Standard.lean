import Consistency.Proofs.MemoryModel.Interleaving

/-!
# What the standard models admit

Each of the standard models rules out cycles of what it keeps of program order
and of communication between events. What the weaker models keep is part of what
the stronger ones keep, or leads along paths of it.
-/

set_option autoImplicit false

namespace Consistency
open Relation (TransGen)
variable {g : EventGraph} {x : Choice} {a b : Nat}

namespace Choice

def Communicates (x : Choice) (a b : Nat) : Prop :=
  x.rf a b ∨ x.co a b ∨ ∃ v, x.rf v a ∧ x.co v b

def ForcesLocally (g : EventGraph) (x : Choice) (a b : Nat) : Prop :=
  (g.programOrder a b = true ∧ g.sameVar a b = true) ∨ x.Communicates a b

/-- Stores may be buffered: they need not come before later reads, nor before reads of the same
thread that see them. -/
def ForcesBuffered (g : EventGraph) (x : Choice) (a b : Nat) : Prop :=
  (g.programOrder a b = true ∧ ¬ (a ∈ g.writes ∧ b ∈ g.reads)) ∨
    (x.rf a b ∧ a ∈ g.nodes ∧ b ∈ g.nodes ∧ g.sameThread a b = false) ∨
      x.co a b ∨ ∃ v, x.rf v a ∧ x.co v b

/-- What an event knows of: what came before it in its thread, or was read. -/
def HappensBefore (g : EventGraph) (x : Choice) : Nat → Nat → Prop :=
  TransGen fun a b => g.programOrder a b = true ∨ x.rf a b

theorem Communicates.forces (h : x.Communicates a b) : x.Forces g a b := .inr h

theorem ForcesLocally.forces (h : x.ForcesLocally g a b) : x.Forces g a b :=
  h.imp And.left id

theorem ForcesBuffered.forces (h : x.ForcesBuffered g a b) : x.Forces g a b :=
  h.imp And.left (Or.imp_left And.left)

theorem HappensBefore.forces (h : x.HappensBefore g a b) : TransGen (x.Forces g) a b :=
  TransGen.mono (fun _ _ h => h.imp_right Or.inl) _ _ h

end Choice

namespace MemoryModel
variable {m : MemoryModel} {ρ : Meaning}

theorem tso_valid : tso.validate = .ok () :=
  valid_of_defined (by decide) (by decide) (by decide) (by cbv)

theorem ra_valid : ra.validate = .ok () :=
  valid_of_defined (by decide) (by decide) (by decide) (by cbv)

theorem coherence_valid : coherence.validate = .ok () :=
  valid_of_defined (by decide) (by decide) (by decide) (by cbv)

theorem Interprets.eq (hρ : m.Interprets g x ρ) {name : String} {e : RelExpr}
    (h : m.relation? name = some e) : ρ name = e.Denotes g x ρ := by
  funext a b
  exact propext (hρ name e h a b)

theorem Interprets.com (hρ : m.Interprets g x ρ)
    (h : m.relation? "com" = some (((base .rf).union (base .co)).union (base .fr))) :
    ρ "com" = x.Communicates := by
  rw [hρ.eq h]
  funext a b
  exact propext or_assoc

theorem holds_scPerLocation (hρ : m.Interprets g x ρ)
    (hcom : m.relation? "com" = some (((base .rf).union (base .co)).union (base .fr)))
    (hloc : m.relation? "po-loc" = some (.binary .inter (base .po) (base .loc))) :
    scPerLocation.kind.Holds (scPerLocation.rel.Denotes g x ρ) ↔
      ∀ a, ¬ TransGen (x.ForcesLocally g) a a := by
  have hrel : scPerLocation.rel.Denotes g x ρ = x.ForcesLocally g := by
    funext a b
    show (ρ "po-loc" a b ∨ ρ "com" a b) = x.ForcesLocally g a b
    rw [hρ.eq hloc, hρ.com hcom]
    rfl
  rw [hrel]
  rfl

theorem admits_coherence :
    coherence.Admits g x ↔ ∀ a, ¬ TransGen (x.ForcesLocally g) a a := by
  obtain ⟨ρ, hρ⟩ := exists_meaning coherence_valid g x
  rw [admits_iff coherence_valid hρ, coherence, List.forall_mem_singleton]
  exact holds_scPerLocation hρ rfl rfl

theorem admits_tso : tso.Admits g x ↔ (∀ a, ¬ TransGen (x.ForcesLocally g) a a) ∧
    ∀ a, ¬ TransGen (x.ForcesBuffered g) a a := by
  obtain ⟨ρ, hρ⟩ := exists_meaning tso_valid g x
  have hrel : ((((named "ppo").union (named "rfe")).union (base .co)).union (base .fr)).Denotes
      g x ρ = x.ForcesBuffered g := by
    have hppo := hρ.eq (show tso.relation? "ppo" = _ from rfl)
    have hrfe := hρ.eq (show tso.relation? "rfe" = _ from rfl)
    funext a b
    show (((ρ "ppo" a b ∨ ρ "rfe" a b) ∨ x.co a b) ∨ ∃ v, x.rf v a ∧ x.co v b) =
      x.ForcesBuffered g a b
    rw [hppo, hrfe, or_assoc, or_assoc]
    simp only [RelExpr.Denotes, RelOp.Combine, BaseRelation.Holds, base, Query.inSet,
      Choice.ForcesBuffered, EventGraph.mem_writes, EventGraph.mem_reads, EventGraph.isNode_iff]
  rw [admits_iff tso_valid hρ, tso, List.forall_mem_cons, List.forall_mem_singleton, hrel]
  exact and_congr_left fun _ => holds_scPerLocation hρ rfl rfl

theorem admits_ra : ra.Admits g x ↔ (∀ a, ¬ TransGen (x.ForcesLocally g) a a) ∧
    ∀ a b, x.HappensBefore g a b → ¬ (TransGen x.Communicates b a ∨ b ∈ g.nodes ∧ b = a) := by
  obtain ⟨ρ, hρ⟩ := exists_meaning ra_valid g x
  have hrel : ∀ a b,
      (RelExpr.binary .seq (named "hb") (.suffixed .optional (named "eco"))).Denotes g x ρ a b ↔
        ∃ c, x.HappensBefore g a c ∧ (TransGen x.Communicates c b ∨ c ∈ g.nodes ∧ c = b) := by
    have hhb := hρ.eq (show ra.relation? "hb" = _ from rfl)
    have heco := hρ.eq (show ra.relation? "eco" = _ from rfl)
    have hcom : ρ "com" = x.Communicates := hρ.com rfl
    intro a b
    show (∃ c, ρ "hb" a c ∧ (ρ "eco" c b ∨ c ∈ g.nodes ∧ c = b)) ↔ _
    rw [hhb, heco, ← hcom]
    rfl
  rw [admits_iff ra_valid hρ, ra, List.forall_mem_cons, List.forall_mem_singleton]
  refine and_congr (holds_scPerLocation hρ rfl rfl) (forall_congr' fun a => ?_)
  rw [hrel, not_exists]
  exact forall_congr' fun b => not_and

theorem coherence_of_tso (h : tso.Admits g x) : coherence.Admits g x :=
  admits_coherence.2 (admits_tso.1 h).1

theorem coherence_of_ra (h : ra.Admits g x) : coherence.Admits g x :=
  admits_coherence.2 (admits_ra.1 h).1

theorem local_acyclic_of_sc (h : sc.Admits g x) (a : Nat) : ¬ TransGen (x.ForcesLocally g) a a :=
  fun hc => admits_sc.1 h a (TransGen.mono (fun _ _ h => h.forces) _ _ hc)

theorem tso_of_sc (h : sc.Admits g x) : tso.Admits g x :=
  admits_tso.2 ⟨local_acyclic_of_sc h, fun a hc =>
    admits_sc.1 h a (TransGen.mono (fun _ _ h => h.forces) _ _ hc)⟩

/-- What an event knows of and what it communicates with are forced in one direction. -/
theorem ra_of_sc (h : sc.Admits g x) : ra.Admits g x := by
  refine admits_ra.2 ⟨local_acyclic_of_sc h, fun a b hab hba => ?_⟩
  rcases hba with hba | ⟨-, rfl⟩
  · have hback : TransGen (x.Forces g) b a := TransGen.mono (fun _ _ h => h.forces) _ _ hba
    exact admits_sc.1 h a (hab.forces.trans hback)
  · exact admits_sc.1 h b hab.forces

end MemoryModel
end Consistency
