import Consistency.Query

/-!
# The parts of a query

A query is put together from a few steps: it adds a command, counts a
definition or keeps a matrix. What these steps have in common, and what
sequences have if their parts do, all parts of the query have.
-/

set_option autoImplicit false

namespace Consistency.Query
variable {P : {α : Type} → QueryM α → Prop} {g : EventGraph} {m : MemoryModel}
  {lookup : String → QueryM Matrix} {e : RelExpr} {x : String}

structure Compositional (P : {α : Type} → QueryM α → Prop) : Prop where
  pure : ∀ {α : Type} (a : α), P (pure a : QueryM α)
  bind : ∀ {α β : Type} {f : QueryM α} {k : α → QueryM β}, P f → (∀ a, P (k a)) → P (f >>= k)
  get : P (get : QueryM QueryState)
  add : ∀ c, P (add c)
  count : ∀ k, P (modify fun s => { s with definitions := k } : QueryM PUnit)
  keep : ∀ x M, P (modify fun s => { s with named := (x, M) :: s.named } : QueryM PUnit)

def define (g : EventGraph) (m : MemoryModel) (lookup : String → QueryM Matrix) (x : String) :
    QueryM Matrix := do
  match (← get).named.lookup x with
  | some known => return known
  | none => match m.relation? x with
    | none => throw (.unknownRelation x m.name)
    | some e =>
      let found ← relation g lookup e
      let found ← nameAll found
      modify fun s => { s with named := (x, found) :: s.named }
      return found

theorem namedRelation_succ (fuel : Nat) :
    namedRelation g m (fuel + 1) = define g m (namedRelation g m fuel) := rfl

def laterParts (g : EventGraph) (m : MemoryModel) (o : Outcome) : QueryM Unit := do
  assertReadsFrom g
  assertCoherence g
  assertDataFlow g
  m.axioms.forM (assertAxiom g m)
  heading "path constraints"
  g.constraints.forM assert
  assertOutcome g o

section Compositional
variable (h : Compositional P)
include h

theorem composes_mapM {α β : Type} {k : α → QueryM β} (xs : List α) (hk : ∀ a, P (k a)) :
    P (xs.mapM k) := by
  induction xs with
  | nil => exact h.pure []
  | cons x xs ih =>
    rw [List.mapM_cons]
    exact h.bind (hk x) fun _ => h.bind ih fun _ => h.pure _

theorem composes_array_mapM {α β : Type} {k : α → QueryM β} (xs : Array α)
    (hk : ∀ a, P (k a)) : P (xs.mapM k) := by
  rw [Array.mapM_eq_mapM_toList, ← bind_pure_comp]
  exact h.bind (composes_mapM h _ hk) fun _ => h.pure _

theorem composes_forM {α : Type} {k : α → QueryM PUnit} {xs : List α}
    (hk : ∀ a ∈ xs, P (k a)) : P (xs.forM k) := by
  induction xs with
  | nil => exact h.pure PUnit.unit
  | cons x xs ih =>
    rw [List.forall_mem_cons] at hk
    exact h.bind hk.1 fun _ => ih hk.2

theorem composes_each {α : Type} {k : α → QueryM PUnit} (xs : List α) (hk : ∀ a, P (k a)) :
    P (xs.forM k) := composes_forM h fun a _ => hk a

theorem composes_assert (t : Term) : P (assert t) := by
  unfold assert
  split
  · exact h.pure _
  · exact h.add _

theorem composes_name (t : Term) : P (name t) := by
  unfold name
  split
  · exact h.pure _
  · exact h.pure _
  · exact h.bind h.get fun q => h.bind (h.count _) fun _ => h.bind (h.add _) fun _ =>
      h.bind (composes_assert h _) fun _ => h.pure _

theorem composes_nameAll (M : Matrix) : P (nameAll M) :=
  h.bind (composes_array_mapM h _ fun _ => composes_array_mapM h _ (composes_name h)) fun _ =>
    h.pure _

theorem composes_squareTimes (n : Nat) (M : Matrix) : P (squareTimes n M) := by
  induction n generalizing M with
  | zero => exact h.pure M
  | succ n ih => exact h.bind (composes_nameAll h _) fun N => ih N

theorem composes_closure (M : Matrix) : P (closure M) :=
  h.bind (composes_nameAll h M) fun _ => composes_squareTimes h _ _

theorem composes_relation (hl : ∀ y ∈ e.names, P (lookup y)) : P (relation g lookup e) := by
  induction e with
  | base rel => exact h.pure _
  | named y => exact hl y (List.mem_singleton_self y)
  | product s t => exact h.pure _
  | identity s => exact h.pure _
  | binary op a b iha ihb =>
    have ha := iha fun y hy => hl y (List.mem_append_left _ hy)
    have hb := ihb fun y hy => hl y (List.mem_append_right _ hy)
    exact h.bind ha fun _ => h.bind hb fun _ => h.pure _
  | suffixed op a ih =>
    rw [relation]
    refine h.bind (ih hl) fun M => ?_
    cases op with
    | inverse => exact h.pure _
    | plus => exact composes_closure h M
    | star => exact h.bind (composes_closure h M) fun _ => h.pure _
    | optional => exact h.pure _

theorem composes_define
    (hunknown : m.relation? x = none → P (throw (.unknownRelation x m.name) : QueryM Matrix))
    (hl : ∀ e, m.relation? x = some e → ∀ y ∈ e.names, P (lookup y)) :
    P (define g m lookup x) := by
  unfold define
  refine h.bind h.get fun q => ?_
  split
  · exact h.pure _
  · split
    · next hnone => exact hunknown hnone
    · next e he =>
      exact h.bind (composes_relation h (hl e he)) fun _ => h.bind (composes_nameAll h _)
        fun M => h.bind (h.keep x M) fun _ => h.pure _

theorem composes_ruledOut (kind : AxiomKind) (M : Matrix) : P (ruledOut kind M) := by
  cases kind with
  | acyclic => exact h.bind (composes_closure h M) fun _ => h.pure _
  | irreflexive => exact h.pure _
  | empty => exact h.pure _

theorem composes_axiom {d : Axiom}
    (hl : ∀ y ∈ d.rel.names, P (namedRelation g m (m.relations.length + 1) y)) :
    P (assertAxiom g m d) :=
  h.bind (h.add _) fun _ => h.bind (composes_relation h hl) fun M =>
    h.bind (composes_ruledOut h d.kind M) fun ts => composes_each h ts fun _ =>
      composes_assert h _

theorem composes_declare (g : EventGraph) (o : Outcome) : P (declare g o) :=
  h.bind (composes_each h _ fun _ => h.add _) fun _ =>
    h.bind (composes_each h _ fun _ => h.add _) fun _ => composes_each h _ fun _ => h.add _

theorem composes_domains (g : EventGraph) : P (assertDomains g) := by
  unfold assertDomains
  split
  · exact h.pure _
  · exact h.bind (h.add _) fun _ => composes_each h _ fun _ => composes_assert h _

theorem composes_readsFrom (g : EventGraph) : P (assertReadsFrom g) :=
  h.bind (h.add _) fun _ => composes_each h _ fun _ => h.bind (composes_assert h _) fun _ =>
    composes_each h _ fun _ => composes_assert h _

theorem composes_coherence (g : EventGraph) : P (assertCoherence g) := by
  have hpair : ∀ p : Nat × Nat, P (do
      assert (.mkOr [coTerm g p.1 p.2, coTerm g p.2 p.1])
      assert (.mkNot (.mkAnd [coTerm g p.1 p.2, coTerm g p.2 p.1]))) := fun _ =>
    h.bind (composes_assert h _) fun _ => composes_assert h _
  exact h.bind (h.add _) fun _ => composes_each h _ fun _ =>
    h.bind (composes_each h _ hpair) fun _ => composes_each h _ fun _ => composes_assert h _

theorem composes_dataFlow (g : EventGraph) : P (assertDataFlow g) :=
  h.bind (h.add _) fun _ => composes_each h _ fun _ => composes_assert h _

theorem composes_outcome (g : EventGraph) (o : Outcome) : P (assertOutcome g o) := by
  unfold assertOutcome
  split
  · exact h.pure _
  · exact h.bind (h.add _) fun _ => composes_each h _ fun _ => composes_assert h _

theorem composes_laterParts (o : Outcome) (ha : ∀ d ∈ m.axioms, P (assertAxiom g m d)) :
    P (laterParts g m o) :=
  h.bind (composes_readsFrom h g) fun _ => h.bind (composes_coherence h g) fun _ =>
    h.bind (composes_dataFlow h g) fun _ => h.bind (composes_forM h ha) fun _ =>
      h.bind (h.add _) fun _ => h.bind (composes_each h _ (composes_assert h)) fun _ =>
        composes_outcome h g o

theorem composes_build (o : Outcome) (ha : ∀ d ∈ m.axioms, P (assertAxiom g m d)) :
    P (build g m o) :=
  h.bind (h.add _) fun _ => h.bind (composes_declare h g o) fun _ =>
    h.bind (composes_domains h g) fun _ => composes_laterParts h o ha

end Compositional

end Consistency.Query
