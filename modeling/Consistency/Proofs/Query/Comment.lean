import Consistency.Proofs.Composition.Name
import Consistency.Proofs.Query.Script

/-!
# Comments of a query

The names of threads, of the model and of its axioms are put into comments only.
Two queries that differ in these names are built side by side: they make the same
definitions and assertions, and comments at the same places.
-/

set_option autoImplicit false

namespace Consistency

inductive Command.Beside (P : String → Prop) : Command → Command → Prop
  | same {c : Command} (h : ∀ text, c ≠ .comment text) : Beside P c c
  | comments {text text' : String} (h : P text) (h' : P text') :
      Beside P (.comment text) (.comment text')

structure MemoryModel.Alike (m m' : MemoryModel) : Prop where
  relations : m.relations = m'.relations
  axioms : List.Forall₂ (fun a b : Axiom => a.kind = b.kind ∧ a.rel = b.rel) m.axioms m'.axioms

namespace Query
variable {g : EventGraph} {names : List String} {m m' : MemoryModel} {o : Outcome}
  {P : String → Prop}

structure Beside (P : String → Prop) (q q' : QueryState) : Prop where
  commands : List.Forall₂ (Command.Beside P) q.commands q'.commands
  named : q.named = q'.named
  definitions : q.definitions = q'.definitions

/-- What one computation does to a state, the other does to one beside it. -/
def Mirrors {α : Type} (P : String → Prop) (f f' : QueryM α) : Prop :=
  ∀ ⦃q q' a q₁⦄, Beside P q q' → Runs f q a q₁ → ∃ q₁', Runs f' q' a q₁' ∧ Beside P q₁ q₁'

section Mirrors
variable {α β : Type} {f f' : QueryM α} {k k' : α → QueryM β}

theorem mirrors_pure (a : α) : Mirrors P (pure a : QueryM α) (pure a) := by
  intro q q' b q₁ hq h
  obtain ⟨rfl, rfl⟩ := Runs.pure_iff.1 h
  exact ⟨q', Runs.pure_iff.2 ⟨rfl, rfl⟩, hq⟩

theorem mirrors_throw (e e' : ModelError) : Mirrors P (throw e : QueryM α) (throw e') := by
  intro q q' a q₁ _ h
  exact absurd h (by simp)

theorem Mirrors.bind (hf : Mirrors P f f') (hk : ∀ a, Mirrors P (k a) (k' a)) :
    Mirrors P (f >>= k) (f' >>= k') := by
  intro q q' b q₂ hq h
  obtain ⟨a, q₁, hf₁, hk₁⟩ := Runs.bind_iff.1 h
  obtain ⟨q₁', hf₂, hq₁⟩ := hf hq hf₁
  obtain ⟨q₂', hk₂, hq₂⟩ := hk a hq₁ hk₁
  exact ⟨q₂', Runs.bind_iff.2 ⟨a, q₁', hf₂, hk₂⟩, hq₂⟩

theorem mirrors_get {k k' : QueryState → QueryM β}
    (hk : ∀ q q', Beside P q q' → Mirrors P (k q) (k' q')) :
    Mirrors P (get >>= k) (get >>= k') := by
  intro q q' b q₂ hq h
  obtain ⟨_, _, hget, hk₁⟩ := Runs.bind_iff.1 h
  obtain ⟨rfl, rfl⟩ := Runs.get_iff.1 hget
  obtain ⟨q₂', hk₂, hq₂⟩ := hk _ q' hq hq hk₁
  exact ⟨q₂', Runs.bind_iff.2 ⟨q', q', Runs.get_iff.2 ⟨rfl, rfl⟩, hk₂⟩, hq₂⟩

theorem mirrors_modify {u u' : QueryState → QueryState}
    (hu : ∀ q q', Beside P q q' → Beside P (u q) (u' q')) :
    Mirrors P (modify u : QueryM PUnit) (modify u') := by
  intro q q' a q₁ hq h
  obtain rfl := Runs.modify_iff.1 h
  exact ⟨u' q', Runs.modify_iff.2 rfl, hu q q' hq⟩

theorem mirrors_forM {R : α → α → Prop} {xs ys : List α} {k k' : α → QueryM PUnit}
    (h : List.Forall₂ R xs ys) (hk : ∀ a b, R a b → Mirrors P (k a) (k' b)) :
    Mirrors P (xs.forM k) (ys.forM k') := by
  induction h with
  | nil => exact mirrors_pure PUnit.unit
  | cons hab _ ih => exact (hk _ _ hab).bind fun _ => ih

theorem mirrors_each {k k' : α → QueryM PUnit} (xs : List α) (hk : ∀ a, Mirrors P (k a) (k' a)) :
    Mirrors P (xs.forM k) (xs.forM k') :=
  mirrors_forM (List.forall₂_same.2 fun _ _ => rfl) fun a b (hab : a = b) => hab ▸ hk a

theorem mirrors_mapM (xs : List α) (hk : ∀ a, Mirrors P (k a) (k' a)) :
    Mirrors P (xs.mapM k) (xs.mapM k') := by
  induction xs with
  | nil => exact mirrors_pure []
  | cons x xs ih =>
    rw [List.mapM_cons, List.mapM_cons]
    exact (hk x).bind fun _ => ih.bind fun _ => mirrors_pure _

theorem mirrors_array_mapM (xs : Array α) (hk : ∀ a, Mirrors P (k a) (k' a)) :
    Mirrors P (xs.mapM k) (xs.mapM k') := by
  intro q q' ys q₁ hq h
  obtain ⟨q₁', h', hq₁⟩ := mirrors_mapM xs.toList hk hq (Runs.array_mapM_iff.1 h)
  exact ⟨q₁', Runs.array_mapM_iff.2 h', hq₁⟩

theorem mirrors_add {d d' : Command} (h : Command.Beside P d d') :
    Mirrors P (add d) (add d') :=
  mirrors_modify fun _ _ hq => ⟨.cons h hq.commands, hq.named, hq.definitions⟩

theorem mirrors_declare_const (x : String) (sort : ValueSort) :
    Mirrors P (add (.declareConst x sort)) (add (.declareConst x sort)) :=
  mirrors_add (.same fun _ h => Command.noConfusion h)

theorem mirrors_heading {title title' : String} (h : P title) (h' : P title') :
    Mirrors P (heading title) (heading title') := mirrors_add (.comments h h')

theorem mirrors_assert (t : Term) : Mirrors P (assert t) (assert t) := by
  unfold assert
  split
  · exact mirrors_pure _
  · exact mirrors_add (.same fun _ h => Command.noConfusion h)

theorem mirrors_name (t : Term) : Mirrors P (name t) (name t) := by
  unfold name
  split
  · exact mirrors_pure _
  · exact mirrors_pure _
  · refine mirrors_get fun q q' hq => ?_
    rw [hq.definitions]
    refine Mirrors.bind (mirrors_modify fun _ _ hq => ⟨hq.commands, hq.named, rfl⟩) fun _ => ?_
    exact (mirrors_declare_const _ _).bind fun _ => (mirrors_assert _).bind fun _ => mirrors_pure _

theorem mirrors_nameAll (M : Matrix) : Mirrors P (nameAll M) (nameAll M) :=
  (mirrors_array_mapM _ fun _ => mirrors_array_mapM _ mirrors_name).bind fun _ => mirrors_pure _

theorem mirrors_squareTimes (n : Nat) (M : Matrix) :
    Mirrors P (squareTimes n M) (squareTimes n M) := by
  induction n generalizing M with
  | zero => exact mirrors_pure M
  | succ n ih => exact (mirrors_nameAll _).bind fun N => ih N

theorem mirrors_closure (M : Matrix) : Mirrors P (closure M) (closure M) :=
  (mirrors_nameAll M).bind fun _ => mirrors_squareTimes _ _

theorem mirrors_ruledOut (kind : AxiomKind) (M : Matrix) :
    Mirrors P (ruledOut kind M) (ruledOut kind M) := by
  cases kind with
  | acyclic => exact (mirrors_closure M).bind fun _ => mirrors_pure _
  | irreflexive => exact mirrors_pure _
  | empty => exact mirrors_pure _

theorem mirrors_relation {lookup lookup' : String → QueryM Matrix}
    (hl : ∀ y, Mirrors P (lookup y) (lookup' y)) (e : RelExpr) :
    Mirrors P (relation g lookup e) (relation (g.named names) lookup' e) := by
  induction e with
  | base rel => exact mirrors_pure (base g rel)
  | named y => exact hl y
  | product s t => exact mirrors_pure (product g s t)
  | identity s => exact mirrors_pure (identity g s)
  | binary op d e ihd ihe => exact ihd.bind fun _ => ihe.bind fun _ => mirrors_pure _
  | suffixed op e ih =>
    rw [relation, relation]
    refine ih.bind fun M => ?_
    cases op with
    | inverse => exact mirrors_pure _
    | plus => exact mirrors_closure M
    | star => exact (mirrors_closure M).bind fun N => mirrors_pure (N.union (identity g .memory))
    | optional => exact mirrors_pure (M.union (identity g .memory))

theorem mirrors_namedRelation (h : m.relations = m'.relations) (fuel : Nat) (y : String) :
    Mirrors P (namedRelation g m fuel y) (namedRelation (g.named names) m' fuel y) := by
  induction fuel generalizing y with
  | zero => exact mirrors_throw _ _
  | succ fuel ih =>
    have hrelation : m.relation? y = m'.relation? y := by
      rw [MemoryModel.relation?, MemoryModel.relation?, h]
    rw [namedRelation, namedRelation]
    refine mirrors_get fun q q' hq => ?_
    rw [hq.named, hrelation]
    split
    · exact mirrors_pure _
    · split
      · exact mirrors_throw _ _
      · refine (mirrors_relation ih _).bind fun _ => (mirrors_nameAll _).bind fun _ =>
          Mirrors.bind (mirrors_modify fun _ _ hq => ?_) fun _ => mirrors_pure _
        exact ⟨hq.commands, congrArg ((y, _) :: ·) hq.named, hq.definitions⟩

theorem mirrors_assertAxiom (h : m.relations = m'.relations) {d d' : Axiom}
    (hd : d.kind = d'.kind ∧ d.rel = d'.rel) (hP : P ("axiom " ++ d.name))
    (hP' : P ("axiom " ++ d'.name)) :
    Mirrors P (assertAxiom g m d) (assertAxiom (g.named names) m' d') := by
  unfold assertAxiom
  rw [hd.1, hd.2, h]
  exact (mirrors_heading hP hP').bind fun _ =>
    (mirrors_relation (mirrors_namedRelation h _) _).bind fun M =>
      (mirrors_ruledOut _ M).bind fun ts => mirrors_each ts fun t => mirrors_assert _

theorem mirrors_axioms (h : m.relations = m'.relations) {ds ds' : List Axiom}
    (hds : List.Forall₂ (fun a b : Axiom => a.kind = b.kind ∧ a.rel = b.rel) ds ds')
    (hP : ∀ d ∈ ds, P ("axiom " ++ d.name)) (hP' : ∀ d ∈ ds', P ("axiom " ++ d.name)) :
    Mirrors P (ds.forM (assertAxiom g m)) (ds'.forM (assertAxiom (g.named names) m')) := by
  induction hds with
  | nil => exact mirrors_pure PUnit.unit
  | cons hd _ ih =>
    rw [List.forall_mem_cons] at hP hP'
    exact (mirrors_assertAxiom h hd hP.1 hP'.1).bind fun _ => ih hP.2 hP'.2

theorem mirrors_declare (g : EventGraph) (o : Outcome) (names : List String) :
    Mirrors P (declare g o) (declare (g.named names) o) :=
  (mirrors_each _ fun _ => mirrors_declare_const _ _).bind fun _ =>
    (mirrors_each _ fun _ => mirrors_declare_const _ _).bind fun _ =>
      mirrors_each _ fun _ => mirrors_declare_const _ _

def headings : List String :=
  ["value domains", "rf functional", "co total order", "data flow", "path constraints"]

section Headings
variable (hP : ∀ title ∈ headings, P title)
include hP

theorem mirrors_domains : Mirrors P (assertDomains g) (assertDomains (g.named names)) := by
  have hdomains : valueDomains (g.named names) = valueDomains g := rfl
  unfold assertDomains
  rw [hdomains]
  cases valueDomains g with
  | none => exact mirrors_pure _
  | some domains =>
    exact (mirrors_heading (hP _ (by simp [headings])) (hP _ (by simp [headings]))).bind fun _ =>
      mirrors_each _ fun symbol => mirrors_assert _

theorem mirrors_readsFrom : Mirrors P (assertReadsFrom g) (assertReadsFrom (g.named names)) :=
  (mirrors_heading (hP _ (by simp [headings])) (hP _ (by simp [headings]))).bind fun _ =>
    mirrors_each _ fun _ => (mirrors_assert _).bind fun _ =>
      mirrors_each _ fun _ => mirrors_assert _

theorem mirrors_coherence : Mirrors P (assertCoherence g) (assertCoherence (g.named names)) :=
  (mirrors_heading (hP _ (by simp [headings])) (hP _ (by simp [headings]))).bind fun _ =>
    mirrors_each _ fun _ =>
      (mirrors_each _ fun _ => (mirrors_assert _).bind fun _ => mirrors_assert _).bind fun _ =>
        mirrors_each _ fun _ => mirrors_assert _

theorem mirrors_dataFlow : Mirrors P (assertDataFlow g) (assertDataFlow (g.named names)) :=
  (mirrors_heading (hP _ (by simp [headings])) (hP _ (by simp [headings]))).bind fun _ =>
    mirrors_each _ fun _ => mirrors_assert _

end Headings

theorem mirrors_outcome (hP : P ("outcome " ++ o.render)) :
    Mirrors P (assertOutcome g o) (assertOutcome (g.named names) o) := by
  unfold assertOutcome
  split
  · exact mirrors_pure _
  · exact (mirrors_heading hP hP).bind fun _ =>
      mirrors_each _ fun a => mirrors_assert (atomTerm g a)

def titles (g : EventGraph) (m : MemoryModel) (o : Outcome) : List String :=
  ("model " ++ m.name ++ ": " ++ g.render) :: ("outcome " ++ o.render) :: headings ++
    m.axioms.map fun a => "axiom " ++ a.name

theorem mirrors_build (hm : m.Alike m') (hP : ∀ title ∈ titles g m o, P title)
    (hP' : ∀ title ∈ titles (g.named names) m' o, P title) :
    Mirrors P (build g m o) (build (g.named names) m' o) := by
  have hheadings : ∀ title ∈ headings, P title := fun title h =>
    hP title (List.mem_append_left _ (by simp [h]))
  have htitle : ∀ {g m}, (∀ title ∈ titles g m o, P title) →
      P ("model " ++ m.name ++ ": " ++ g.render) := fun h => h _ (by simp [titles])
  have haxioms : ∀ {g m}, (∀ title ∈ titles g m o, P title) →
      ∀ d ∈ m.axioms, P ("axiom " ++ d.name) := fun h d hd =>
    h _ (List.mem_append_right _ (List.mem_map_of_mem hd))
  exact (mirrors_heading (htitle hP) (htitle hP')).bind fun _ =>
    (mirrors_declare g o names).bind fun _ => (mirrors_domains hheadings).bind fun _ =>
    (mirrors_readsFrom hheadings).bind fun _ => (mirrors_coherence hheadings).bind fun _ =>
    (mirrors_dataFlow hheadings).bind fun _ =>
    (mirrors_axioms hm.relations hm.axioms (haxioms hP) (haxioms hP')).bind fun _ =>
    (mirrors_heading (hheadings _ (by simp [headings])) (hheadings _ (by simp [headings]))).bind
      fun _ => (mirrors_each _ mirrors_assert).bind fun _ =>
        mirrors_outcome (hP _ (by simp [titles]))

/-- Under other names the query comes out beside what it was. -/
theorem encode_beside (names : List String) (hm : m.Alike m')
    (hP : ∀ title ∈ titles g m o, P title) (hP' : ∀ title ∈ titles (g.named names) m' o, P title)
    {script : Script} (h : encode g m o = .ok script) :
    ∃ script', encode (g.named names) m' o = .ok script' ∧
      List.Forall₂ (Command.Beside P) script.commands script'.commands := by
  obtain ⟨q₁, hrun, rfl⟩ := runs_of_encode h
  obtain ⟨q₁', hrun', hq₁⟩ := mirrors_build hm hP hP' ⟨.nil, rfl, rfl⟩ hrun
  exact ⟨_, encode_of_runs hrun', List.rel_reverse hq₁.commands⟩

end Mirrors
end Query
end Consistency
