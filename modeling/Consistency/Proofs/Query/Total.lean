import Consistency.Proofs.Query.Parts
import Consistency.Proofs.Query.Script

/-!
# Queries of valid models

To make the matrix of an expression is to make those of its parts, and that of
a name the matrix of its definition. In a valid model this recursion ends
without a bound on its depth, whatever the graph, and comes upon no name that
is not defined. So every query gets its script.
-/

set_option autoImplicit false

namespace Consistency

inductive Call where
  | relation (e : RelExpr)
  | named (name : String)

namespace MemoryModel
variable {m : MemoryModel} {e : RelExpr} {name : String}

/-- The first call is one that the second may make. That of a definition is left out if a matrix
is kept under the name. -/
inductive Calls (m : MemoryModel) : Call → Call → Prop where
  | lhs {op : RelOp} {a b : RelExpr} : Calls m (.relation a) (.relation (.binary op a b))
  | rhs {op : RelOp} {a b : RelExpr} : Calls m (.relation b) (.relation (.binary op a b))
  | operand {op : RelSuffix} {a : RelExpr} : Calls m (.relation a) (.relation (.suffixed op a))
  | named {name : String} : Calls m (.named name) (.relation (.named name))
  | definition {name : String} {e : RelExpr} :
      m.relation? name = some e → Calls m (.relation e) (.named name)

theorem acc_relation (h : ∀ y ∈ e.names, Acc m.Calls (.named y)) :
    Acc m.Calls (.relation e) := by
  induction e with
  | base rel => exact .intro _ fun d hd => nomatch hd
  | product s t => exact .intro _ fun d hd => nomatch hd
  | identity s => exact .intro _ fun d hd => nomatch hd
  | named name =>
    apply Acc.intro
    rintro d (_ | _)
    exact h name (List.mem_singleton_self name)
  | binary op a b iha ihb =>
    apply Acc.intro
    rintro d (_ | _)
    · exact iha fun y hy => h y (List.mem_append_left _ hy)
    · exact ihb fun y hy => h y (List.mem_append_right _ hy)
  | suffixed op a ih =>
    apply Acc.intro
    rintro d (_ | _)
    exact ih h

theorem acc_named (h : ∀ e, m.relation? name = some e → Acc m.Calls (.relation e)) :
    Acc m.Calls (.named name) := by
  apply Acc.intro
  intro d hd
  cases hd with
  | definition he => exact h _ he

/-- No chain of calls goes on for ever: each definition leads to earlier ones. -/
theorem calls_wellFounded (hv : m.validate = .ok ()) : WellFounded m.Calls := by
  have hdefined : ∀ name, m.defines name = true → Acc m.Calls (.named name) := by
    refine defined_induction hv fun name e he hnames => acc_named fun d hd => ?_
    obtain rfl := Option.some.inj (he.symm.trans hd)
    exact acc_relation hnames
  have hnamed : ∀ name, Acc m.Calls (.named name) := by
    intro name
    apply acc_named
    intro e he
    exact acc_relation fun y hy => hdefined y ((layered_of_valid hv).1.relations name e he y hy)
  constructor
  rintro (e | name)
  · exact acc_relation fun y _ => hnamed y
  · exact hnamed name

end MemoryModel

namespace Query
variable {g : EventGraph} {m : MemoryModel} {lookup lookup' : String → QueryM Matrix}
  {e : RelExpr} {x : String}

theorem relation_congr (h : ∀ y ∈ e.names, lookup y = lookup' y) :
    relation g lookup e = relation g lookup' e := by
  induction e with
  | base rel => rfl
  | named y => exact h y (List.mem_singleton_self y)
  | product s t => rfl
  | identity s => rfl
  | binary op a b iha ihb =>
    rw [relation, relation, iha fun y hy => h y (List.mem_append_left _ hy),
      ihb fun y hy => h y (List.mem_append_right _ hy)]
  | suffixed op a ih => rw [relation, relation, ih h]

theorem define_congr (h : ∀ e, m.relation? x = some e → ∀ y ∈ e.names, lookup y = lookup' y) :
    define g m lookup x = define g m lookup' x := by
  unfold define
  cases he : m.relation? x with
  | none => rfl
  | some e => simp only [relation_congr (h e he)]

def Unbounded (g : EventGraph) (m : MemoryModel) (lookup : String → QueryM Matrix) : Prop :=
  ∀ name, lookup name = define g m lookup name

/-- Two ways to go down the definitions agree as soon as they are as deep as the definitions. -/
theorem agree_of_layered {f k : Nat → String → QueryM Matrix}
    (hf : ∀ fuel name, f (fuel + 1) name = define g m (f fuel) name)
    (hk : ∀ fuel name, k (fuel + 1) name = define g m (k fuel) name)
    {names : List String} (h : m.Layered names) {fuel : Nat} (hlength : names.length ≤ fuel) :
    ∀ y ∈ names, f fuel y = k fuel y := by
  induction h generalizing fuel with
  | nil => simp
  | @cons name e rest he hrefs _ _ ih =>
    rw [List.length_cons] at hlength
    refine List.forall_mem_cons.2 ⟨?_, ih (Nat.le_of_succ_le hlength)⟩
    -- One step down leaves the names after this one, and no less than their number.
    cases fuel with
    | zero => exact absurd hlength (Nat.not_succ_le_zero _)
    | succ fuel =>
      rw [hf, hk]
      apply define_congr
      intro d hd y hy
      obtain rfl := Option.some.inj (he.symm.trans hd)
      exact ih (Nat.le_of_succ_le_succ hlength) y (hrefs y hy)

theorem agree_of_valid {f k : Nat → String → QueryM Matrix}
    (hf : ∀ fuel name, f (fuel + 1) name = define g m (f fuel) name)
    (hk : ∀ fuel name, k (fuel + 1) name = define g m (k fuel) name)
    (hv : m.validate = .ok ()) {fuel : Nat} (hfuel : m.relations.length ≤ fuel) (name : String) :
    define g m (f fuel) name = define g m (k fuel) name := by
  obtain ⟨hclosed, names, hlayered, hall⟩ := MemoryModel.layered_of_valid hv
  apply define_congr
  intro e he y hy
  apply agree_of_layered hf hk hlayered (hlayered.length_le.trans hfuel)
  exact hall y (hclosed.relations name e he y hy)

theorem unbounded_namedRelation (hv : m.validate = .ok ()) {fuel : Nat}
    (hfuel : m.relations.length < fuel) : Unbounded g m (namedRelation g m fuel) := by
  intro name
  cases fuel with
  | zero => exact absurd hfuel (Nat.not_lt_zero _)
  | succ fuel =>
    exact agree_of_valid (f := namedRelation g m) (k := fun n => namedRelation g m (n + 1))
      (fun _ _ => rfl) (fun _ _ => rfl) hv (Nat.le_of_lt_succ hfuel) name

theorem Unbounded.eq_namedRelation (h : Unbounded g m lookup) (hv : m.validate = .ok ())
    {fuel : Nat} (hfuel : m.relations.length < fuel) : lookup = namedRelation g m fuel := by
  funext name
  rw [h name, unbounded_namedRelation hv hfuel name]
  exact agree_of_valid (f := fun _ => lookup) (k := namedRelation g m)
    (fun _ name => h name) (fun _ _ => rfl) hv hfuel.le name

def Succeeds {α : Type} (f : QueryM α) : Prop := ∀ q, ∃ a q₁, Runs f q a q₁

theorem succeeds_modify (u : QueryState → QueryState) : Succeeds (modify u : QueryM PUnit) :=
  fun q => ⟨⟨⟩, u q, Runs.modify_iff.2 rfl⟩

theorem succeeds : Compositional Succeeds where
  pure := fun a q => ⟨a, q, Runs.pure_iff.2 ⟨rfl, rfl⟩⟩
  bind := by
    intro α β f k hf hk q
    obtain ⟨a, q₁, hf'⟩ := hf q
    obtain ⟨b, q₂, hk'⟩ := hk a q₁
    exact ⟨b, q₂, Runs.bind_iff.2 ⟨a, q₁, hf', hk'⟩⟩
  get := fun q => ⟨q, q, Runs.get_iff.2 ⟨rfl, rfl⟩⟩
  add := fun _ => succeeds_modify _
  count := fun _ => succeeds_modify _
  keep := fun _ _ => succeeds_modify _

/-- The recursion comes upon defined names only. -/
theorem Unbounded.succeeds (h : Unbounded g m lookup) (hv : m.validate = .ok ()) :
    ∀ name, m.defines name = true → Succeeds (lookup name) := by
  refine MemoryModel.defined_induction hv fun name e he hnames => ?_
  rw [h name]
  apply composes_define Query.succeeds
  · intro hnone
    exact absurd (he.symm.trans hnone) (by simp)
  · intro d hd
    obtain rfl := Option.some.inj (he.symm.trans hd)
    exact hnames

theorem succeeds_axiom (hv : m.validate = .ok ()) {d : Axiom} (hd : d ∈ m.axioms) :
    Succeeds (assertAxiom g m d) := by
  apply composes_axiom succeeds
  intro y hy
  have hdefined := (MemoryModel.layered_of_valid hv).1.axioms d hd y hy
  exact (unbounded_namedRelation hv (Nat.lt_succ_self _)).succeeds hv y hdefined

/-- Whatever the graph and the outcome, there is a script. -/
theorem exists_script (hv : m.validate = .ok ()) (g : EventGraph) (o : Outcome) :
    ∃ script, encode g m o = .ok script := by
  have hbuild : Succeeds (build g m o) := composes_build succeeds o fun _ => succeeds_axiom hv
  obtain ⟨⟨⟩, q, hrun⟩ := hbuild ⟨[], [], 0⟩
  exact ⟨_, encode_of_runs hrun⟩

end Query
end Consistency
