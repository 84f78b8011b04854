import Consistency.Proofs.Query.Relation

/-!
# What the parts of a query require

Under an assignment that fits a choice and values of the integer symbols, the
assertions that a part of the query adds are true exactly if the choice and the
values are as the part requires.
-/

set_option autoImplicit false

namespace Consistency

abbrev Valuation := String → Int

def Valuation.environment (v : Valuation) : Environment := fun name => some (.int (v name))

namespace Query
variable {g : EventGraph} {m : MemoryModel} {o : Outcome} {x : Choice} {ρ : Meaning}
  {v : Valuation} {q q₁ : QueryState} {M : Matrix} {P Q : Prop} {t : Term} {f k : QueryM Unit}

def Evaluates (g : EventGraph) (v : Valuation) : Prop :=
  ∀ w ∈ g.writes, ∃ n, (valueAt g w).Computes v.environment n

structure Fits (env : Environment) (g : EventGraph) (o : Outcome) (x : Choice) (v : Valuation) :
    Prop where
  shows : Shows env g x
  values : ∀ name ∈ (intSymbols g o).toList, env name = some (.int (v name))

/-- The part goes through, and if all that is asserted before and its definitions are true, what
it asserts is true exactly if `P` holds. -/
def Requires (g : EventGraph) (o : Outcome) (x : Choice) (ρ : Meaning) (v : Valuation)
    (f : QueryM Unit) (P : Prop) : Prop :=
  ∀ q, Known g x ρ q → ∃ q₁ ds ts, Runs f q ⟨⟩ q₁ ∧ Known g x ρ q₁ ∧
    Grows (ChoiceSymbol g) q ds ts q₁ ∧ ∀ env, Fits env g o x v →
      (∀ t ∈ q.asserted, t.Decides env true) →
      (∀ t ∈ definitionsFrom q.definitions ds, t.Decides env true) →
      ((∀ t ∈ ts, t.Decides env true) ↔ P)

theorem Requires.congr_of_fits (h : Requires g o x ρ v f P)
    (hPQ : ∀ env, Fits env g o x v → (P ↔ Q)) : Requires g o x ρ v f Q := by
  intro q hq
  obtain ⟨q₁, ds, ts, hrun, hknown, hgrows, htrue⟩ := h q hq
  exact ⟨q₁, ds, ts, hrun, hknown, hgrows, fun env hf hq hd =>
    (htrue env hf hq hd).trans (hPQ env hf)⟩

theorem Requires.congr (h : Requires g o x ρ v f P) (hPQ : P ↔ Q) : Requires g o x ρ v f Q :=
  h.congr_of_fits fun _ _ => hPQ

theorem requires_nothing : Requires g o x ρ v (pure ⟨⟩) True := fun q hq =>
  ⟨q, [], [], Runs.pure_iff.2 ⟨rfl, rfl⟩, hq, .refl _ q, fun _ _ _ _ => by simp⟩

theorem Requires.bind (hf : Requires g o x ρ v f P) (hk : Requires g o x ρ v k Q) :
    Requires g o x ρ v (f >>= fun _ => k) (P ∧ Q) := by
  intro q hq
  obtain ⟨q₁, ds, ts, hrun, hknown, hgrows, htrue⟩ := hf q hq
  obtain ⟨q₂, es, us, hrun', hknown', hgrows', htrue'⟩ := hk q₁ hknown
  refine ⟨q₂, ds ++ es, ts ++ us, Runs.bind_iff.2 ⟨_, q₁, hrun, hrun'⟩, hknown',
    hgrows.trans hgrows', fun env hfit hall hdefs => ?_⟩
  rw [definitionsFrom_append, List.forall_mem_append, ← hgrows.definitions] at hdefs
  rw [List.forall_mem_append, ← htrue env hfit hall hdefs.1]
  refine and_congr_right fun hts => htrue' env hfit (fun t ht => ?_) hdefs.2
  rcases (hgrows.asserted t).1 ht with ht | ht | ht
  · exact hall t ht
  · exact hdefs.1 t ht
  · exact hts t ht

theorem requires_forM {α : Type} {xs : List α} {f : α → QueryM Unit} {P : α → Prop}
    (h : ∀ a ∈ xs, Requires g o x ρ v (f a) (P a)) :
    Requires g o x ρ v (xs.forM f) (∀ a ∈ xs, P a) := by
  induction xs with
  | nil => exact requires_nothing.congr (by simp)
  | cons a xs ih =>
    rw [List.forall_mem_cons] at h ⊢
    exact h.1.bind (ih h.2)

/-- A command that neither asserts nor declares. -/
theorem grows_add {S : String → Prop} {c : Command} (ha : c.assertion = none)
    (hd : c.declared = none) : Grows S q [] [] { q with commands := c :: q.commands } where
  definitions := rfl
  asserted := by
    intro t
    simp [QueryState.asserted, definitionsFrom, ha]
  declared := by
    intro d
    simp only [QueryState.declared, List.filterMap_cons, hd]
    exact (Grows.refl S q).declared d
  formulas := by simp

theorem requires_heading (title : String) : Requires g o x ρ v (heading title) True := by
  intro q hq
  have hgrows := grows_add (S := ChoiceSymbol g) (q := q) (c := .comment title) rfl rfl
  exact ⟨_, [], [], runs_add, hq.grows hgrows rfl, hgrows, fun _ _ _ _ => by simp⟩

theorem grows_assert {S : String → Prop} :
    Grows S q [] [t] { q with commands := .assert t :: q.commands } where
  definitions := rfl
  asserted := by
    intro s
    simp [QueryState.asserted, definitionsFrom, Command.assertion, or_comm]
  declared := by
    intro d
    simp only [QueryState.declared, List.filterMap_cons, Command.declared]
    exact (Grows.refl S q).declared d
  formulas := by simp

/-- What holds anyway need not be asserted. -/
theorem assert_runs (S : String → Prop) (q : QueryState) (t : Term) : ∃ q₁ ts,
    Runs (assert t) q ⟨⟩ q₁ ∧ Grows S q [] ts q₁ ∧ q₁.named = q.named ∧
      ∀ env, (∀ u ∈ ts, u.Decides env true) ↔ t.Decides env true := by
  unfold assert
  by_cases ht : t = .bool true
  · refine ⟨q, [], ?_, .refl S q, rfl, fun env => ?_⟩
    · rw [if_pos ht]
      exact Runs.pure_iff.2 ⟨rfl, rfl⟩
    · rw [ht, Term.decides_bool]
      simp
  · refine ⟨{ q with commands := .assert t :: q.commands }, [t], ?_, grows_assert, rfl,
      fun env => List.forall_mem_singleton⟩
    rw [if_neg ht]
    exact runs_add

theorem requires_assert (h : ∀ env, Fits env g o x v → (t.Decides env true ↔ P)) :
    Requires g o x ρ v (assert t) P := by
  intro q hq
  obtain ⟨q₁, ts, hrun, hgrows, hn, hts⟩ := assert_runs (ChoiceSymbol g) q t
  exact ⟨q₁, [], ts, hrun, hq.grows hgrows hn, hgrows, fun env hf _ _ =>
    (hts env).trans (h env hf)⟩

theorem assertAll_runs {α : Type} (S : String → Prop) (q : QueryState) (f : α → Term)
    (xs : List α) : ∃ q₁ ts, Runs (xs.forM fun a => assert (f a)) q ⟨⟩ q₁ ∧
      Grows S q [] ts q₁ ∧ q₁.named = q.named ∧
        ∀ env, (∀ u ∈ ts, u.Decides env true) ↔ ∀ a ∈ xs, (f a).Decides env true := by
  induction xs generalizing q with
  | nil => exact ⟨q, [], Runs.forM_nil.2 rfl, .refl S q, rfl, by simp⟩
  | cons a xs ih =>
    obtain ⟨q₁, ts, hrun, hgrows, hn, hts⟩ := assert_runs S q (f a)
    obtain ⟨q₂, us, hrun', hgrows', hn', hus⟩ := ih q₁
    refine ⟨q₂, ts ++ us, Runs.forM_cons.2 ⟨q₁, hrun, hrun'⟩, hgrows.trans hgrows',
      hn'.trans hn, fun env => ?_⟩
    rw [List.forall_mem_append, List.forall_mem_cons, hts env, hus env]

theorem formula_diagonal (h : Formed (ChoiceSymbol g) q g.size M) :
    ∀ t ∈ M.diagonal, t.Formula (Upto (ChoiceSymbol g) q.definitions) := by
  intro t ht
  obtain ⟨a, ha, rfl⟩ := List.mem_map.1 ht
  rw [List.mem_range, h.square.size] at ha
  exact h.formula a a ha ha

theorem diagonal_iff {env : Environment} {r : Nat → Nat → Prop} (h : M.Represents env g.size r) :
    (∀ t ∈ M.diagonal, (Term.mkNot t).Decides env true) ↔ ∀ a, ¬ r a a := by
  rw [Matrix.diagonal, List.forall_mem_map, h.square.size]
  constructor
  · intro hall a ha
    have hlt := (h.inside a a ha).1
    exact (h.tells a a hlt hlt).mkNot.decides_true.1 (hall a (List.mem_range.2 hlt)) ha
  · intro hall a ha
    have hlt := List.mem_range.1 ha
    exact (h.tells a a hlt hlt).mkNot.decides_true.2 (hall a)

/-- All formulas that an axiom rules out are false exactly if the axiom holds. -/
theorem ruledOut_runs (kind : AxiomKind) {r : Nat → Nat → Prop}
    (hq : Known g x ρ q) (h : Stands g x q M r) : ∃ ts q₁, Runs (ruledOut kind M) q ts q₁ ∧
      Extends (ChoiceSymbol g) q q₁ ∧ Known g x ρ q₁ ∧
      (∀ t ∈ ts, t.Formula (Upto (ChoiceSymbol g) q₁.definitions)) ∧
      ∀ env, Shows env g x → Settles env q₁ →
        ((∀ t ∈ ts, (Term.mkNot t).Decides env true) ↔ kind.Holds r) := by
  cases kind with
  | acyclic =>
    obtain ⟨N, q₁, hrun, hext, hknown, hN⟩ := closure_yields hq h
    refine ⟨N.diagonal, q₁, ?_, hext, hknown, formula_diagonal hN.formed, fun env hx hs => ?_⟩
    · exact Runs.bind_iff.2 ⟨N, q₁, hrun, Runs.pure_iff.2 ⟨rfl, rfl⟩⟩
    · exact diagonal_iff (hN.represents env hx hs)
  | irreflexive =>
    exact ⟨M.diagonal, q, Runs.pure_iff.2 ⟨rfl, rfl⟩, .refl _ q, hq, formula_diagonal h.formed,
      fun env hx hs => diagonal_iff (h.represents env hx hs)⟩
  | empty =>
    refine ⟨M.entries, q, Runs.pure_iff.2 ⟨rfl, rfl⟩, .refl _ q, hq, fun t ht => ?_,
      fun env hx hs => ?_⟩
    · obtain ⟨a, ha, b, hb, rfl⟩ := (Matrix.mem_entries h.formed.square).1 ht
      exact h.formed.formula a b ha hb
    have hM := h.represents env hx hs
    constructor
    · intro hall a b hab
      obtain ⟨ha, hb⟩ := hM.inside a b hab
      have ht := hall _ ((Matrix.mem_entries hM.square).2 ⟨a, ha, b, hb, rfl⟩)
      exact (hM.tells a b ha hb).mkNot.decides_true.1 ht hab
    · intro hall t ht
      obtain ⟨a, ha, b, hb, rfl⟩ := (Matrix.mem_entries hM.square).1 ht
      exact (hM.tells a b ha hb).mkNot.decides_true.2 (hall a b)

/-- Definitions come with the matrices, and one assertion with each formula ruled out. -/
theorem requires_axiom (hv : m.validate = .ok ()) (hρ : m.Interprets g x ρ) {d : Axiom}
    (hd : d ∈ m.axioms) :
    Requires g o x ρ v (assertAxiom g m d) (d.kind.Holds (d.rel.Denotes g x ρ)) := by
  have hc := (MemoryModel.layered_of_valid hv).1
  unfold assertAxiom
  refine ((requires_heading _).bind (Q := d.kind.Holds (d.rel.Denotes g x ρ)) fun q hq => ?_).congr
    (by rw [true_and])
  obtain ⟨M, q₁, hrun, ⟨ds, hext⟩, hknown, hM⟩ :=
    relation_yields_of_valid hv hρ (hc.axioms d hd) hq
  obtain ⟨ts, q₂, hruled, ⟨es, hext'⟩, hknown', -, hts⟩ := ruledOut_runs d.kind hknown hM
  obtain ⟨q₃, us, hall, hgrows, hn, hus⟩ := assertAll_runs (ChoiceSymbol g) q₂ Term.mkNot ts
  have hbefore := hext.trans hext'
  refine ⟨q₃, ds ++ es ++ [], us, ?_, hknown'.grows hgrows hn, hbefore.trans hgrows,
    fun env hf hasserted hdefs => ?_⟩
  · exact Runs.bind_iff.2 ⟨M, q₁, hrun, Runs.bind_iff.2 ⟨ts, q₂, hruled, hall⟩⟩
  · rw [hus env]
    rw [List.append_nil] at hdefs
    refine hts env hf.shows fun i e hi => ?_
    rcases (hbefore.asserted _).1 hi with hi | hi | hi
    · exact hasserted _ hi
    · exact hdefs _ hi
    · exact absurd hi (by simp)

end Query
end Consistency
