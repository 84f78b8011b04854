import Mathlib.Data.List.Induction
import Consistency.Cnf.Problem
import Consistency.Proofs.Cnf.Clause

/-!
# What is expected of a procedure for clauses

A sound procedure gives models only to clauses that they make true, and a
complete one denies models only to clauses without any. What a problem is
answered is right in the same sense. The empty clause, which no procedure is
asked about, is one that never holds.
-/

set_option autoImplicit false

namespace Consistency

namespace SatSolver

/-- No literal of a model stands beside its opposite, and every clause has one that does. -/
def Sound (solve : SatSolver) : Prop :=
  ∀ cs model, solve cs = .ok (some model) →
    (∀ l ∈ model, l.flip ∉ model) ∧ ∀ c ∈ cs, ∃ l ∈ c, l ∈ model

def Complete (solve : SatSolver) : Prop :=
  ∀ cs, solve cs = .ok none → ∀ τ, ∃ c ∈ cs, Clause.holds τ c = false

def Returns (solve : SatSolver) : Prop := ∀ cs, ∃ answer, solve cs = .ok answer

end SatSolver

namespace Problem
variable {solve : SatSolver} {p : Problem} {model : List Lit} {τ : Nat → Bool} {l : Lit}

theorem mem_of_table {v : Nat} {b : Bool} (h : (table model)[v]? = some b) : ⟨v, b⟩ ∈ model := by
  unfold table at h
  induction model using List.reverseRecOn with
  | nil => simp at h
  | append_singleton model l ih =>
    rw [List.foldl_append, List.foldl_cons, List.foldl_nil, Std.HashMap.getElem?_insert] at h
    split at h
    · next hv =>
      obtain rfl := beq_iff_eq.1 hv
      obtain rfl := Option.some.inj h
      simp
    · exact List.mem_append_left _ (ih h)

theorem table_ne_none (h : l ∈ model) : (table model)[l.var]? ≠ none := by
  unfold table
  induction model using List.reverseRecOn with
  | nil => simp at h
  | append_singleton model k ih =>
    rw [List.foldl_append, List.foldl_cons, List.foldl_nil, Std.HashMap.getElem?_insert]
    split
    · simp
    · next hv =>
      refine ih ((List.mem_append.1 h).resolve_right fun hk => ?_)
      obtain rfl := List.mem_singleton.1 hk
      simp at hv

theorem holds_valuation (hmodel : ∀ l ∈ model, l.flip ∉ model) (h : l ∈ model) :
    l.holds (valuation model) = true := by
  obtain ⟨b, hb⟩ := Option.ne_none_iff_exists'.1 (table_ne_none h)
  have hvalue : valuation model l.var = b := by
    simp only [valuation, Std.HashMap.getD_eq_getD_getElem?, hb, Option.getD_some]
  have hmem := mem_of_table hb
  rw [Lit.holds, hvalue]
  by_contra hne
  have hflip : l.flip = ⟨l.var, b⟩ := by
    cases hs : l.sign <;> cases b <;> simp_all [Lit.flip]
  exact hmodel l h (hflip ▸ hmem)

/-- A model that is found makes the clauses true. -/
theorem holds_of_decide (hsound : solve.Sound) (h : p.decide solve = .ok (some τ)) :
    p.holds τ = true := by
  unfold decide at h
  split at h
  · exact absurd h (by simp)
  · cases hsolve : solve p.clauses with
    | error text =>
      rw [hsolve] at h
      exact absurd h (by simp [Except.map])
    | ok answer =>
      rw [hsolve] at h
      obtain ⟨model, rfl, rfl⟩ := Option.map_eq_some_iff.1 (Except.ok.inj h)
      obtain ⟨hmodel, hclauses⟩ := hsound _ _ hsolve
      refine List.all_eq_true.2 fun c hc => ?_
      obtain ⟨l, hl, hmem⟩ := hclauses c hc
      exact List.any_eq_true.2 ⟨l, hl, holds_valuation hmodel hmem⟩

theorem not_holds_of_decide (hcomplete : solve.Complete) (h : p.decide solve = .ok none)
    (τ : Nat → Bool) : p.holds τ = false := by
  refine List.all_eq_false.2 ?_
  unfold decide at h
  split at h
  · next hempty =>
    obtain ⟨c, hc, hnil⟩ := List.any_eq_true.1 hempty
    obtain rfl := List.isEmpty_iff.1 hnil
    exact ⟨[], hc, Bool.false_ne_true⟩
  · cases hsolve : solve p.clauses with
    | error text =>
      rw [hsolve] at h
      exact absurd h (by simp [Except.map])
    | ok answer =>
      rw [hsolve] at h
      obtain rfl := Option.map_eq_none_iff.1 (Except.ok.inj h)
      obtain ⟨c, hc, hfails⟩ := hcomplete _ hsolve τ
      exact ⟨c, hc, Bool.eq_false_iff.1 hfails⟩

/-- The only errors are those of the procedure. -/
theorem error_of_decide {text : String} (h : p.decide solve = .error text) :
    solve p.clauses = .error text := by
  unfold decide at h
  split at h
  · exact absurd h (by simp)
  · cases hsolve : solve p.clauses with
    | error text' =>
      rw [hsolve] at h
      exact congrArg Except.error (Except.error.inj h)
    | ok answer =>
      rw [hsolve] at h
      exact absurd h (by simp [Except.map])

end Problem
end Consistency
