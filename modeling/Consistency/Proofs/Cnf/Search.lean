import Mathlib.Data.List.Basic
import Consistency.Cnf.Search
import Consistency.Proofs.Cnf.Procedure

/-!
# Soundness and completeness of search

A valuation that is found makes all clauses hold, and if none is found there is
none: either the clauses have been refuted or all valuations have been tried. So
there is a procedure of which all can be expected that theorems expect of one.
-/

set_option autoImplicit false

namespace Consistency

namespace Problem
variable {p : Problem} {τ υ : Nat → Bool}

theorem holds_congr (h : ∀ v ∈ p.support, τ v = υ v) : p.holds τ = p.holds υ := by
  rw [Bool.eq_iff_iff, holds, holds, List.all_eq_true, List.all_eq_true]
  refine forall₂_congr fun d hd => ?_
  rw [Clause.holds_congr fun l hl => h l.var ?_]
  rw [support, List.mem_eraseDups]
  exact List.mem_flatMap.2 ⟨d, hd, List.mem_map_of_mem hl⟩

theorem holds_of_tryAll {vs : List Nat} (h : p.tryAll vs τ = some υ) : p.holds υ = true := by
  induction vs generalizing τ with
  | nil =>
    rw [tryAll] at h
    split at h
    · next hp =>
      obtain rfl := Option.some.inj h
      exact hp
    · exact absurd h (by simp)
  | cons v vs ih =>
    rw [tryAll] at h
    split at h
    · next found hf =>
      obtain rfl := Option.some.inj h
      exact ih hf
    · exact ih h

/-- No valuation that differs from `τ` in the listed variables only has been missed. -/
theorem not_holds_of_tryAll {vs : List Nat} (h : p.tryAll vs τ = none)
    (hυ : ∀ v, v ∉ vs → υ v = τ v) : p.holds υ = false := by
  induction vs generalizing τ with
  | nil =>
    obtain rfl : υ = τ := funext fun v => hυ v (by simp)
    rw [tryAll] at h
    split at h
    · exact absurd h (by simp)
    · next hp => exact Bool.eq_false_iff.2 hp
  | cons v vs ih =>
    rw [tryAll] at h
    split at h
    · exact absurd h (by simp)
    · next hf =>
      have agree : ∀ b, υ v = b → ∀ w, w ∉ vs → υ w = update τ v b w := by
        intro b hb w hw
        unfold update
        split
        · next he => rw [he, hb]
        · next he => exact hυ w (by simp [he, hw])
      cases hv : υ v with
      | false => exact ih hf (agree false hv)
      | true => exact ih h (agree true hv)

theorem not_holds_of_exhaust (h : p.exhaust = none) (τ : Nat → Bool) : p.holds τ = false := by
  have hcongr : p.holds τ = p.holds fun v => if v ∈ p.support then τ v else false :=
    holds_congr fun v hv => by simp [hv]
  rw [hcongr]
  exact not_holds_of_tryAll h fun v hv => by simp [hv]

theorem holds_of_solve (h : p.solve = some τ) : p.holds τ = true := by
  unfold solve at h
  split at h
  · next υ hυ _ =>
    obtain rfl := Option.some.inj h
    exact hυ
  · exact absurd h (by simp)
  · exact holds_of_tryAll h

theorem not_holds_of_solve (h : p.solve = none) (τ : Nat → Bool) : p.holds τ = false := by
  unfold solve at h
  split at h
  · exact absurd h (by simp)
  · next hr _ => exact hr τ
  · exact not_holds_of_exhaust h τ

theorem le_foldl_max {n k : Nat} {ns : List Nat} (h : n ≤ k ∨ n ∈ ns) : n ≤ ns.foldl max k := by
  induction ns generalizing k with
  | nil => exact h.resolve_right (by simp)
  | cons m ns ih =>
    rw [List.foldl_cons]
    rcases h with h | h
    · exact ih (.inl (h.trans (le_max_left k m)))
    · rcases List.mem_cons.1 h with rfl | h
      · exact ih (.inl (le_max_right k n))
      · exact ih (.inr h)

theorem var_lt_ofClauses {cs : List Clause} {c : Clause} {l : Lit} (hc : c ∈ cs) (hl : l ∈ c) :
    l.var < (ofClauses cs).vars := by
  have hmem : l.var ∈ cs.flatMap fun c => c.map Lit.var :=
    List.mem_flatMap.2 ⟨c, hc, List.mem_map_of_mem hl⟩
  exact Nat.lt_succ_of_le (le_foldl_max (.inr hmem))

end Problem

namespace SatSolver
open Problem

theorem engine_model {cs : List Clause} {model : List Lit} (h : engine cs = .ok (some model)) :
    ∃ τ, (ofClauses cs).holds τ = true ∧
      model = (List.range (ofClauses cs).vars).map fun v => ⟨v, τ v⟩ := by
  obtain ⟨τ, hτ, rfl⟩ := Option.map_eq_some_iff.1 (Except.ok.inj h)
  exact ⟨τ, holds_of_solve hτ, rfl⟩

theorem engine_sound : engine.Sound := by
  intro cs model h
  obtain ⟨τ, hτ, rfl⟩ := engine_model h
  constructor
  · intro l hl hflip
    obtain ⟨v, -, rfl⟩ := List.mem_map.1 hl
    obtain ⟨w, -, hw⟩ := List.mem_map.1 hflip
    obtain ⟨rfl, hsign⟩ := Lit.mk.inj hw
    exact absurd hsign (by simp)
  · intro c hc
    obtain ⟨l, hl, hholds⟩ := List.any_eq_true.1 (List.all_eq_true.1 hτ c hc)
    refine ⟨l, hl, List.mem_map.2 ⟨l.var, List.mem_range.2 (var_lt_ofClauses hc hl), ?_⟩⟩
    rw [beq_iff_eq.1 hholds]

theorem engine_complete : engine.Complete := by
  intro cs h τ
  have hnone := Option.map_eq_none_iff.1 (Except.ok.inj h)
  obtain ⟨c, hc, hfails⟩ := List.all_eq_false.1 (not_holds_of_solve hnone τ)
  exact ⟨c, hc, Bool.eq_false_iff.2 hfails⟩

theorem engine_returns : engine.Returns := fun _ => ⟨_, rfl⟩

end SatSolver
end Consistency
