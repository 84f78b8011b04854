import Consistency.Ordered.Distinct
import Std.Data.HashSet.Lemmas

/-!
# Members of lists without repetitions

Only repetitions are dropped.
-/

set_option autoImplicit false

namespace Consistency
variable {α : Type} [BEq α] [Hashable α] [LawfulBEq α]

theorem mem_distinctFrom {seen : Std.HashSet α} {xs : List α} {a : α} :
    a ∈ distinctFrom seen xs ↔ a ∈ xs ∧ a ∉ seen := by
  induction xs generalizing seen with
  | nil => simp [distinctFrom]
  | cons x xs ih =>
    unfold distinctFrom
    split
    · next hx =>
      rw [ih, List.mem_cons]
      refine and_congr_left fun ha => ⟨.inr, fun h => h.resolve_left ?_⟩
      rintro rfl
      exact ha hx
    · next hx =>
      rw [List.mem_cons, ih, List.mem_cons, Std.HashSet.mem_insert, not_or]
      have hne : a = x → a ∉ seen := by
        rintro rfl
        exact hx
      constructor
      · rintro (he | ⟨ha, _, hs⟩)
        · exact ⟨.inl he, hne he⟩
        · exact ⟨.inr ha, hs⟩
      · rintro ⟨he | ha, hs⟩
        · exact .inl he
        · by_cases he : a = x
          · exact .inl he
          · exact .inr ⟨ha, by simpa using fun h => he h.symm, hs⟩

theorem mem_distinct {xs : List α} {a : α} : a ∈ distinct xs ↔ a ∈ xs := by
  simp [distinct, mem_distinctFrom]

end Consistency
