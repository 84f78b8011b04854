import Mathlib.Data.List.Chain
import Consistency.Cnf.Clause

/-!
# Meaning of clauses

Bringing a clause into normal form keeps its meaning under every valuation in
which variable 0 is true. The same holds of the conjuncts that remain of a
conjunction.
-/

set_option autoImplicit false

namespace Consistency

namespace Lit

@[simp] theorem holds_flip (τ : Nat → Bool) (l : Lit) : l.flip.holds τ = !l.holds τ := by
  cases hτ : τ l.var <;> cases hs : l.sign <;> simp [holds, flip, hτ, hs]

@[simp] theorem flip_flip (l : Lit) : l.flip.flip = l := by simp [flip]

@[simp] theorem flip_var (l : Lit) : l.flip.var = l.var := rfl

theorem holds_top {τ : Nat → Bool} (h : τ 0 = true) : top.holds τ = true := by
  simp [holds, top, h]

theorem holds_bottom {τ : Nat → Bool} (h : τ 0 = true) : bottom.holds τ = false := by
  simp [holds, bottom, h]

theorem flip_of_var_eq {a b : Lit} (hv : a.var = b.var) (h : a ≠ b) : b = a.flip := by
  obtain ⟨v, s⟩ := a
  obtain ⟨w, t⟩ := b
  obtain rfl : v = w := hv
  have hs : s ≠ t := fun he => h (by rw [he])
  cases s <;> cases t <;> simp_all [flip]

theorem holds_congr {τ υ : Nat → Bool} {l : Lit} (h : τ l.var = υ l.var) :
    l.holds τ = l.holds υ := by
  simp [holds, h]

theorem holds_inj {τ υ : Nat → Bool} {l : Lit} (h : l.holds τ = l.holds υ) :
    τ l.var = υ l.var := by
  obtain ⟨v, b⟩ := l
  cases hτ : τ v <;> cases hυ : υ v <;> cases b <;> simp_all [holds]

end Lit

namespace Clause

theorem mem_dropRepeats (l : Lit) (c : List Lit) : l ∈ dropRepeats c ↔ l ∈ c := by
  fun_induction dropRepeats c with
  | case1 b rest ih => simp [ih]
  | case2 a b rest h ih => simp only [List.mem_cons, ih]
  | case3 c h => rfl

@[simp] theorem mem_normal (l : Lit) (c : List Lit) : l ∈ normal c ↔ l ∈ c := by
  simp [normal, mem_dropRepeats]

theorem head_dropRepeats (a : Lit) (c : List Lit) :
    ∃ rest, dropRepeats (a :: c) = a :: rest := by
  induction c with
  | nil => exact ⟨[], rfl⟩
  | cons b c ih =>
    by_cases h : a = b
    · subst h
      simpa [dropRepeats] using ih
    · exact ⟨dropRepeats (b :: c), by simp [dropRepeats, h]⟩

/-- Neighbours differ. -/
theorem dropRepeats_isChain (c : List Lit) : (dropRepeats c).IsChain (· ≠ ·) := by
  fun_induction dropRepeats c with
  | case1 b rest ih => exact ih
  | case2 a b rest h ih =>
    obtain ⟨tail, ht⟩ := head_dropRepeats b rest
    rw [ht] at ih ⊢
    exact List.isChain_cons_cons.2 ⟨h, ih⟩
  | case3 c h =>
    match c, h with
    | [], _ => exact .nil
    | [a], _ => exact .singleton a
    | a :: b :: rest, h => exact absurd rfl (h a b rest)

theorem opposites_of_clashes {c : List Lit} (hc : c.IsChain (· ≠ ·)) (h : clashes c = true) :
    ∃ l ∈ c, l.flip ∈ c := by
  fun_induction clashes c with
  | case1 a b rest ih =>
    rw [List.isChain_cons_cons] at hc
    rcases Bool.or_eq_true_iff.1 h with hv | hr
    · refine ⟨a, by simp, ?_⟩
      rw [← Lit.flip_of_var_eq (by simpa using hv) hc.1]
      simp
    · obtain ⟨l, hl, hf⟩ := ih hc.2 hr
      exact ⟨l, List.mem_cons_of_mem a hl, List.mem_cons_of_mem a hf⟩
  | case2 c h' => exact absurd h Bool.false_ne_true

theorem opposites_of_clashes_normal {c : List Lit} (h : clashes (normal c) = true) :
    ∃ l ∈ c, l.flip ∈ c := by
  obtain ⟨l, hl, hf⟩ := opposites_of_clashes (dropRepeats_isChain _) h
  exact ⟨l, (mem_normal l c).1 hl, (mem_normal l.flip c).1 hf⟩

theorem holds_iff {τ : Nat → Bool} {c : Clause} : c.holds τ = true ↔ ∃ l ∈ c, l.holds τ = true :=
  List.any_eq_true

theorem holds_congr {τ υ : Nat → Bool} {c : Clause} (h : ∀ l ∈ c, τ l.var = υ l.var) :
    c.holds τ = c.holds υ := by
  rw [Bool.eq_iff_iff, holds_iff, holds_iff]
  constructor
  · rintro ⟨l, hl, ht⟩
    exact ⟨l, hl, by rwa [← Lit.holds_congr (h l hl)]⟩
  · rintro ⟨l, hl, ht⟩
    exact ⟨l, hl, by rwa [Lit.holds_congr (h l hl)]⟩

/-- A clause left out holds always. -/
theorem holds_of_simplify_none {τ : Nat → Bool} {c : Clause} (h0 : τ 0 = true)
    (h : simplify c = none) : c.holds τ = true := by
  rw [holds_iff]
  unfold simplify at h
  split at h
  · rename_i ht
    exact ⟨.top, by simpa using ht, Lit.holds_top h0⟩
  · dsimp only at h
    split at h
    · rename_i hc
      obtain ⟨l, hl, hf⟩ := opposites_of_clashes_normal hc
      cases hτ : l.holds τ with
      | true => exact ⟨l, (List.mem_filter.1 hl).1, hτ⟩
      | false => exact ⟨l.flip, (List.mem_filter.1 hf).1, by simp [hτ]⟩
    · exact absurd h (by simp)

theorem holds_of_simplify_some {τ : Nat → Bool} {c k : Clause} (h0 : τ 0 = true)
    (h : simplify c = some k) : k.holds τ = c.holds τ := by
  unfold simplify at h
  split at h
  · exact absurd h (by simp)
  · dsimp only at h
    split at h
    · exact absurd h (by simp)
    · obtain rfl := Option.some.inj h
      rw [Bool.eq_iff_iff, holds_iff, holds_iff]
      constructor
      · rintro ⟨l, hl, ht⟩
        rw [mem_normal, List.mem_filter] at hl
        exact ⟨l, hl.1, ht⟩
      · rintro ⟨l, hl, ht⟩
        refine ⟨l, (mem_normal _ _).2 (List.mem_filter.2 ⟨hl, ?_⟩), ht⟩
        rw [bne_iff_ne]
        rintro rfl
        rw [Lit.holds_bottom h0] at ht
        exact Bool.noConfusion ht

end Clause

theorem conjuncts_none {τ : Nat → Bool} {ls : List Lit} (h0 : τ 0 = true)
    (h : conjuncts ls = none) : ls.all (Lit.holds τ) = false := by
  rw [List.all_eq_false]
  unfold conjuncts at h
  split at h
  · rename_i hb
    exact ⟨.bottom, by simpa using hb, by simp [Lit.holds_bottom h0]⟩
  · dsimp only at h
    split at h
    · rename_i hc
      obtain ⟨l, hl, hf⟩ := Clause.opposites_of_clashes_normal hc
      cases hτ : l.holds τ with
      | false => exact ⟨l, (List.mem_filter.1 hl).1, by simp [hτ]⟩
      | true => exact ⟨l.flip, (List.mem_filter.1 hf).1, by simp [hτ]⟩
    · exact absurd h (by simp)

theorem mem_of_conjuncts {ls ks : List Lit} (h : conjuncts ls = some ks) {l : Lit}
    (hl : l ∈ ks) : l ∈ ls := by
  unfold conjuncts at h
  split at h
  · exact absurd h (by simp)
  · dsimp only at h
    split at h
    · exact absurd h (by simp)
    · obtain rfl := Option.some.inj h
      exact (List.mem_filter.1 ((Clause.mem_normal _ _).1 hl)).1

theorem conjuncts_some {τ : Nat → Bool} {ls ks : List Lit} (h0 : τ 0 = true)
    (h : conjuncts ls = some ks) : ks.all (Lit.holds τ) = ls.all (Lit.holds τ) := by
  rw [Bool.eq_iff_iff, List.all_eq_true, List.all_eq_true]
  refine ⟨fun hk l hl => ?_, fun hk l hl => hk l (mem_of_conjuncts h hl)⟩
  by_cases ht : l = .top
  · rw [ht]
    exact Lit.holds_top h0
  · apply hk
    unfold conjuncts at h
    split at h
    · exact absurd h (by simp)
    · dsimp only at h
      split at h
      · exact absurd h (by simp)
      · obtain rfl := Option.some.inj h
        exact (Clause.mem_normal _ _).2 (List.mem_filter.2 ⟨hl, by simpa using ht⟩)

end Consistency
