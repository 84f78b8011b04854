import Mathlib.Algebra.Order.BigOperators.Group.Finset
import Mathlib.Logic.Relation
import Mathlib.Order.Interval.Finset.Nat

/-!
# Paths in finite relations

Between `n` nodes no path needs more than `n` steps, as a longer one meets a
node twice. Composing a relation with itself doubles the length of the paths it
covers, so that repeated squaring ends at the transitive closure.
-/

set_option autoImplicit false

namespace Consistency
variable {r : Nat → Nat → Prop} {a b : Nat}

structure IsPath (r : Nat → Nat → Prop) (a b length : Nat) (node : Nat → Nat) : Prop where
  first : node 0 = a
  last : node length = b
  step : ∀ i < length, r (node i) (node (i + 1))

def Steps (r : Nat → Nat → Prop) (length a b : Nat) : Prop := ∃ node, IsPath r a b length node

theorem IsPath.part {length i j : Nat} {node : Nat → Nat} (h : IsPath r a b length node)
    (hij : i ≤ j) (hj : j ≤ length) : Steps r (j - i) (node i) (node j) := by
  refine ⟨fun k => node (i + k), rfl, ?_, fun k hk => ?_⟩
  · rw [Nat.add_sub_cancel' hij]
  · have hlt : i + k < length := by omega
    exact h.step (i + k) hlt

theorem Steps.trans {c l m : Nat} (h : Steps r l a b) (k : Steps r m b c) :
    Steps r (l + m) a c := by
  obtain ⟨p, hp⟩ := h
  obtain ⟨q, hq⟩ := k
  refine ⟨fun i => if i < l then p i else q (i - l), ?_, ?_, fun i hi => ?_⟩
  · by_cases hl : 0 < l
    · simp [hl, hp.first]
    · obtain rfl : l = 0 := by omega
      have hab : a = b := hp.first.symm.trans hp.last
      simp [hq.first, hab]
  · simp [hq.last]
  · by_cases h₁ : i + 1 < l
    · have h₂ : i < l := by omega
      simpa [h₁, h₂] using hp.step i h₂
    · by_cases h₂ : i < l
      · have h₃ : i + 1 = l := by omega
        have h₄ := hp.step i h₂
        rw [h₃, hp.last, ← hq.first] at h₄
        simpa [h₂, h₃] using h₄
      · have h₃ : i + 1 - l = i - l + 1 := by omega
        have h₄ : i - l < m := by omega
        simpa [h₁, h₂, h₃] using hq.step (i - l) h₄

theorem steps_one (h : r a b) : Steps r 1 a b := by
  refine ⟨fun i => if i = 0 then a else b, rfl, rfl, fun i hi => ?_⟩
  obtain rfl : i = 0 := by omega
  exact h

theorem exists_steps (h : Relation.TransGen r a b) : ∃ l, 0 < l ∧ Steps r l a b := by
  induction h with
  | single h => exact ⟨1, by omega, steps_one h⟩
  | tail _ h ih =>
    obtain ⟨l, hl, hs⟩ := ih
    exact ⟨l + 1, by omega, hs.trans (steps_one h)⟩

theorem IsPath.shorten {n length : Nat} {node : Nat → Nat} (hr : ∀ a b, r a b → b < n)
    (h : IsPath r a b length node) (hn : n < length) :
    ∃ l, 0 < l ∧ l < length ∧ Steps r l a b := by
  have hmaps : ∀ i ∈ Finset.Icc 1 length, node i ∈ Finset.range n := by
    intro i hi
    rw [Finset.mem_Icc] at hi
    have hstep := hr _ _ (h.step (i - 1) (by omega))
    rw [Nat.sub_add_cancel hi.1] at hstep
    exact Finset.mem_range.2 hstep
  have hcard : (Finset.range n).card < (Finset.Icc 1 length).card := by simpa using hn
  obtain ⟨i, hi, j, hj, hne, heq⟩ := Finset.exists_ne_map_eq_of_card_lt_of_maps_to hcard hmaps
  rw [Finset.mem_Icc] at hi hj
  -- Leave out what lies between the two times the node is met.
  have cut : ∀ {i j}, 1 ≤ i → i < j → j ≤ length → node i = node j →
      ∃ l, 0 < l ∧ l < length ∧ Steps r l a b := by
    intro i j hi hij hj heq
    have h₁ := h.part (Nat.zero_le i) (by omega)
    have h₂ := h.part hj le_rfl
    rw [h.first] at h₁
    rw [← heq, h.last] at h₂
    exact ⟨i - 0 + (length - j), by omega, by omega, h₁.trans h₂⟩
  rcases Nat.lt_or_gt_of_ne hne with hlt | hlt
  · exact cut hi.1 hlt hj.2 heq
  · exact cut hj.1 hlt hi.2 heq.symm

/-- Between `n` nodes `n` steps are enough. -/
theorem exists_short_steps {n : Nat} (hr : ∀ a b, r a b → b < n) (h : Relation.TransGen r a b) :
    ∃ l, 0 < l ∧ l ≤ n ∧ Steps r l a b := by
  obtain ⟨l, hl, hs⟩ := exists_steps h
  induction l using Nat.strong_induction_on with
  | _ l ih =>
    by_cases hn : l ≤ n
    · exact ⟨l, hl, hn, hs⟩
    · obtain ⟨node, hnode⟩ := hs
      obtain ⟨k, hk, hkl, hks⟩ := hnode.shorten hr (by omega)
      exact ih k hkl hk hks

def Doubled (r : Nat → Nat → Prop) : Nat → Nat → Nat → Prop
  | 0, a, b => r a b
  | k + 1, a, b => Doubled r k a b ∨ ∃ c, Doubled r k a c ∧ Doubled r k c b

theorem doubled_succ {k : Nat} : Doubled r (k + 1) a b ↔ Doubled (Doubled r 1) k a b := by
  induction k generalizing a b with
  | zero => rfl
  | succ k ih =>
    rw [Doubled, ih]
    simp only [ih]
    rfl

theorem doubled_of_steps {k l : Nat} (hl : 0 < l) (hk : l ≤ 2 ^ k) (h : Steps r l a b) :
    Doubled r k a b := by
  induction k generalizing l a b with
  | zero =>
    obtain rfl : l = 1 := by omega
    obtain ⟨node, hnode⟩ := h
    have := hnode.step 0 (by omega)
    rwa [hnode.first, hnode.last] at this
  | succ k ih =>
    have hpow : 2 ^ (k + 1) = 2 ^ k + 2 ^ k := by omega
    by_cases hle : l ≤ 2 ^ k
    · exact .inl (ih hl hle h)
    · obtain ⟨node, hnode⟩ := h
      have h₁ := hnode.part (Nat.zero_le (2 ^ k)) (by omega)
      have h₂ := hnode.part (show 2 ^ k ≤ l by omega) le_rfl
      rw [hnode.first] at h₁
      rw [hnode.last] at h₂
      exact .inr ⟨node (2 ^ k), ih (Nat.two_pow_pos k) (by omega) h₁, ih (by omega) (by omega) h₂⟩

theorem transGen_of_doubled {k : Nat} (h : Doubled r k a b) : Relation.TransGen r a b := by
  induction k generalizing a b with
  | zero => exact .single h
  | succ k ih =>
    rcases h with h | ⟨c, hac, hcb⟩
    · exact ih h
    · exact (ih hac).trans (ih hcb)

theorem doubled_iff {n k : Nat} (hr : ∀ a b, r a b → b < n) (hk : n ≤ 2 ^ k) :
    Doubled r k a b ↔ Relation.TransGen r a b := by
  refine ⟨transGen_of_doubled, fun h => ?_⟩
  obtain ⟨l, hl, hn, hs⟩ := exists_short_steps hr h
  exact doubled_of_steps hl (hn.trans hk) hs

/-- Among finitely many nodes, a relation without cycles cannot be followed forever. -/
theorem wellFounded_of_acyclic {n : Nat} (hr : ∀ a b, r a b → b < n)
    (h : ∀ a, ¬ Relation.TransGen r a a) : WellFounded (flip r) := by
  classical
  let ahead (a : Nat) : Finset Nat := (Finset.range n).filter fun b => Relation.TransGen r a b
  have hmem : ∀ a b, b ∈ ahead a ↔ b < n ∧ Relation.TransGen r a b := by simp [ahead]
  have hless : ∀ b a, flip r b a → (ahead b).card < (ahead a).card := by
    intro b a hab
    have hab : r a b := hab
    refine Finset.card_lt_card ((Finset.ssubset_iff_of_subset fun c hc => ?_).2 ⟨b, ?_, ?_⟩)
    · have hc := (hmem b c).1 hc
      exact (hmem a c).2 ⟨hc.1, .head hab hc.2⟩
    · exact (hmem a b).2 ⟨hr a b hab, .single hab⟩
    · exact fun hb => h b ((hmem b b).1 hb).2
  exact Subrelation.wf (fun {b a} hab => hless b a hab)
    (InvImage.wf (fun a => (ahead a).card) Nat.lt_wfRel.wf)

end Consistency
