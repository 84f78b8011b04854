import Mathlib.Data.List.Basic
import Consistency.Ordered.Set

/-!
# Members of ordered sets

Sets made from lists have no member twice, and have the members that were put
in. Sets are in linear order if their members are.
-/

set_option autoImplicit false

namespace Consistency

section Sorted
variable {α : Type} [Ord α]

theorem isLE_total [Std.OrientedOrd α] (a b : α) :
    ((compare a b).isLE || (compare b a).isLE) = true := by
  rw [Bool.or_eq_true]
  rcases hc : compare a b with _ | _ | _
  · exact .inl rfl
  · exact .inl rfl
  · rw [Std.OrientedCmp.gt_iff_lt] at hc
    exact .inr (by rw [hc]; rfl)

theorem pairwise_mergeSort [Std.TransOrd α] (xs : List α) :
    (xs.mergeSort fun a b => (compare a b).isLE).Pairwise fun a b => (compare a b).isLE :=
  List.pairwise_mergeSort (fun _ _ _ => Std.TransCmp.isLE_trans) isLE_total xs

/-- Lists with the same members are sorted into the same list. -/
theorem mergeSort_eq_of_perm [Std.TransOrd α] [Std.LawfulEqOrd α] {xs ys : List α}
    (h : xs.Perm ys) : xs.mergeSort (fun a b => (compare a b).isLE) =
      ys.mergeSort fun a b => (compare a b).isLE := by
  refine List.Perm.eq_of_pairwise (fun a b _ _ hab hba => ?_) (pairwise_mergeSort xs)
    (pairwise_mergeSort ys)
    ((List.mergeSort_perm _ _).trans (h.trans (List.mergeSort_perm _ _).symm))
  exact Std.LawfulEqOrd.eq_of_compare (Std.OrientedCmp.isLE_antisymm hab hba)

end Sorted

namespace OrderedSet
variable {α : Type} [Ord α]

instance [Std.TransOrd α] : Std.TransOrd (OrderedSet α) :=
  inferInstanceAs (Std.TransCmp (compareOn OrderedSet.toList))

instance [Std.LawfulEqOrd α] : Std.LawfulEqOrd (OrderedSet α) where
  compare_self := Std.compare_self (α := List α)
  eq_of_compare h := congrArg OrderedSet.mk (Std.LawfulEqOrd.eq_of_compare (α := List α) h)

theorem mem_insert [Std.LawfulEqOrd α] {s : OrderedSet α} {a b : α} :
    b ∈ (s.insert a).toList ↔ b = a ∨ b ∈ s.toList := mem_insertList

theorem mem_insertMany [Std.LawfulEqOrd α] {s : OrderedSet α} {xs : List α} {a : α} :
    a ∈ (s.insertMany xs).toList ↔ a ∈ xs ∨ a ∈ s.toList := by
  unfold insertMany
  induction xs generalizing s with
  | nil => simp
  | cons x xs ih =>
    rw [List.foldl_cons, ih, mem_insert, List.mem_cons]
    tauto

theorem insertList_grows (a : α) (xs : List α) :
    insertList a xs = xs ∨ (insertList a xs).length = xs.length + 1 := by
  induction xs with
  | nil => exact .inr rfl
  | cons b bs ih =>
    unfold insertList
    split
    · exact .inr rfl
    · exact .inl rfl
    · rcases ih with h | h
      · exact .inl (by rw [h])
      · exact .inr (by rw [List.length_cons, h, List.length_cons])

theorem size_le_insertMany (s : OrderedSet α) (xs : List α) : s.size ≤ (s.insertMany xs).size := by
  unfold insertMany
  induction xs generalizing s with
  | nil => exact Nat.le_refl _
  | cons x xs ih =>
    refine Nat.le_trans ?_ (ih (s.insert x))
    rcases insertList_grows x s.toList with h | h
    · exact Nat.le_of_eq (congrArg List.length h.symm)
    · exact Nat.le_of_lt (Nat.lt_of_lt_of_eq (Nat.lt_succ_self _) h.symm)

/-- What does not grow does not change. -/
theorem insertMany_eq_self {s : OrderedSet α} {xs : List α} (h : (s.insertMany xs).size = s.size) :
    s.insertMany xs = s := by
  induction xs generalizing s with
  | nil => rfl
  | cons x xs ih =>
    rw [insertMany, List.foldl_cons, ← insertMany] at h ⊢
    have hle := size_le_insertMany (s.insert x) xs
    have hsame : s.insert x = s := by
      rcases insertList_grows x s.toList with hx | hx
      · rw [insert, hx]
      · have hgrown : (s.insert x).size = s.size + 1 := hx
        omega
    rw [hsame] at h ⊢
    exact ih h

theorem insertList_perm [Std.LawfulEqOrd α] {a : α} {xs : List α} (h : a ∉ xs) :
    (insertList a xs).Perm (a :: xs) := by
  induction xs with
  | nil => exact .refl _
  | cons b bs ih =>
    rw [List.mem_cons, not_or] at h
    unfold insertList
    split
    · exact .refl _
    · next hc => exact absurd (Std.LawfulEqOrd.eq_of_compare hc) h.1
    · exact ((ih h.2).cons b).trans (.swap a b bs)

theorem insert_nodup [Std.LawfulEqOrd α] {s : OrderedSet α} {a : α} (hs : s.toList.Nodup)
    (ha : a ∉ s.toList) : (s.insert a).toList.Nodup :=
  (insertList_perm ha).nodup_iff.2 (List.nodup_cons.2 ⟨ha, hs⟩)

theorem dropRepeats_pairwise [Std.TransOrd α] [Std.LawfulEqOrd α] {xs : List α}
    (h : xs.Pairwise fun a b => (compare a b).isLE) :
    (dropRepeats xs).Pairwise fun a b => compare a b = .lt := by
  fun_induction dropRepeats xs with
  | case1 a b xs hab ih => exact ih h.of_cons
  | case2 a b xs hab ih =>
    refine List.pairwise_cons.2 ⟨fun c hc => ?_, ih h.of_cons⟩
    rw [mem_dropRepeats] at hc
    have hle : (compare a b).isLE := (List.pairwise_cons.1 h).1 b (by simp)
    have hlt : compare a b = .lt := by
      cases hcmp : compare a b with
      | lt => rfl
      | eq => exact absurd hcmp hab
      | gt =>
        rw [hcmp] at hle
        exact absurd hle (by decide)
    rcases List.mem_cons.1 hc with rfl | hc
    · exact hlt
    · exact Std.TransCmp.lt_of_lt_of_isLE hlt ((List.pairwise_cons.1 h.of_cons).1 c hc)
  | case3 xs h' =>
    rcases xs with _ | ⟨a, _ | ⟨b, rest⟩⟩
    · exact .nil
    · exact List.pairwise_singleton _ a
    · exact absurd rfl (h' a b rest)

theorem ofList_pairwise [Std.TransOrd α] [Std.LawfulEqOrd α] (xs : List α) :
    (ofList xs).toList.Pairwise fun a b => compare a b = .lt :=
  dropRepeats_pairwise (pairwise_mergeSort xs)

theorem ofList_nodup [Std.TransOrd α] [Std.LawfulEqOrd α] (xs : List α) :
    (ofList xs).toList.Nodup :=
  (ofList_pairwise xs).imp fun {a b} h => by
    rintro rfl
    rw [Std.compare_self] at h
    exact Ordering.noConfusion h

theorem insertList_pairwise [Std.TransOrd α] [Std.LawfulEqOrd α] {a : α} {xs : List α}
    (h : xs.Pairwise fun b c => compare b c = .lt) :
    (insertList a xs).Pairwise fun b c => compare b c = .lt := by
  induction xs with
  | nil => exact List.pairwise_singleton _ a
  | cons b bs ih =>
    obtain ⟨hb, hbs⟩ := List.pairwise_cons.1 h
    unfold insertList
    split
    · next hab =>
      refine List.pairwise_cons.2 ⟨fun c hc => ?_, h⟩
      rcases List.mem_cons.1 hc with rfl | hc
      · exact hab
      · exact Std.TransCmp.lt_trans hab (hb c hc)
    · exact h
    · next hab =>
      refine List.pairwise_cons.2 ⟨fun c hc => ?_, ih hbs⟩
      rcases mem_insertList.1 hc with rfl | hc
      · exact Std.OrientedCmp.gt_iff_lt.1 hab
      · exact hb c hc

/-- Sets with the same members are equal. -/
theorem ext_of_pairwise [Std.TransOrd α] [Std.LawfulEqOrd α] {s t : OrderedSet α}
    (hs : s.toList.Pairwise fun a b => compare a b = .lt)
    (ht : t.toList.Pairwise fun a b => compare a b = .lt)
    (h : ∀ a, a ∈ s.toList ↔ a ∈ t.toList) : s = t := by
  have hnodup : ∀ {xs : List α}, (xs.Pairwise fun a b => compare a b = .lt) → xs.Nodup := by
    intro xs hxs
    apply hxs.imp
    rintro a b hab rfl
    rw [Std.compare_self] at hab
    exact Ordering.noConfusion hab
  have hperm := (List.perm_ext_iff_of_nodup (hnodup hs) (hnodup ht)).2 h
  have hlists : s.toList = t.toList := by
    refine hperm.eq_of_pairwise (fun a b _ _ hab hba => ?_) hs ht
    rw [← Std.OrientedCmp.gt_iff_lt, hab] at hba
    exact Ordering.noConfusion hba
  cases s
  cases t
  exact congrArg OrderedSet.mk hlists

theorem ofList_eq [Std.TransOrd α] [Std.LawfulEqOrd α] {xs ys : List α}
    (hys : ys.Pairwise fun a b => compare a b = .lt) (hxy : xs ⊆ ys) (hyx : ys ⊆ xs) :
    ofList xs = ⟨ys⟩ := by
  refine ext_of_pairwise (ofList_pairwise xs) hys fun a => ?_
  rw [mem_ofList]
  exact ⟨fun h => hxy h, fun h => hyx h⟩

end OrderedSet
end Consistency
