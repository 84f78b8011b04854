import Consistency.Term.Order

/-!
# The order of terms is linear

Only a term itself compares equal to it, so that sets of terms have the members
one would expect. Terms that are compared in a row compare as in any linear
order, whatever order they are found in.
-/

set_option autoImplicit false

namespace Consistency

theorem ArithOp.compare_eq_iff (o p : ArithOp) : compare o p = .eq ↔ o = p := by
  cases o <;> cases p <;> decide

theorem CompareOp.compare_eq_iff (o p : CompareOp) : compare o p = .eq ↔ o = p := by
  cases o <;> cases p <;> decide

instance : Std.TransOrd ArithOp where
  eq_swap {o p} := by cases o <;> cases p <;> decide
  isLE_trans {o p q} := by cases o <;> cases p <;> cases q <;> decide

instance : Std.TransOrd CompareOp where
  eq_swap {o p} := by cases o <;> cases p <;> decide
  isLE_trans {o p q} := by cases o <;> cases p <;> cases q <;> decide

/-- How the comparisons of `a` with `b`, `b` with `c` and `a` with `c` depend on each other in a
linear order. -/
def Chained (ab bc ac : Ordering) : Prop :=
  (ab = .eq → ac = bc) ∧ (bc = .eq → ac = ab) ∧ (ab = bc → ac = ab)

/-- What is compared second matters where both first comparisons are equal. -/
theorem Chained.then {x y z x' y' z' : Ordering} (h : Chained x y z)
    (h' : x = .eq → y = .eq → Chained x' y' z') :
    Chained (x.then x') (y.then y') (z.then z') := by
  cases x <;> cases y <;> cases x' <;> cases y' <;> simp_all [Chained, Ordering.then]

theorem Chained.isLE {x y z : Ordering} (h : Chained x y z) (hx : x.isLE = true)
    (hy : y.isLE = true) : z.isLE = true := by
  cases x <;> cases y <;> simp_all [Chained, Ordering.isLE]

theorem chained_compare {α : Type} [Ord α] [Std.TransOrd α] (a b c : α) :
    Chained (compare a b) (compare b c) (compare a c) := by
  refine ⟨Std.TransCmp.congr_left, fun h => (Std.TransCmp.congr_right h).symm, fun h => ?_⟩
  cases hab : compare a b with
  | lt => exact Std.TransCmp.lt_trans hab (h.symm.trans hab)
  | eq => exact Std.TransCmp.eq_trans hab (h.symm.trans hab)
  | gt => exact Std.TransCmp.gt_trans hab (h.symm.trans hab)

theorem swap_compare {α : Type} [Ord α] [Std.OrientedOrd α] (a b : α) :
    (compare a b).swap = compare b a := Std.OrientedOrd.eq_swap.symm

namespace Term

theorem order_eq_rank {a b : Term} (h : a.rank ≠ b.rank) :
    order a b = Ord.compare a.rank b.rank := by
  cases a <;> cases b <;> first | rfl | exact absurd rfl h

theorem order_of_rank_ne {a b : Term} (h : a.rank ≠ b.rank) : order a b = .eq ↔ a = b := by
  have hne : a ≠ b := fun he => h (congrArg rank he)
  rw [order_eq_rank h, Std.LawfulEqOrd.compare_eq_iff_eq]
  simp [h, hne]

mutual
theorem order_eq_iff (a b : Term) : order a b = .eq ↔ a = b := by
  by_cases h : a.rank = b.rank
  · cases a <;> cases b <;> first
      | (simp [rank] at h; done)
      | simp [order, Ordering.then_eq_eq, order_eq_iff, orderList_eq_iff,
          ArithOp.compare_eq_iff, CompareOp.compare_eq_iff]
  · exact order_of_rank_ne h

theorem orderList_eq_iff (as bs : List Term) : orderList as bs = .eq ↔ as = bs := by
  cases as <;> cases bs <;> simp [orderList, Ordering.then_eq_eq, order_eq_iff, orderList_eq_iff]
end

instance : Std.LawfulEqOrd Term where
  compare_self := (order_eq_iff _ _).2 rfl
  eq_of_compare := fun h => (order_eq_iff _ _).1 h

mutual
theorem order_swap (a b : Term) : (order a b).swap = order b a := by
  by_cases h : a.rank = b.rank
  · cases a <;> cases b <;> first
      | (simp [rank] at h; done)
      | simp only [order, Ordering.swap_then, order_swap, orderList_swap, swap_compare]
  · rw [order_eq_rank h, order_eq_rank (Ne.symm h), swap_compare]

theorem orderList_swap (as bs : List Term) : (orderList as bs).swap = orderList bs as := by
  cases as <;> cases bs <;> first
    | rfl
    | simp only [orderList, Ordering.swap_then, order_swap, orderList_swap]
end

theorem order_eq_then (a b : Term) :
    order a b = (Ord.compare a.rank b.rank).then (order a b) := by
  by_cases h : a.rank = b.rank
  · rw [h, Std.compare_self, Ordering.eq_then]
  · rw [order_eq_rank h]
    cases Ord.compare a.rank b.rank <;> rfl

mutual
theorem order_chained (a b c : Term) : Chained (order a b) (order b c) (order a c) := by
  rw [order_eq_then a b, order_eq_then b c, order_eq_then a c]
  refine (chained_compare a.rank b.rank c.rank).then fun hab hbc => ?_
  rw [Std.LawfulEqOrd.compare_eq_iff_eq] at hab hbc
  cases a <;> cases b <;> first
    | (simp [rank] at hab; done)
    | cases c <;> first
      | (simp [rank] at hbc; done)
      | simp only [order]
  case bool.bool.bool | int.int.int | const.const.const => exact chained_compare _ _ _
  case not.not.not | neg.neg.neg => exact order_chained _ _ _
  case and.and.and | or.or.or | distinct.distinct.distinct => exact orderList_chained _ _ _
  case implies.implies.implies | iff.iff.iff | eq.eq.eq =>
    exact (order_chained _ _ _).then fun _ _ => order_chained _ _ _
  case ite.ite.ite =>
    exact (order_chained _ _ _).then fun _ _ =>
      (order_chained _ _ _).then fun _ _ => order_chained _ _ _
  case arith.arith.arith | compare.compare.compare =>
    exact (chained_compare _ _ _).then fun _ _ =>
      (order_chained _ _ _).then fun _ _ => order_chained _ _ _
  case app.app.app => exact (chained_compare _ _ _).then fun _ _ => orderList_chained _ _ _

theorem orderList_chained (as bs cs : List Term) :
    Chained (orderList as bs) (orderList bs cs) (orderList as cs) := by
  cases as <;> cases bs <;> cases cs <;> simp only [orderList]
  case cons.cons.cons => exact (order_chained _ _ _).then fun _ _ => orderList_chained _ _ _
  case cons.cons.nil => exact ⟨fun _ => rfl, fun h => absurd h (by decide), Eq.symm⟩
  all_goals simp [Chained]
end

instance : Std.TransOrd Term where
  eq_swap {a b} := (order_swap b a).symm
  isLE_trans {a b c} := (order_chained a b c).isLE

end Term
end Consistency
