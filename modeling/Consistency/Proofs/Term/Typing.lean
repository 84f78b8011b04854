import Consistency.Proofs.Term.Domain
import Consistency.Proofs.Term.Sort

/-!
# Typing of terms

A typed term uses every constant with a sort it is declared with and applies no
function. Substitution and simplification keep the sort of a typed term.
-/

set_option autoImplicit false

namespace Consistency.Term

mutual
def HasSort (D : String → ValueSort → Prop) (k : ValueSort) : Term → Prop
  | .bool _ => k = .bool
  | .int _ => k = .int
  | .const x => D x k
  | .not a => k = .bool ∧ HasSort D .bool a
  | .and as | .or as => k = .bool ∧ AllHaveSort D .bool as
  | .implies a b | .iff a b => k = .bool ∧ HasSort D .bool a ∧ HasSort D .bool b
  | .eq a b => k = .bool ∧
      ((HasSort D .bool a ∧ HasSort D .bool b) ∨ (HasSort D .int a ∧ HasSort D .int b))
  | .distinct as => k = .bool ∧ (AllHaveSort D .bool as ∨ AllHaveSort D .int as)
  | .ite c a b => HasSort D .bool c ∧ HasSort D k a ∧ HasSort D k b
  | .compare _ a b => k = .bool ∧ HasSort D .int a ∧ HasSort D .int b
  | .arith _ a b => k = .int ∧ HasSort D .int a ∧ HasSort D .int b
  | .neg a => k = .int ∧ HasSort D .int a
  | .app _ _ => False

def AllHaveSort (D : String → ValueSort → Prop) (k : ValueSort) : List Term → Prop
  | [] => True
  | a :: as => HasSort D k a ∧ AllHaveSort D k as
end

variable {D E : String → ValueSort → Prop} {k : ValueSort} {c s t : Term} {ts : List Term}

theorem allHaveSort_iff : AllHaveSort D k ts ↔ ∀ t ∈ ts, t.HasSort D k := by
  induction ts with
  | nil => simp [AllHaveSort]
  | cons t ts ih => rw [AllHaveSort, ih, List.forall_mem_cons]

mutual
/-- Only the constants that occur have to be declared. -/
theorem HasSort.mono (t : Term) {k : ValueSort} (hDE : ∀ x ∈ t.consts, ∀ l, D x l → E x l)
    (h : t.HasSort D k) : t.HasSort E k := by
  cases t with
  | bool _ | int _ => exact h
  | const x => exact hDE x (List.mem_singleton_self x) k h
  | app _ _ => exact h.elim
  | not a | neg a => exact ⟨h.1, HasSort.mono a hDE h.2⟩
  | and as | or as => exact ⟨h.1, AllHaveSort.mono as hDE h.2⟩
  | distinct as => exact ⟨h.1, h.2.imp (AllHaveSort.mono as hDE) (AllHaveSort.mono as hDE)⟩
  | implies a b | iff a b | compare _ a b | arith _ a b =>
    rw [consts, List.forall_mem_append] at hDE
    exact ⟨h.1, HasSort.mono a hDE.1 h.2.1, HasSort.mono b hDE.2 h.2.2⟩
  | eq a b =>
    rw [consts, List.forall_mem_append] at hDE
    exact ⟨h.1, h.2.imp (fun h => ⟨HasSort.mono a hDE.1 h.1, HasSort.mono b hDE.2 h.2⟩)
      fun h => ⟨HasSort.mono a hDE.1 h.1, HasSort.mono b hDE.2 h.2⟩⟩
  | ite c a b =>
    rw [consts, List.forall_mem_append, List.forall_mem_append] at hDE
    exact ⟨HasSort.mono c hDE.1 h.1, HasSort.mono a hDE.2.1 h.2.1, HasSort.mono b hDE.2.2 h.2.2⟩

theorem AllHaveSort.mono (ts : List Term) {k : ValueSort}
    (hDE : ∀ x ∈ constsOf ts, ∀ l, D x l → E x l) (h : AllHaveSort D k ts) :
    AllHaveSort E k ts := by
  cases ts with
  | nil => trivial
  | cons t ts =>
    rw [constsOf, List.forall_mem_append] at hDE
    exact ⟨HasSort.mono t hDE.1 h.1, AllHaveSort.mono ts hDE.2 h.2⟩
end

mutual
theorem HasSort.declared (t : Term) {k : ValueSort} (h : t.HasSort D k) :
    ∀ x ∈ t.consts, ∃ l, D x l := by
  cases t with
  | bool _ | int _ => simp [consts]
  | const x =>
    intro y hy
    rw [List.mem_singleton.1 hy]
    exact ⟨k, h⟩
  | app _ _ => exact h.elim
  | not a | neg a => exact HasSort.declared a h.2
  | and as | or as => exact AllHaveSort.declared as h.2
  | distinct as => exact h.2.elim (AllHaveSort.declared as) (AllHaveSort.declared as)
  | implies a b | iff a b | compare _ a b | arith _ a b =>
    exact List.forall_mem_append.2 ⟨HasSort.declared a h.2.1, HasSort.declared b h.2.2⟩
  | eq a b =>
    rcases h.2 with ⟨ha, hb⟩ | ⟨ha, hb⟩
    · exact List.forall_mem_append.2 ⟨HasSort.declared a ha, HasSort.declared b hb⟩
    · exact List.forall_mem_append.2 ⟨HasSort.declared a ha, HasSort.declared b hb⟩
  | ite c a b =>
    exact List.forall_mem_append.2 ⟨HasSort.declared c h.1,
      List.forall_mem_append.2 ⟨HasSort.declared a h.2.1, HasSort.declared b h.2.2⟩⟩

theorem AllHaveSort.declared (ts : List Term) {k : ValueSort} (h : AllHaveSort D k ts) :
    ∀ x ∈ constsOf ts, ∃ l, D x l := by
  cases ts with
  | nil => simp [constsOf]
  | cons t ts =>
    exact List.forall_mem_append.2 ⟨HasSort.declared t h.1, AllHaveSort.declared ts h.2⟩
end

mutual
/-- A typed term is of its sort, with arithmetic allowed. -/
theorem HasSort.ofSort {Γ : String → Option ValueSort} (hD : ∀ x l, D x l → Γ x = some l)
    (t : Term) {k : ValueSort} (h : t.HasSort D k) : t.OfSort Γ True k := by
  cases t with
  | bool _ | int _ => exact h
  | const x => exact hD x k h
  | app _ _ => exact h.elim
  | not a => exact ⟨h.1, HasSort.ofSort hD a h.2⟩
  | neg a => exact ⟨h.1, trivial, HasSort.ofSort hD a h.2⟩
  | and as | or as => exact ⟨h.1, AllHaveSort.ofSort hD as h.2⟩
  | distinct as =>
    exact ⟨h.1, .inr (h.2.imp (AllHaveSort.ofSort hD as) (AllHaveSort.ofSort hD as))⟩
  | implies a b | iff a b | compare _ a b =>
    exact ⟨h.1, HasSort.ofSort hD a h.2.1, HasSort.ofSort hD b h.2.2⟩
  | arith _ a b => exact ⟨h.1, trivial, HasSort.ofSort hD a h.2.1, HasSort.ofSort hD b h.2.2⟩
  | eq a b =>
    exact ⟨h.1, h.2.imp (fun h => ⟨HasSort.ofSort hD a h.1, HasSort.ofSort hD b h.2⟩)
      fun h => ⟨HasSort.ofSort hD a h.1, HasSort.ofSort hD b h.2⟩⟩
  | ite c a b =>
    exact ⟨HasSort.ofSort hD c h.1, HasSort.ofSort hD a h.2.1, HasSort.ofSort hD b h.2.2⟩

theorem AllHaveSort.ofSort {Γ : String → Option ValueSort} (hD : ∀ x l, D x l → Γ x = some l)
    (ts : List Term) {k : ValueSort} (h : AllHaveSort D k ts) : AllOfSort Γ True k ts := by
  cases ts with
  | nil => trivial
  | cons t ts => exact ⟨HasSort.ofSort hD t h.1, AllHaveSort.ofSort hD ts h.2⟩
end

mutual
theorem HasSort.substitute {f : String → Option Term}
    (hf : ∀ x l, D x l → ((f x).getD (.const x)).HasSort E l) (t : Term) {k : ValueSort}
    (h : t.HasSort D k) : (t.substitute f).HasSort E k := by
  cases t with
  | bool _ | int _ => exact h
  | const x => exact hf x k h
  | app _ _ => exact h.elim
  | not a | neg a => exact ⟨h.1, HasSort.substitute hf a h.2⟩
  | and as | or as => exact ⟨h.1, AllHaveSort.substitute hf as h.2⟩
  | distinct as =>
    exact ⟨h.1, h.2.imp (AllHaveSort.substitute hf as) (AllHaveSort.substitute hf as)⟩
  | implies a b | iff a b | compare _ a b | arith _ a b =>
    exact ⟨h.1, HasSort.substitute hf a h.2.1, HasSort.substitute hf b h.2.2⟩
  | eq a b =>
    exact ⟨h.1, h.2.imp (fun h => ⟨HasSort.substitute hf a h.1, HasSort.substitute hf b h.2⟩)
      fun h => ⟨HasSort.substitute hf a h.1, HasSort.substitute hf b h.2⟩⟩
  | ite c a b =>
    exact ⟨HasSort.substitute hf c h.1, HasSort.substitute hf a h.2.1,
      HasSort.substitute hf b h.2.2⟩

theorem AllHaveSort.substitute {f : String → Option Term}
    (hf : ∀ x l, D x l → ((f x).getD (.const x)).HasSort E l) (ts : List Term) {k : ValueSort}
    (h : AllHaveSort D k ts) : AllHaveSort E k (substituteAll f ts) := by
  cases ts with
  | nil => trivial
  | cons t ts => exact ⟨HasSort.substitute hf t h.1, AllHaveSort.substitute hf ts h.2⟩
end

theorem HasSort.toTerm {v : Value} (h : v.sort = k) : v.toTerm.HasSort D k := by
  cases v with
  | bool _ => exact h.symm
  | int _ => exact h.symm

/-- By recursion through conditionals: a value is of the sort of its term. -/
theorem HasSort.eval {env : Environment} (henv : ∀ x v, env x = some v → ∀ l, D x l → v.sort = l)
    (t : Term) {v : Value} (h : t.HasSort D k) (hv : t.eval env = some v) : v.sort = k := by
  cases t with
  | bool b =>
    obtain rfl := Option.some.inj hv
    exact h.symm
  | int n =>
    obtain rfl := Option.some.inj hv
    exact h.symm
  | const x => exact henv x v hv k h
  | not a =>
    obtain ⟨b, -, rfl⟩ := eval_not.1 hv
    exact h.1.symm
  | and as =>
    obtain ⟨bs, -, rfl⟩ := eval_and.1 hv
    exact h.1.symm
  | or as =>
    obtain ⟨bs, -, rfl⟩ := eval_or.1 hv
    exact h.1.symm
  | implies a b =>
    rcases eval_implies.1 hv with ⟨-, rfl⟩ | ⟨-, b, -, rfl⟩
    · exact h.1.symm
    · exact h.1.symm
  | iff a b =>
    obtain ⟨p, q, -, -, rfl⟩ := eval_iff.1 hv
    exact h.1.symm
  | eq a b =>
    obtain ⟨u, w, p, -, -, -, rfl⟩ := eval_eq.1 hv
    exact h.1.symm
  | distinct as =>
    obtain ⟨vs, -, rfl⟩ := eval_distinct.1 hv
    exact h.1.symm
  | compare o a b =>
    obtain ⟨m, n, -, -, rfl⟩ := eval_compare.1 hv
    exact h.1.symm
  | arith o a b =>
    obtain ⟨m, n, l, -, -, -, rfl⟩ := eval_arith.1 hv
    exact h.1.symm
  | neg a =>
    obtain ⟨m, l, -, -, rfl⟩ := eval_neg.1 hv
    exact h.1.symm
  | app f as => exact h.elim
  | ite c a b =>
    rcases eval_ite.1 hv with ⟨-, ha⟩ | ⟨-, hb⟩
    · exact HasSort.eval henv a h.2.1 ha
    · exact HasSort.eval henv b h.2.2 hb

theorem HasSort.settle (h : t.HasSort D k) : (settle t).HasSort D k := by
  unfold Term.settle
  split
  · cases hv : t.evalGround with
    | none => exact h
    | some v =>
      refine HasSort.toTerm (h.eval (fun x v hx => ?_) t hv)
      exact absurd hx (by simp [noBindings])
  · exact h

theorem HasSort.mkNot (h : t.HasSort D .bool) : (mkNot t).HasSort D .bool := by
  unfold Term.mkNot
  split
  · rfl
  · exact h.2
  · exact ⟨rfl, h⟩

theorem AllHaveSort.conjuncts (h : AllHaveSort D .bool ts) :
    AllHaveSort D .bool (ts.flatMap conjuncts) := by
  rw [allHaveSort_iff] at h ⊢
  intro u hu
  obtain ⟨t, ht, hut⟩ := List.mem_flatMap.1 hu
  unfold Term.conjuncts at hut
  split at hut
  · exact absurd hut (by simp)
  · exact allHaveSort_iff.1 (h _ ht).2 u hut
  · rw [List.mem_singleton.1 hut]
    exact h t ht

theorem AllHaveSort.disjuncts (h : AllHaveSort D .bool ts) :
    AllHaveSort D .bool (ts.flatMap disjuncts) := by
  rw [allHaveSort_iff] at h ⊢
  intro u hu
  obtain ⟨t, ht, hut⟩ := List.mem_flatMap.1 hu
  unfold Term.disjuncts at hut
  split at hut
  · exact absurd hut (by simp)
  · exact allHaveSort_iff.1 (h _ ht).2 u hut
  · rw [List.mem_singleton.1 hut]
    exact h t ht

theorem AllHaveSort.mkAnd (h : AllHaveSort D .bool ts) : (mkAnd ts).HasSort D .bool := by
  have hks := h.conjuncts
  unfold Term.mkAnd
  split
  · rfl
  · split
    · rfl
    · next hone =>
      rw [hone] at hks
      exact hks.1
    · exact ⟨rfl, hks⟩

theorem AllHaveSort.mkOr (h : AllHaveSort D .bool ts) : (mkOr ts).HasSort D .bool := by
  have hks := h.disjuncts
  unfold Term.mkOr
  split
  · rfl
  · split
    · rfl
    · next hone =>
      rw [hone] at hks
      exact hks.1
    · exact ⟨rfl, hks⟩

theorem hasSort_mkAnd (h : ∀ t ∈ ts, t.HasSort D .bool) : (mkAnd ts).HasSort D .bool :=
  AllHaveSort.mkAnd (allHaveSort_iff.2 h)

theorem hasSort_mkOr (h : ∀ t ∈ ts, t.HasSort D .bool) : (mkOr ts).HasSort D .bool :=
  AllHaveSort.mkOr (allHaveSort_iff.2 h)

theorem HasSort.mkImplies (hs : s.HasSort D .bool) (ht : t.HasSort D .bool) :
    (mkImplies s t).HasSort D .bool := by
  unfold Term.mkImplies
  split
  · rfl
  · rfl
  · exact ht
  · exact hs.mkNot
  · exact ⟨rfl, hs, ht⟩

theorem HasSort.foldIff (hs : s.HasSort D .bool) (ht : t.HasSort D .bool) :
    (foldIff s t).HasSort D .bool := by
  unfold Term.foldIff
  split
  · exact ht
  · exact hs
  · exact ht.mkNot
  · exact hs.mkNot
  · split
    · rfl
    · exact ⟨rfl, hs, ht⟩

theorem HasSort.foldEq (h : (Term.eq s t).HasSort D .bool) : (foldEq s t).HasSort D .bool := by
  unfold Term.foldEq
  split
  · rfl
  · exact h

theorem HasSort.foldIte (hc : c.HasSort D .bool) (hs : s.HasSort D k) (ht : t.HasSort D k) :
    (foldIte c s t).HasSort D k := by
  unfold Term.foldIte
  split
  · exact hs
  · exact ht
  · split
    · exact hs
    · exact ⟨hc, hs, ht⟩

theorem HasSort.foldArith {o : ArithOp} (hs : s.HasSort D .int) (ht : t.HasSort D .int) :
    (foldArith o s t).HasSort D .int := by
  cases o with
  | add =>
    simp only [Term.foldArith]
    split
    · exact ht
    · split
      · exact hs
      · exact ⟨rfl, hs, ht⟩
  | sub =>
    simp only [Term.foldArith]
    split
    · exact hs
    · exact ⟨rfl, hs, ht⟩
  | mul =>
    simp only [Term.foldArith]
    split
    · rfl
    · split
      · exact ht
      · split
        · exact hs
        · exact ⟨rfl, hs, ht⟩
  | div => exact ⟨rfl, hs, ht⟩
  | mod => exact ⟨rfl, hs, ht⟩

theorem HasSort.foldNeg (h : t.HasSort D .int) : (foldNeg t).HasSort D .int := by
  unfold Term.foldNeg
  split
  · exact h.2
  · exact ⟨rfl, h⟩

mutual
theorem HasSort.simplify (t : Term) {k : ValueSort} (h : t.HasSort D k) :
    (simplify t).HasSort D k := by
  cases t with
  | bool _ | int _ | const _ => exact h
  | app _ _ => exact h.elim
  | not s =>
    obtain ⟨rfl, h⟩ := h
    exact (HasSort.simplify s h).mkNot.settle
  | neg s =>
    obtain ⟨rfl, h⟩ := h
    exact (HasSort.simplify s h).foldNeg.settle
  | and ts =>
    obtain ⟨rfl, h⟩ := h
    exact (AllHaveSort.simplifyAll ts h).mkAnd.settle
  | or ts =>
    obtain ⟨rfl, h⟩ := h
    exact (AllHaveSort.simplifyAll ts h).mkOr.settle
  | distinct ts =>
    exact HasSort.settle (t := .distinct _)
      ⟨h.1, h.2.imp (AllHaveSort.simplifyAll ts) (AllHaveSort.simplifyAll ts)⟩
  | implies a b =>
    obtain ⟨rfl, ha, hb⟩ := h
    exact ((HasSort.simplify a ha).mkImplies (HasSort.simplify b hb)).settle
  | iff a b =>
    obtain ⟨rfl, ha, hb⟩ := h
    exact ((HasSort.simplify a ha).foldIff (HasSort.simplify b hb)).settle
  | eq a b =>
    obtain ⟨rfl, h⟩ := h
    refine HasSort.settle (HasSort.foldEq ⟨rfl, ?_⟩)
    exact h.imp (fun h => ⟨HasSort.simplify a h.1, HasSort.simplify b h.2⟩)
      fun h => ⟨HasSort.simplify a h.1, HasSort.simplify b h.2⟩
  | arith o a b =>
    obtain ⟨rfl, ha, hb⟩ := h
    exact ((HasSort.simplify a ha).foldArith (HasSort.simplify b hb)).settle
  | compare o a b =>
    exact HasSort.settle (t := .compare o _ _)
      ⟨h.1, HasSort.simplify a h.2.1, HasSort.simplify b h.2.2⟩
  | ite c a b =>
    exact ((HasSort.simplify c h.1).foldIte (HasSort.simplify a h.2.1)
      (HasSort.simplify b h.2.2)).settle

theorem AllHaveSort.simplifyAll (ts : List Term) {k : ValueSort} (h : AllHaveSort D k ts) :
    AllHaveSort D k (simplifyAll ts) := by
  cases ts with
  | nil => trivial
  | cons t ts => exact ⟨HasSort.simplify t h.1, AllHaveSort.simplifyAll ts h.2⟩
end

theorem hasSort_oneOf {x : String} (h : D x .int) (values : List Int) :
    (oneOf x values).HasSort D .bool := by
  refine hasSort_mkOr fun t ht => ?_
  obtain ⟨n, -, rfl⟩ := List.mem_map.1 ht
  exact ⟨rfl, .inr ⟨h, rfl⟩⟩

end Consistency.Term
