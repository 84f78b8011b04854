import Consistency.Proofs.Term.Simplify

/-!
# Well-formed terms

A term is well formed if its integers are of a given kind and if each operand
of `distinct` has another one to differ from. Substitution and simplification
keep terms well formed as long as arithmetic stays within that kind.
-/

set_option autoImplicit false

namespace Consistency
open Bounded (InRange)

namespace Term

mutual
def WellFormed (q : Int → Prop) : Term → Prop
  | .bool _ | .const _ => True
  | .int n => q n
  | .not a | .neg a => WellFormed q a
  | .and as | .or as | .app _ as => WellFormedAll q as
  | .distinct as => as.length ≠ 1 ∧ WellFormedAll q as
  | .implies a b | .iff a b | .eq a b | .arith _ a b | .compare _ a b =>
    WellFormed q a ∧ WellFormed q b
  | .ite c a b => WellFormed q c ∧ WellFormed q a ∧ WellFormed q b

def WellFormedAll (q : Int → Prop) : List Term → Prop
  | [] => True
  | a :: as => WellFormed q a ∧ WellFormedAll q as
end

variable {q r : Int → Prop} {env : Environment} {c s t : Term} {ts : List Term}

theorem wellFormedAll_iff : WellFormedAll q ts ↔ ∀ t ∈ ts, t.WellFormed q := by
  induction ts with
  | nil => simp [WellFormedAll]
  | cons t ts ih => rw [WellFormedAll, ih, List.forall_mem_cons]

mutual
theorem WellFormed.mono (hqr : ∀ n, q n → r n) (t : Term) (h : t.WellFormed q) :
    t.WellFormed r := by
  cases t with
  | bool _ | const _ => trivial
  | int n => exact hqr n h
  | not s | neg s => exact WellFormed.mono hqr s h
  | and ts | or ts | app _ ts => exact WellFormedAll.mono hqr ts h
  | distinct ts => exact ⟨h.1, WellFormedAll.mono hqr ts h.2⟩
  | implies a b | iff a b | eq a b | arith _ a b | compare _ a b =>
    exact ⟨WellFormed.mono hqr a h.1, WellFormed.mono hqr b h.2⟩
  | ite c a b =>
    exact ⟨WellFormed.mono hqr c h.1, WellFormed.mono hqr a h.2.1, WellFormed.mono hqr b h.2.2⟩

theorem WellFormedAll.mono (hqr : ∀ n, q n → r n) (ts : List Term) (h : WellFormedAll q ts) :
    WellFormedAll r ts := by
  cases ts with
  | nil => trivial
  | cons t ts => exact ⟨WellFormed.mono hqr t h.1, WellFormedAll.mono hqr ts h.2⟩
end

theorem length_substituteAll (f : String → Option Term) (ts : List Term) :
    (substituteAll f ts).length = ts.length := by
  induction ts with
  | nil => rfl
  | cons t ts ih => rw [substituteAll, List.length_cons, List.length_cons, ih]

mutual
theorem WellFormed.substitute {f : String → Option Term}
    (hf : ∀ x u, f x = some u → u.WellFormed q) (t : Term) (h : t.WellFormed q) :
    (t.substitute f).WellFormed q := by
  cases t with
  | bool _ | int _ => exact h
  | const x =>
    rw [Term.substitute]
    cases hx : f x with
    | none => trivial
    | some u => exact hf x u hx
  | not s | neg s => exact WellFormed.substitute hf s h
  | and ts | or ts | app _ ts => exact WellFormedAll.substitute hf ts h
  | distinct ts =>
    exact ⟨(length_substituteAll f ts).symm ▸ h.1, WellFormedAll.substitute hf ts h.2⟩
  | implies a b | iff a b | eq a b | arith _ a b | compare _ a b =>
    exact ⟨WellFormed.substitute hf a h.1, WellFormed.substitute hf b h.2⟩
  | ite c a b =>
    exact ⟨WellFormed.substitute hf c h.1, WellFormed.substitute hf a h.2.1,
      WellFormed.substitute hf b h.2.2⟩

theorem WellFormedAll.substitute {f : String → Option Term}
    (hf : ∀ x u, f x = some u → u.WellFormed q) (ts : List Term) (h : WellFormedAll q ts) :
    WellFormedAll q (substituteAll f ts) := by
  cases ts with
  | nil => trivial
  | cons t ts => exact ⟨WellFormed.substitute hf t h.1, WellFormedAll.substitute hf ts h.2⟩
end

structure Closed (q : Int → Prop) : Prop where
  zero : q 0
  arith : ∀ (o : ArithOp) (m n k : Int), q m → q n → o.eval m n = some k → q k
  neg : ∀ m k : Int, q m → Bounded.neg m = some k → q k

theorem inRange_mod {m n k : Int} (hn : InRange n) (h : Bounded.mod m n = some k) : InRange k := by
  obtain ⟨d, hd, rfl⟩ := Option.map_eq_some_iff.1 h
  have hne : n ≠ 0 := by
    rintro rfl
    exact absurd hd (by simp [Bounded.div])
  have hlow := Int.emod_nonneg m hne
  have hhigh := Int.emod_lt m hne
  have hle : Bounded.least ≤ 0 := by decide
  have hflip : -Bounded.least = Bounded.greatest + 1 := by decide
  obtain ⟨hl, hg⟩ := hn
  exact ⟨by omega, by omega⟩

theorem closed_inRange : Closed InRange where
  zero := by decide
  arith := by
    intro o m n k _ hn h
    cases o with
    | add | sub | mul => exact Bounded.inRange_of_bound h
    | div =>
      simp only [ArithOp.eval, Bounded.div] at h
      split at h
      · exact absurd h (by simp)
      · exact Bounded.inRange_of_bound h
    | mod => exact inRange_mod hn h
  neg := fun _ _ _ h => Bounded.inRange_of_bound h

/-- By recursion through conditionals: an integer value is an integer of the term or of the
environment, or made by arithmetic. -/
theorem WellFormed.eval (hq : Closed q) (henv : ∀ x n, env x = some (.int n) → q n) (t : Term)
    {n : Int} (h : t.WellFormed q) (hn : t.Computes env n) : q n := by
  cases t with
  | bool b => exact absurd hn (by simp [Computes, Term.eval])
  | int k =>
    obtain rfl := computes_lit hn
    exact h
  | const x => exact henv x n hn
  | not s =>
    obtain ⟨b, -, he⟩ := eval_not.1 hn
    exact absurd he (by simp)
  | and ts =>
    obtain ⟨bs, -, he⟩ := eval_and.1 hn
    exact absurd he (by simp)
  | or ts =>
    obtain ⟨bs, -, he⟩ := eval_or.1 hn
    exact absurd he (by simp)
  | implies a b =>
    rcases eval_implies.1 hn with ⟨-, he⟩ | ⟨-, b, -, he⟩
    · exact absurd he (by simp)
    · exact absurd he (by simp)
  | iff a b =>
    obtain ⟨p, r, -, -, he⟩ := eval_iff.1 hn
    exact absurd he (by simp)
  | eq a b =>
    obtain ⟨u, w, p, -, -, -, he⟩ := eval_eq.1 hn
    exact absurd he (by simp)
  | distinct ts =>
    obtain ⟨vs, -, he⟩ := eval_distinct.1 hn
    exact absurd he (by simp)
  | compare o a b =>
    obtain ⟨m, k, -, -, he⟩ := eval_compare.1 hn
    exact absurd he (by simp)
  | app f ts => exact absurd hn (by simp [Computes, Term.eval])
  | ite c a b =>
    rcases eval_ite.1 hn with ⟨-, ha⟩ | ⟨-, hb⟩
    · exact WellFormed.eval hq henv a h.2.1 ha
    · exact WellFormed.eval hq henv b h.2.2 hb
  | arith o a b =>
    obtain ⟨m, k, l, hm, hk, hl, he⟩ := eval_arith.1 hn
    obtain rfl := Value.int.inj he
    exact hq.arith o m k n (WellFormed.eval hq henv a h.1 hm) (WellFormed.eval hq henv b h.2 hk) hl
  | neg a =>
    obtain ⟨m, k, hm, hk, he⟩ := eval_neg.1 hn
    obtain rfl := Value.int.inj he
    exact hq.neg m n (WellFormed.eval hq henv a h hm) hk

theorem WellFormed.settle (hq : Closed q) (h : t.WellFormed q) : (settle t).WellFormed q := by
  unfold Term.settle
  split
  · cases hv : t.evalGround with
    | none => exact h
    | some v =>
      cases v with
      | bool b => trivial
      | int n => exact h.eval hq (fun x n hx => absurd hx (by simp [noBindings])) t hv
  · exact h

theorem WellFormed.mkNot (h : t.WellFormed q) : (mkNot t).WellFormed q := by
  unfold Term.mkNot
  split
  · trivial
  · exact h
  · exact h

theorem WellFormedAll.conjuncts (h : WellFormedAll q ts) :
    WellFormedAll q (ts.flatMap conjuncts) := by
  rw [wellFormedAll_iff] at h ⊢
  intro u hu
  obtain ⟨t, ht, hut⟩ := List.mem_flatMap.1 hu
  unfold Term.conjuncts at hut
  split at hut
  · exact absurd hut (by simp)
  · exact wellFormedAll_iff.1 (h _ ht) u hut
  · rw [List.mem_singleton.1 hut]
    exact h t ht

theorem WellFormedAll.disjuncts (h : WellFormedAll q ts) :
    WellFormedAll q (ts.flatMap disjuncts) := by
  rw [wellFormedAll_iff] at h ⊢
  intro u hu
  obtain ⟨t, ht, hut⟩ := List.mem_flatMap.1 hu
  unfold Term.disjuncts at hut
  split at hut
  · exact absurd hut (by simp)
  · exact wellFormedAll_iff.1 (h _ ht) u hut
  · rw [List.mem_singleton.1 hut]
    exact h t ht

theorem WellFormedAll.mkAnd (h : WellFormedAll q ts) : (mkAnd ts).WellFormed q := by
  have hks := h.conjuncts
  unfold Term.mkAnd
  split
  · trivial
  · split
    · trivial
    · next hone =>
      rw [hone] at hks
      exact hks.1
    · exact hks

theorem WellFormedAll.mkOr (h : WellFormedAll q ts) : (mkOr ts).WellFormed q := by
  have hks := h.disjuncts
  unfold Term.mkOr
  split
  · trivial
  · split
    · trivial
    · next hone =>
      rw [hone] at hks
      exact hks.1
    · exact hks

theorem WellFormed.mkImplies (hs : s.WellFormed q) (ht : t.WellFormed q) :
    (mkImplies s t).WellFormed q := by
  unfold Term.mkImplies
  split
  · trivial
  · trivial
  · exact ht
  · exact hs.mkNot
  · exact ⟨hs, ht⟩

theorem WellFormed.foldIff (hs : s.WellFormed q) (ht : t.WellFormed q) :
    (foldIff s t).WellFormed q := by
  unfold Term.foldIff
  split
  · exact ht
  · exact hs
  · exact ht.mkNot
  · exact hs.mkNot
  · split
    · trivial
    · exact ⟨hs, ht⟩

theorem WellFormed.foldEq (hs : s.WellFormed q) (ht : t.WellFormed q) :
    (foldEq s t).WellFormed q := by
  unfold Term.foldEq
  split
  · trivial
  · exact ⟨hs, ht⟩

theorem WellFormed.foldIte (hc : c.WellFormed q) (hs : s.WellFormed q) (ht : t.WellFormed q) :
    (foldIte c s t).WellFormed q := by
  unfold Term.foldIte
  split
  · exact hs
  · exact ht
  · split
    · exact hs
    · exact ⟨hc, hs, ht⟩

theorem WellFormed.foldArith (hq : Closed q) {o : ArithOp} (hs : s.WellFormed q)
    (ht : t.WellFormed q) : (foldArith o s t).WellFormed q := by
  cases o with
  | add =>
    simp only [Term.foldArith]
    split
    · exact ht
    · split
      · exact hs
      · exact ⟨hs, ht⟩
  | sub =>
    simp only [Term.foldArith]
    split
    · exact hs
    · exact ⟨hs, ht⟩
  | mul =>
    simp only [Term.foldArith]
    split
    · exact hq.zero
    · split
      · exact ht
      · split
        · exact hs
        · exact ⟨hs, ht⟩
  | div => exact ⟨hs, ht⟩
  | mod => exact ⟨hs, ht⟩

theorem WellFormed.foldNeg (h : t.WellFormed q) : (foldNeg t).WellFormed q := by
  unfold Term.foldNeg
  split
  · exact h
  · exact h

theorem length_simplifyAll (ts : List Term) : (simplifyAll ts).length = ts.length := by
  induction ts with
  | nil => rfl
  | cons t ts ih => rw [simplifyAll, List.length_cons, List.length_cons, ih]

mutual
theorem WellFormed.simplify (hq : Closed q) (t : Term) (h : t.WellFormed q) :
    (simplify t).WellFormed q := by
  cases t with
  | bool _ | int _ | const _ => exact h
  | not s => exact (WellFormed.simplify hq s h).mkNot.settle hq
  | neg s => exact (WellFormed.simplify hq s h).foldNeg.settle hq
  | and ts => exact (WellFormedAll.simplifyAll hq ts h).mkAnd.settle hq
  | or ts => exact (WellFormedAll.simplifyAll hq ts h).mkOr.settle hq
  | app f ts => exact WellFormed.settle hq (t := .app f _) (WellFormedAll.simplifyAll hq ts h)
  | distinct ts =>
    refine WellFormed.settle hq (t := .distinct _) ⟨?_, WellFormedAll.simplifyAll hq ts h.2⟩
    rw [length_simplifyAll]
    exact h.1
  | implies a b =>
    exact ((WellFormed.simplify hq a h.1).mkImplies (WellFormed.simplify hq b h.2)).settle hq
  | iff a b =>
    exact ((WellFormed.simplify hq a h.1).foldIff (WellFormed.simplify hq b h.2)).settle hq
  | eq a b =>
    exact ((WellFormed.simplify hq a h.1).foldEq (WellFormed.simplify hq b h.2)).settle hq
  | arith o a b =>
    exact ((WellFormed.simplify hq a h.1).foldArith hq (WellFormed.simplify hq b h.2)).settle hq
  | compare o a b =>
    exact WellFormed.settle hq (t := .compare o _ _)
      ⟨WellFormed.simplify hq a h.1, WellFormed.simplify hq b h.2⟩
  | ite c a b =>
    exact ((WellFormed.simplify hq c h.1).foldIte (WellFormed.simplify hq a h.2.1)
      (WellFormed.simplify hq b h.2.2)).settle hq

theorem WellFormedAll.simplifyAll (hq : Closed q) (ts : List Term) (h : WellFormedAll q ts) :
    WellFormedAll q (simplifyAll ts) := by
  cases ts with
  | nil => trivial
  | cons t ts => exact ⟨WellFormed.simplify hq t h.1, WellFormedAll.simplifyAll hq ts h.2⟩
end

end Term
end Consistency
