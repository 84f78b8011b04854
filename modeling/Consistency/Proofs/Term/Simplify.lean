import Consistency.Proofs.Term.Connectives
import Consistency.Term.Simplify

/-!
# Simplification keeps values

A term that has a value still has it once it is simplified, though simplifying
may give a value to a term that had none. No constant comes in.
-/

set_option autoImplicit false

namespace Consistency.Term
variable {env : Environment} {s t c : Term} {ts : List Term} {v : Value} {x : String}

theorem eval_toTerm (env : Environment) (v : Value) : v.toTerm.eval env = some v := by
  cases v <;> rfl

theorem eval_settle (h : t.eval env = some v) : (settle t).eval env = some v := by
  unfold settle
  split
  · next hg =>
    have hground : t.evalGround = some v := by
      rw [← h, evalGround]
      refine eval_congr t fun x hx => ?_
      rw [isGround, List.isEmpty_iff] at hg
      exact absurd hx (by simp [hg])
    rw [hground, Option.map_some, Option.getD_some]
    exact eval_toTerm env v
  · exact h

theorem eval_foldIff (h : (Term.iff s t).eval env = some v) : (foldIff s t).eval env = some v := by
  obtain ⟨p, q, hp, hq, rfl⟩ := eval_iff.1 h
  unfold foldIff
  split
  · obtain rfl := decides_bool.1 hp
    simpa [Decides] using hq
  · obtain rfl := decides_bool.1 hq
    simpa [Decides] using hp
  · obtain rfl := decides_bool.1 hp
    simpa using eval_mkNot (eval_not.2 ⟨q, hq, rfl⟩)
  · obtain rfl := decides_bool.1 hq
    simpa using eval_mkNot (eval_not.2 ⟨p, hp, rfl⟩)
  · split
    · next he =>
      subst he
      obtain rfl := Value.bool.inj (Option.some.inj (hp.symm.trans hq))
      simp [eval]
    · exact h

theorem eval_foldEq (h : (Term.eq s t).eval env = some v) : (foldEq s t).eval env = some v := by
  unfold foldEq
  split
  · next he =>
    subst he
    obtain ⟨u, w, b, hu, hw, heq, rfl⟩ := eval_eq.1 h
    obtain rfl := Option.some.inj (hu.symm.trans hw)
    obtain rfl : b = true := by simpa using Value.eq_of_equal heq
    rfl
  · exact h

theorem eval_foldIte (h : (Term.ite c s t).eval env = some v) :
    (foldIte c s t).eval env = some v := by
  unfold foldIte
  split
  · rcases eval_ite.1 h with ⟨-, hs⟩ | ⟨hc, -⟩
    · exact hs
    · exact absurd (decides_bool.1 hc) (by decide)
  · rcases eval_ite.1 h with ⟨hc, -⟩ | ⟨-, ht⟩
    · exact absurd (decides_bool.1 hc) (by decide)
    · exact ht
  · split
    · next he =>
      subst he
      rcases eval_ite.1 h with ⟨-, hs⟩ | ⟨-, hs⟩
      · exact hs
      · exact hs
    · exact h

theorem computes_lit {m n : Int} (h : (Term.int m).Computes env n) : n = m :=
  (Value.int.inj (Option.some.inj h)).symm

theorem eval_foldArith {op : ArithOp} (h : (Term.arith op s t).eval env = some v) :
    (foldArith op s t).eval env = some v := by
  obtain ⟨m, n, k, hm, hn, hk, rfl⟩ := eval_arith.1 h
  cases op with
  | add =>
    obtain ⟨-, rfl⟩ := Bounded.bound_eq_some.1 hk
    simp only [foldArith]
    split
    · next he =>
      obtain rfl := computes_lit (he ▸ hm)
      simpa [Computes] using hn
    · split
      · next he =>
        obtain rfl := computes_lit (he ▸ hn)
        simpa [Computes] using hm
      · exact h
  | sub =>
    obtain ⟨-, rfl⟩ := Bounded.bound_eq_some.1 hk
    simp only [foldArith]
    split
    · next he =>
      obtain rfl := computes_lit (he ▸ hn)
      simpa [Computes] using hm
    · exact h
  | mul =>
    obtain ⟨-, rfl⟩ := Bounded.bound_eq_some.1 hk
    simp only [foldArith]
    split
    · next he =>
      have hzero : m * n = 0 := by
        rcases he with he | he
        · obtain rfl : m = 0 := computes_lit (he ▸ hm)
          exact Int.zero_mul n
        · obtain rfl : n = 0 := computes_lit (he ▸ hn)
          exact Int.mul_zero m
      rw [hzero]
      rfl
    · split
      · next he =>
        obtain rfl := computes_lit (he ▸ hm)
        simpa [Computes] using hn
      · split
        · next he =>
          obtain rfl := computes_lit (he ▸ hn)
          simpa [Computes] using hm
        · exact h
  | div => exact h
  | mod => exact h

theorem eval_foldNeg (h : (Term.neg t).eval env = some v) : (foldNeg t).eval env = some v := by
  unfold foldNeg
  split
  · obtain ⟨n, k, hn, hk, rfl⟩ := eval_neg.1 h
    obtain ⟨m, l, hm, hl, he⟩ := eval_neg.1 hn
    obtain rfl := Value.int.inj he
    obtain ⟨-, rfl⟩ := Bounded.bound_eq_some.1 hk
    obtain ⟨-, rfl⟩ := Bounded.bound_eq_some.1 hl
    rw [Int.neg_neg]
    exact hm
  · exact h

mutual
theorem eval_simplify (t : Term) {v : Value} (h : t.eval env = some v) :
    t.simplify.eval env = some v := by
  cases t with
  | bool _ | int _ | const _ => exact h
  | app f ts => exact absurd h (by simp [eval])
  | not s =>
    obtain ⟨b, hb, rfl⟩ := eval_not.1 h
    exact eval_settle (eval_mkNot (eval_not.2 ⟨b, eval_simplify s hb, rfl⟩))
  | and ts =>
    refine eval_settle (eval_mkAnd ?_)
    simp only [eval, Option.bind_eq_bind, Option.bind_eq_some_iff] at h ⊢
    obtain ⟨vs, hvs, h⟩ := h
    exact ⟨vs, evalAll_simplifyAll ts hvs, h⟩
  | or ts =>
    refine eval_settle (eval_mkOr ?_)
    simp only [eval, Option.bind_eq_bind, Option.bind_eq_some_iff] at h ⊢
    obtain ⟨vs, hvs, h⟩ := h
    exact ⟨vs, evalAll_simplifyAll ts hvs, h⟩
  | distinct ts =>
    refine eval_settle ?_
    simp only [eval, Option.bind_eq_bind, Option.bind_eq_some_iff] at h ⊢
    obtain ⟨vs, hvs, h⟩ := h
    exact ⟨vs, evalAll_simplifyAll ts hvs, h⟩
  | implies p q =>
    refine eval_settle (eval_mkImplies (eval_implies.2 ?_))
    rcases eval_implies.1 h with ⟨hp, rfl⟩ | ⟨hp, b, hb, rfl⟩
    · exact .inl ⟨eval_simplify p hp, rfl⟩
    · exact .inr ⟨eval_simplify p hp, b, eval_simplify q hb, rfl⟩
  | iff p q =>
    obtain ⟨a, b, ha, hb, rfl⟩ := eval_iff.1 h
    exact eval_settle (eval_foldIff (eval_iff.2
      ⟨a, b, eval_simplify p ha, eval_simplify q hb, rfl⟩))
  | eq p q =>
    obtain ⟨u, w, b, hu, hw, heq, rfl⟩ := eval_eq.1 h
    exact eval_settle (eval_foldEq (eval_eq.2
      ⟨u, w, b, eval_simplify p hu, eval_simplify q hw, heq, rfl⟩))
  | ite c p q =>
    refine eval_settle (eval_foldIte (eval_ite.2 ?_))
    rcases eval_ite.1 h with ⟨hc, hp⟩ | ⟨hc, hq⟩
    · exact .inl ⟨eval_simplify c hc, eval_simplify p hp⟩
    · exact .inr ⟨eval_simplify c hc, eval_simplify q hq⟩
  | arith o p q =>
    obtain ⟨m, n, k, hm, hn, hk, rfl⟩ := eval_arith.1 h
    exact eval_settle (eval_foldArith (eval_arith.2
      ⟨m, n, k, eval_simplify p hm, eval_simplify q hn, hk, rfl⟩))
  | neg p =>
    obtain ⟨n, k, hn, hk, rfl⟩ := eval_neg.1 h
    exact eval_settle (eval_foldNeg (eval_neg.2 ⟨n, k, eval_simplify p hn, hk, rfl⟩))
  | compare o p q =>
    obtain ⟨m, n, hm, hn, rfl⟩ := eval_compare.1 h
    exact eval_settle (eval_compare.2 ⟨m, n, eval_simplify p hm, eval_simplify q hn, rfl⟩)

theorem evalAll_simplifyAll (ts : List Term) {vs : List Value} (h : evalAll env ts = some vs) :
    evalAll env (simplifyAll ts) = some vs := by
  cases ts with
  | nil => exact h
  | cons t ts =>
    simp only [evalAll, simplifyAll, Option.bind_eq_bind, Option.bind_eq_some_iff] at h ⊢
    obtain ⟨u, hu, us, hus, he⟩ := h
    exact ⟨u, eval_simplify t hu, us, evalAll_simplifyAll ts hus, he⟩
end

theorem mem_consts_settle (h : x ∈ (settle t).consts) : x ∈ t.consts := by
  unfold settle at h
  split at h
  · cases he : t.evalGround with
    | none => rwa [he] at h
    | some v =>
      rw [he] at h
      cases v <;> exact absurd h (by simp [Value.toTerm, consts])
  · exact h

theorem mem_consts_foldIff (h : x ∈ (foldIff s t).consts) : x ∈ s.consts ∨ x ∈ t.consts := by
  unfold foldIff at h
  split at h
  · exact .inr h
  · exact .inl h
  · rw [consts_mkNot] at h
    exact .inr h
  · rw [consts_mkNot] at h
    exact .inl h
  · split at h
    · exact absurd h (by simp [consts])
    · exact List.mem_append.1 h

theorem mem_consts_foldEq (h : x ∈ (foldEq s t).consts) : x ∈ s.consts ∨ x ∈ t.consts := by
  unfold foldEq at h
  split at h
  · exact absurd h (by simp [consts])
  · exact List.mem_append.1 h

theorem mem_consts_foldIte (h : x ∈ (foldIte c s t).consts) :
    x ∈ c.consts ∨ x ∈ s.consts ∨ x ∈ t.consts := by
  unfold foldIte at h
  split at h
  · exact .inr (.inl h)
  · exact .inr (.inr h)
  · split at h
    · exact .inr (.inl h)
    · simpa [consts] using h

theorem mem_consts_foldArith {op : ArithOp} (h : x ∈ (foldArith op s t).consts) :
    x ∈ s.consts ∨ x ∈ t.consts := by
  have hplain : ∀ {o : ArithOp}, x ∈ (Term.arith o s t).consts → x ∈ s.consts ∨ x ∈ t.consts :=
    fun h => List.mem_append.1 h
  cases op with
  | add =>
    simp only [foldArith] at h
    split at h
    · exact .inr h
    · split at h
      · exact .inl h
      · exact hplain h
  | sub =>
    simp only [foldArith] at h
    split at h
    · exact .inl h
    · exact hplain h
  | mul =>
    simp only [foldArith] at h
    split at h
    · exact absurd h (by simp [consts])
    · split at h
      · exact .inr h
      · split at h
        · exact .inl h
        · exact hplain h
  | div => exact hplain h
  | mod => exact hplain h

theorem consts_foldNeg : (foldNeg t).consts = t.consts := by
  unfold foldNeg
  split <;> rfl

mutual
theorem mem_consts_simplify (t : Term) (h : x ∈ t.simplify.consts) : x ∈ t.consts := by
  cases t with
  | bool _ | int _ | const _ => exact h
  | app f ts => exact mem_constsOf_simplifyAll ts (mem_consts_settle h)
  | distinct ts => exact mem_constsOf_simplifyAll ts (mem_consts_settle h)
  | not s =>
    have h' := mem_consts_settle h
    rw [consts_mkNot] at h'
    exact mem_consts_simplify s h'
  | neg s =>
    have h' := mem_consts_settle h
    rw [consts_foldNeg] at h'
    exact mem_consts_simplify s h'
  | and ts =>
    refine mem_constsOf_simplifyAll ts ?_
    rw [constsOf_eq]
    exact List.mem_flatMap.2 (mem_consts_mkAnd (mem_consts_settle h))
  | or ts =>
    refine mem_constsOf_simplifyAll ts ?_
    rw [constsOf_eq]
    exact List.mem_flatMap.2 (mem_consts_mkOr (mem_consts_settle h))
  | implies p q =>
    exact List.mem_append.2 ((mem_consts_mkImplies (mem_consts_settle h)).imp
      (mem_consts_simplify p) (mem_consts_simplify q))
  | iff p q =>
    exact List.mem_append.2 ((mem_consts_foldIff (mem_consts_settle h)).imp
      (mem_consts_simplify p) (mem_consts_simplify q))
  | eq p q =>
    exact List.mem_append.2 ((mem_consts_foldEq (mem_consts_settle h)).imp
      (mem_consts_simplify p) (mem_consts_simplify q))
  | arith o p q =>
    exact List.mem_append.2 ((mem_consts_foldArith (mem_consts_settle h)).imp
      (mem_consts_simplify p) (mem_consts_simplify q))
  | compare o p q =>
    exact List.mem_append.2 ((List.mem_append.1 (mem_consts_settle h)).imp
      (mem_consts_simplify p) (mem_consts_simplify q))
  | ite c p q =>
    rcases mem_consts_foldIte (mem_consts_settle h) with h | h | h
    · exact List.mem_append_left _ (mem_consts_simplify c h)
    · exact List.mem_append_right _ (List.mem_append_left _ (mem_consts_simplify p h))
    · exact List.mem_append_right _ (List.mem_append_right _ (mem_consts_simplify q h))

theorem mem_constsOf_simplifyAll (ts : List Term) (h : x ∈ constsOf (simplifyAll ts)) :
    x ∈ constsOf ts := by
  cases ts with
  | nil => exact h
  | cons t ts =>
    exact List.mem_append.2 ((List.mem_append.1 h).imp (mem_consts_simplify t)
      (mem_constsOf_simplifyAll ts))
end

mutual
theorem mem_consts_substitute {f : String → Term} (t : Term)
    (h : x ∈ (t.substitute fun y => some (f y)).consts) : ∃ y ∈ t.consts, x ∈ (f y).consts := by
  cases t with
  | bool _ | int _ => exact absurd h (by simp [substitute, consts])
  | const y => exact ⟨y, by simp [consts], h⟩
  | not s | neg s => exact mem_consts_substitute s h
  | and ts | or ts | distinct ts | app g ts => exact mem_constsOf_substituteAll ts h
  | implies p q | iff p q | eq p q | arith o p q | compare o p q =>
    rcases List.mem_append.1 h with h | h
    · obtain ⟨y, hy, hx⟩ := mem_consts_substitute p h
      exact ⟨y, List.mem_append_left _ hy, hx⟩
    · obtain ⟨y, hy, hx⟩ := mem_consts_substitute q h
      exact ⟨y, List.mem_append_right _ hy, hx⟩
  | ite c p q =>
    rcases List.mem_append.1 h with h | h
    · obtain ⟨y, hy, hx⟩ := mem_consts_substitute c h
      exact ⟨y, List.mem_append_left _ hy, hx⟩
    · rcases List.mem_append.1 h with h | h
      · obtain ⟨y, hy, hx⟩ := mem_consts_substitute p h
        exact ⟨y, List.mem_append_right _ (List.mem_append_left _ hy), hx⟩
      · obtain ⟨y, hy, hx⟩ := mem_consts_substitute q h
        exact ⟨y, List.mem_append_right _ (List.mem_append_right _ hy), hx⟩

theorem mem_constsOf_substituteAll {f : String → Term} (ts : List Term)
    (h : x ∈ constsOf (substituteAll (fun y => some (f y)) ts)) :
    ∃ y ∈ constsOf ts, x ∈ (f y).consts := by
  cases ts with
  | nil => exact absurd h (by simp [substituteAll, constsOf])
  | cons t ts =>
    rcases List.mem_append.1 h with h | h
    · obtain ⟨y, hy, hx⟩ := mem_consts_substitute t h
      exact ⟨y, List.mem_append_left _ hy, hx⟩
    · obtain ⟨y, hy, hx⟩ := mem_constsOf_substituteAll ts h
      exact ⟨y, List.mem_append_right _ hy, hx⟩
end

mutual
/-- The value after substitution is that under the values of what is put in. -/
theorem eval_substitute {f : String → Term} (env : Environment) (t : Term) :
    (t.substitute fun y => some (f y)).eval env = t.eval fun y => (f y).eval env := by
  cases t with
  | bool _ | int _ | const _ | app _ _ => rfl
  | not s | neg s => simp only [substitute, eval, eval_substitute env s]
  | and ts | or ts | distinct ts => simp only [substitute, eval, evalAll_substituteAll env ts]
  | implies p q | iff p q | eq p q | arith o p q | compare o p q =>
    simp only [substitute, eval, eval_substitute env p, eval_substitute env q]
  | ite c p q =>
    simp only [substitute, eval, eval_substitute env c, eval_substitute env p,
      eval_substitute env q]

theorem evalAll_substituteAll {f : String → Term} (env : Environment) (ts : List Term) :
    evalAll env (substituteAll (fun y => some (f y)) ts) =
      evalAll (fun y => (f y).eval env) ts := by
  cases ts with
  | nil => rfl
  | cons t ts =>
    simp only [substituteAll, evalAll, eval_substitute env t, evalAll_substituteAll env ts]
end

end Consistency.Term
