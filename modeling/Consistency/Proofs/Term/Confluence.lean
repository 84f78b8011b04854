import Consistency.Proofs.Term.Normal
import Consistency.Proofs.Term.WellFormed

/-!
# Simplification before substitution

It makes no difference whether a term is simplified before constants are
replaced in it, if it is simplified afterwards. Only an integer beyond the range
of arithmetic could come out differently, from below two negations.
-/

set_option autoImplicit false

namespace Consistency.Term
open Bounded (InRange)
variable {f g : String → Option Term} {j : Junction} {s t c : Term} {ts us : List Term} {v : Value}
  {o : ArithOp}

def reduce (f : String → Option Term) (t : Term) : Term := (t.substitute f).simplify

theorem reduced_reduce (f : String → Option Term) (t : Term) : (t.reduce f).Reduced :=
  reduced_simplify _

theorem substituteAll_eq (f : String → Option Term) (ts : List Term) :
    substituteAll f ts = ts.map (substitute f) := by
  induction ts with
  | nil => rfl
  | cons t ts ih => rw [substituteAll, ih, List.map_cons]

theorem simplifyAll_substituteAll (f : String → Option Term) (ts : List Term) :
    simplifyAll (substituteAll f ts) = ts.map (reduce f) := by
  rw [simplifyAll_eq, substituteAll_eq, List.map_map]
  rfl

mutual
theorem substitute_ground (f : String → Option Term) (t : Term) (h : t.consts = []) :
    t.substitute f = t := by
  cases t with
  | bool _ | int _ => rfl
  | const x => exact absurd h (by simp [consts])
  | not s | neg s => simp only [substitute, substitute_ground f s h]
  | and ts | or ts | distinct ts | app _ ts =>
    simp only [substitute, substituteAll_ground f ts h]
  | implies a b | iff a b | eq a b | arith _ a b | compare _ a b =>
    have hab := List.append_eq_nil_iff.1 h
    simp only [substitute, substitute_ground f a hab.1, substitute_ground f b hab.2]
  | ite c a b =>
    have hcab := List.append_eq_nil_iff.1 h
    have hab := List.append_eq_nil_iff.1 hcab.2
    simp only [substitute, substitute_ground f c hcab.1, substitute_ground f a hab.1,
      substitute_ground f b hab.2]

theorem substituteAll_ground (f : String → Option Term) (ts : List Term) (h : constsOf ts = []) :
    substituteAll f ts = ts := by
  cases ts with
  | nil => rfl
  | cons t ts =>
    have hts := List.append_eq_nil_iff.1 h
    simp only [substituteAll, substitute_ground f t hts.1, substituteAll_ground f ts hts.2]
end

/-- Settling makes no difference. -/
theorem reduce_settle (f : String → Option Term) (t : Term) : (settle t).reduce f = t.reduce f := by
  rcases settle_cases t with hs | ⟨v, hg, hv, hs⟩
  · rw [hs]
  · rw [hs, reduce, reduce, substitute_ground f t (isGround_iff.1 hg), simplify_ground hg hv]
    cases v <;> rfl

/-- Two negations of what is reduced. -/
theorem mkNot_mkNot (h : t.Reduced) : mkNot (mkNot t) = t := by
  cases t with
  | bool b => simp [mkNot]
  | not u => exact mkNot_of_plain h.plain
  | _ => rfl

theorem settle_mkNot (h : t.Reduced) : settle (mkNot t) = mkNot t := (reduced_mkNot h).settle

theorem reduce_not (f : String → Option Term) (t : Term) :
    (Term.not t).reduce f = mkNot (t.reduce f) := settle_mkNot (reduced_reduce f t)

theorem reduce_mkNot (f : String → Option Term) (t : Term) :
    (mkNot t).reduce f = mkNot (t.reduce f) := by
  unfold mkNot
  split
  · rfl
  · next u =>
    show u.reduce f = mkNot ((Term.not u).reduce f)
    rw [reduce_not, mkNot_mkNot (reduced_reduce f u)]
  · exact reduce_not f t

theorem reduce_neg (f : String → Option Term) (t : Term) :
    (Term.neg t).reduce f = settle (foldNeg (t.reduce f)) := rfl

/-- Two negations of what is reduced, unless they leave the range of arithmetic on the way. -/
theorem foldNeg_foldNeg (h : t.Reduced) (hi : ∀ n, t = .int n → InRange n) :
    settle (foldNeg (settle (foldNeg t))) = t := by
  cases t with
  | neg u =>
    have hu : foldNeg u = .neg u := foldNeg_of_plain h.plain
    show settle (foldNeg (settle u)) = .neg u
    rw [(h.kept u (List.mem_singleton_self u)).settle, hu, h.settle]
  | int n =>
    by_cases hn : InRange (-n)
    · have hfirst : settle (foldNeg (.int n)) = .int (-n) :=
        settle_eq (v := .int (-n)) rfl
          (eval_neg.2 ⟨n, -n, rfl, Bounded.bound_eq_some.2 ⟨hn, rfl⟩, rfl⟩)
      have hback : InRange (- -n) := (Int.neg_neg n).symm ▸ hi n rfl
      have hsecond : settle (foldNeg (.int (-n))) = .int (- -n) :=
        settle_eq (v := .int (- -n)) rfl
          (eval_neg.2 ⟨-n, - -n, rfl, Bounded.bound_eq_some.2 ⟨hback, rfl⟩, rfl⟩)
      rw [hfirst, hsecond, Int.neg_neg]
    · have hfirst : settle (foldNeg (.int n)) = .neg (.int n) := by
        refine settle_eq_self fun v _ hv => ?_
        obtain ⟨m, k, hm, hk, -⟩ := eval_neg.1 hv
        obtain rfl := computes_lit hm
        exact absurd (Bounded.bound_eq_some.1 hk).1 hn
      rw [hfirst]
      rfl
  | _ =>
    have hfirst := settle_neg h (by simp)
    show settle (foldNeg (settle (.neg _))) = _
    rw [hfirst]
    exact h.settle

theorem reduce_foldNeg (hi : ∀ u n, t = .neg u → u.reduce f = .int n → InRange n) :
    (foldNeg t).reduce f = settle (foldNeg (t.reduce f)) := by
  unfold foldNeg
  split
  · next u =>
    show u.reduce f = settle (foldNeg ((Term.neg u).reduce f))
    rw [reduce_neg, foldNeg_foldNeg (reduced_reduce f u) fun n hn => hi u n rfl hn]
  · rfl

theorem wrap_ne_bool (j : Junction) (ts : List Term) (b : Bool) : j.wrap ts ≠ .bool b := by
  cases j <;> exact Term.noConfusion

theorem make_congr (ha : Term.bool j.absorbing ∈ ts ↔ Term.bool j.absorbing ∈ us)
    (hp : Term.bool j.absorbing ∉ ts → ts.flatMap j.parts = us.flatMap j.parts) :
    j.make ts = j.make us := by
  by_cases h : Term.bool j.absorbing ∈ ts
  · rw [make_absorbing h, make_absorbing (ha.1 h)]
  · rw [j.make_eq, j.make_eq, hp h, if_neg (by rwa [List.contains_iff_mem]),
      if_neg (by rwa [List.contains_iff_mem, ← ha])]

/-- The parts of what was put together. -/
theorem parts_make (hr : ∀ t ∈ ts, t.Reduced) (h : Term.bool j.absorbing ∉ ts) :
    j.make ts ≠ .bool j.absorbing ∧ j.parts (j.make ts) = ts.flatMap j.parts := by
  rcases make_cases h with ⟨hks, hmake⟩ | ⟨t, hks, hmake⟩ | ⟨-, hmake⟩
  · rw [hmake, hks]
    exact ⟨by simp, j.parts_unit⟩
  · have hoperand := (parts_of_reduced hr h t (hks ▸ List.mem_singleton_self t)).2
    rw [hmake, hks]
    exact ⟨hoperand.bool _, Junction.parts_operand hoperand⟩
  · rw [hmake]
    exact ⟨wrap_ne_bool j _ _, j.parts_wrap _⟩

theorem make_singleton (h : t.Reduced) : j.make [t] = t := by
  by_cases ha : Term.bool j.absorbing = t
  · rw [← ha]
    exact make_absorbing (List.mem_singleton_self _)
  · have hnot : Term.bool j.absorbing ∉ [t] := by rwa [List.mem_singleton]
    have hks : [t].flatMap j.parts = j.parts t := List.flatMap_singleton _ _
    rcases j.parts_cases t with ⟨rfl, hparts⟩ | ⟨us, rfl, hparts⟩ | ⟨-, -, hparts⟩
    all_goals
      rw [hparts] at hks
      have hmake := make_cases hnot
      rw [hks] at hmake
    · simpa using hmake
    · have hlength := (plain_wrap.1 h.plain).1
      rcases hmake with ⟨rfl, -⟩ | ⟨u, rfl, -⟩ | ⟨-, hmake⟩
      · exact absurd hlength (by simp)
      · exact absurd hlength (by simp)
      · exact hmake
    · simpa [eq_comm] using hmake

theorem reduce_wrap (f : String → Option Term) (j : Junction) (ts : List Term) :
    (j.wrap ts).reduce f = j.make (ts.map (reduce f)) := by
  have hreduced : ∀ u ∈ ts.map (reduce f), u.Reduced :=
    List.forall_mem_map.2 fun t _ => reduced_reduce f t
  rw [← (reduced_make hreduced).settle, ← simplifyAll_substituteAll]
  cases j <;> rfl

/-- What an operand contributes before and after constants are replaced. -/
theorem reduce_parts (f : String → Option Term) (j : Junction) (t : Term) :
    (t.reduce f = .bool j.absorbing ↔ Term.bool j.absorbing ∈ (j.parts t).map (reduce f)) ∧
    (t.reduce f ≠ .bool j.absorbing →
      j.parts (t.reduce f) = ((j.parts t).map (reduce f)).flatMap j.parts) := by
  rcases j.parts_cases t with ⟨rfl, hparts⟩ | ⟨us, rfl, hparts⟩ | ⟨-, -, hparts⟩
  · rw [hparts]
    refine ⟨?_, fun _ => j.parts_unit⟩
    have hsame : (Term.bool !j.absorbing).reduce f = .bool !j.absorbing := rfl
    rw [hsame]
    simp
  · rw [hparts, reduce_wrap]
    have hreduced : ∀ u ∈ us.map (reduce f), u.Reduced :=
      List.forall_mem_map.2 fun t _ => reduced_reduce f t
    refine ⟨⟨fun h => ?_, make_absorbing⟩, fun h => ?_⟩
    · by_contra hnot
      exact (parts_make hreduced hnot).1 h
    · exact (parts_make hreduced fun hmem => h (make_absorbing hmem)).2
  · rw [hparts]
    exact ⟨by simp [eq_comm], fun _ => (List.flatMap_singleton _ _).symm⟩

theorem reduce_make (f : String → Option Term) (ts : List Term) :
    (j.make ts).reduce f = j.make (ts.map (reduce f)) := by
  by_cases h : Term.bool j.absorbing ∈ ts
  · rw [make_absorbing h]
    exact (make_absorbing (List.mem_map.2 ⟨_, h, rfl⟩)).symm
  · have hspread : j.make (ts.map (reduce f)) = j.make ((ts.flatMap j.parts).map (reduce f)) := by
      refine make_congr ?_ fun hnot => ?_
      · simp only [List.mem_map, List.mem_flatMap]
        constructor
        · rintro ⟨t, ht, he⟩
          obtain ⟨u, hu, he⟩ := List.mem_map.1 ((reduce_parts f j t).1.1 he)
          exact ⟨u, ⟨t, ht, hu⟩, he⟩
        · rintro ⟨u, ⟨t, ht, hu⟩, he⟩
          exact ⟨t, ht, (reduce_parts f j t).1.2 (List.mem_map.2 ⟨u, hu, he⟩)⟩
      · rw [List.flatMap_map, List.map_flatMap, List.flatMap_assoc]
        refine List.flatMap_congr fun t ht => ?_
        exact (reduce_parts f j t).2 fun he => hnot (List.mem_map.2 ⟨t, ht, he⟩)
    rw [hspread]
    rcases make_cases h with ⟨hks, hmake⟩ | ⟨t, hks, hmake⟩ | ⟨-, hmake⟩
    · rw [hks, hmake]
      exact (j.make_eq []).symm
    · rw [hks, hmake]
      exact (make_singleton (reduced_reduce f t)).symm
    · rw [hmake, reduce_wrap]

theorem mkImplies_true (t : Term) : mkImplies t (.bool true) = .bool true := by
  cases t with
  | bool b => cases b <;> rfl
  | _ => rfl

theorem mkImplies_of_true (t : Term) : mkImplies (.bool true) t = t := by
  cases t with
  | bool b => cases b <;> rfl
  | _ => rfl

theorem mkImplies_false (t : Term) : mkImplies t (.bool false) = mkNot t := by
  cases t with
  | bool b => cases b <;> rfl
  | _ => rfl

theorem reduce_mkImplies (f : String → Option Term) (s t : Term) :
    (mkImplies s t).reduce f = settle (mkImplies (s.reduce f) (t.reduce f)) := by
  unfold mkImplies
  split
  · rfl
  · show Term.bool true = settle (mkImplies (s.reduce f) (.bool true))
    rw [mkImplies_true]
    rfl
  · show t.reduce f = settle (mkImplies (.bool true) (t.reduce f))
    rw [mkImplies_of_true, (reduced_reduce f t).settle]
  · show (mkNot s).reduce f = settle (mkImplies (s.reduce f) (.bool false))
    rw [mkImplies_false, reduce_mkNot, settle_mkNot (reduced_reduce f s)]
  · rfl

theorem foldIff_true (t : Term) : foldIff t (.bool true) = t := by
  cases t with
  | bool b => cases b <;> rfl
  | _ => rfl

theorem foldIff_false (t : Term) : foldIff t (.bool false) = mkNot t := by
  cases t with
  | bool b => cases b <;> rfl
  | _ => rfl

theorem foldIff_of_false (t : Term) : foldIff (.bool false) t = mkNot t := by
  cases t with
  | bool b => cases b <;> rfl
  | _ => rfl

theorem foldIff_self (t : Term) : foldIff t t = .bool true := by
  cases t with
  | bool b => cases b <;> rfl
  | _ => exact if_pos rfl

theorem reduce_foldIff (f : String → Option Term) (s t : Term) :
    (foldIff s t).reduce f = settle (foldIff (s.reduce f) (t.reduce f)) := by
  unfold foldIff
  split
  · exact (reduced_reduce f t).settle.symm
  · show s.reduce f = settle (foldIff (s.reduce f) (.bool true))
    rw [foldIff_true, (reduced_reduce f s).settle]
  · show (mkNot t).reduce f = settle (foldIff (.bool false) (t.reduce f))
    rw [foldIff_of_false, reduce_mkNot, settle_mkNot (reduced_reduce f t)]
  · show (mkNot s).reduce f = settle (foldIff (s.reduce f) (.bool false))
    rw [foldIff_false, reduce_mkNot, settle_mkNot (reduced_reduce f s)]
  · split
    · next he =>
      show Term.bool true = settle (foldIff (s.reduce f) (t.reduce f))
      rw [he, foldIff_self]
      rfl
    · rfl

theorem reduce_foldEq (f : String → Option Term) (s t : Term) :
    (foldEq s t).reduce f = settle (foldEq (s.reduce f) (t.reduce f)) := by
  unfold foldEq
  split
  · next he =>
    rw [he, if_pos rfl]
    rfl
  · rfl

theorem foldIte_self (c t : Term) : foldIte c t t = t := by
  cases c with
  | bool b => cases b <;> rfl
  | _ => exact if_pos rfl

theorem reduce_foldIte (f : String → Option Term) (c s t : Term) :
    (foldIte c s t).reduce f = settle (foldIte (c.reduce f) (s.reduce f) (t.reduce f)) := by
  unfold foldIte
  split
  · exact (reduced_reduce f s).settle.symm
  · exact (reduced_reduce f t).settle.symm
  · split
    · next he =>
      show s.reduce f = settle (foldIte (c.reduce f) (s.reduce f) (t.reduce f))
      rw [he, foldIte_self, (reduced_reduce f t).settle]
    · rfl

theorem foldArith_zero_add (t : Term) : foldArith .add (.int 0) t = t := by
  simp [foldArith]

theorem foldArith_add_zero (t : Term) : foldArith .add t (.int 0) = t := by
  simp only [foldArith, if_true]
  split
  · next h => exact h.symm
  · rfl

theorem foldArith_sub_zero (t : Term) : foldArith .sub t (.int 0) = t := by
  simp [foldArith]

theorem foldArith_zero_mul (t : Term) : foldArith .mul (.int 0) t = .int 0 := by
  simp [foldArith]

theorem foldArith_mul_zero (t : Term) : foldArith .mul t (.int 0) = .int 0 := by
  simp [foldArith]

theorem foldArith_one_mul (t : Term) : foldArith .mul (.int 1) t = t := by
  by_cases h : t = .int 0
  · rw [h, foldArith_mul_zero]
  · simp [foldArith, h]

theorem foldArith_mul_one (t : Term) : foldArith .mul t (.int 1) = t := by
  by_cases h : t = .int 0
  · rw [h, foldArith_zero_mul]
  · by_cases h' : t = .int 1
    · rw [h', foldArith_one_mul]
    · simp [foldArith, h, h']

theorem reduce_foldArith (f : String → Option Term) (o : ArithOp) (s t : Term) :
    (foldArith o s t).reduce f = settle (foldArith o (s.reduce f) (t.reduce f)) := by
  have hs := (reduced_reduce f s).settle
  have ht := (reduced_reduce f t).settle
  have hint : ∀ n, (Term.int n).reduce f = .int n := fun _ => rfl
  cases o with
  | add =>
    by_cases h : s = .int 0
    · rw [h, foldArith_zero_add, hint, foldArith_zero_add, ht]
    · by_cases h' : t = .int 0
      · rw [h', foldArith_add_zero, hint, foldArith_add_zero, hs]
      · simp only [foldArith, h, h', if_false]
        rfl
  | sub =>
    by_cases h : t = .int 0
    · rw [h, foldArith_sub_zero, hint, foldArith_sub_zero, hs]
    · simp only [foldArith, h, if_false]
      rfl
  | mul =>
    by_cases h : s = .int 0
    · rw [h, foldArith_zero_mul, hint, foldArith_zero_mul]
      rfl
    · by_cases h' : t = .int 0
      · rw [h', foldArith_mul_zero, hint, foldArith_mul_zero]
        rfl
      · by_cases hone : s = .int 1
        · rw [hone, foldArith_one_mul, hint, foldArith_one_mul, ht]
        · by_cases hone' : t = .int 1
          · rw [hone', foldArith_mul_one, hint, foldArith_mul_one, hs]
          · simp only [foldArith, h, h', hone, hone', or_self, if_false]
            rfl
  | div => rfl
  | mod => rfl

mutual
/-- One case for each operator: simplifying it first, its operands being simplified, changes
nothing. -/
theorem reduce_simplify (hf : ∀ x u, f x = some u → u.WellFormed InRange) (t : Term)
    (h : t.WellFormed InRange) : (simplify t).reduce f = t.reduce f := by
  cases t with
  | bool _ | int _ | const _ => rfl
  | not s =>
    rw [simplify, reduce_settle, reduce_mkNot, reduce_simplify hf s h, reduce_not]
  | neg s =>
    rw [simplify, reduce_settle, reduce_foldNeg, reduce_simplify hf s h, reduce_neg]
    intro u n hu hn
    have hwell := WellFormed.simplify closed_inRange s h
    rw [hu] at hwell
    have hreduced := WellFormed.simplify closed_inRange _ (WellFormed.substitute hf u hwell)
    rw [reduce] at hn
    rw [hn] at hreduced
    exact hreduced
  | and ts =>
    rw [simplify, reduce_settle]
    exact (reduce_make (j := .conj) f _).trans
      ((congrArg _ (map_reduce_simplifyAll hf ts h)).trans (reduce_wrap f .conj ts).symm)
  | or ts =>
    rw [simplify, reduce_settle]
    exact (reduce_make (j := .disj) f _).trans
      ((congrArg _ (map_reduce_simplifyAll hf ts h)).trans (reduce_wrap f .disj ts).symm)
  | implies a b =>
    rw [simplify, reduce_settle, reduce_mkImplies, reduce_simplify hf a h.1,
      reduce_simplify hf b h.2]
    rfl
  | iff a b =>
    rw [simplify, reduce_settle, reduce_foldIff, reduce_simplify hf a h.1,
      reduce_simplify hf b h.2]
    rfl
  | eq a b =>
    rw [simplify, reduce_settle, reduce_foldEq, reduce_simplify hf a h.1,
      reduce_simplify hf b h.2]
    rfl
  | ite c a b =>
    rw [simplify, reduce_settle, reduce_foldIte, reduce_simplify hf c h.1,
      reduce_simplify hf a h.2.1, reduce_simplify hf b h.2.2]
    rfl
  | arith o a b =>
    rw [simplify, reduce_settle, reduce_foldArith, reduce_simplify hf a h.1,
      reduce_simplify hf b h.2]
    rfl
  | compare o a b =>
    rw [simplify, reduce_settle]
    show settle (.compare o (a.simplify.reduce f) (b.simplify.reduce f)) = _
    rw [reduce_simplify hf a h.1, reduce_simplify hf b h.2]
    rfl
  | distinct ts =>
    rw [simplify, reduce_settle]
    show settle (.distinct (simplifyAll (substituteAll f (simplifyAll ts)))) = _
    rw [simplifyAll_substituteAll, map_reduce_simplifyAll hf ts h.2, ← simplifyAll_substituteAll]
    rfl
  | app k ts =>
    rw [simplify, reduce_settle]
    show settle (.app k (simplifyAll (substituteAll f (simplifyAll ts)))) = _
    rw [simplifyAll_substituteAll, map_reduce_simplifyAll hf ts h, ← simplifyAll_substituteAll]
    rfl

theorem map_reduce_simplifyAll (hf : ∀ x u, f x = some u → u.WellFormed InRange)
    (ts : List Term) (h : WellFormedAll InRange ts) :
    (simplifyAll ts).map (reduce f) = ts.map (reduce f) := by
  cases ts with
  | nil => rfl
  | cons t ts =>
    rw [simplifyAll, List.map_cons, List.map_cons, reduce_simplify hf t h.1,
      map_reduce_simplifyAll hf ts h.2]
end

mutual
/-- What a term is simplified to depends on what the terms put in are simplified to. -/
theorem reduce_congr (h : ∀ x, (Term.const x).reduce f = (Term.const x).reduce g) (t : Term) :
    t.reduce f = t.reduce g := by
  cases t with
  | bool _ | int _ => rfl
  | const x => exact h x
  | not s =>
    rw [reduce_not, reduce_not, reduce_congr h s]
  | neg s =>
    rw [reduce_neg, reduce_neg, reduce_congr h s]
  | and ts => exact congrArg (fun us => settle (mkAnd us)) (reduceAll_congr h ts)
  | or ts => exact congrArg (fun us => settle (mkOr us)) (reduceAll_congr h ts)
  | distinct ts => exact congrArg (fun us => settle (.distinct us)) (reduceAll_congr h ts)
  | app k ts => exact congrArg (fun us => settle (.app k us)) (reduceAll_congr h ts)
  | implies a b =>
    exact congrArg₂ (fun u w => settle (mkImplies u w)) (reduce_congr h a) (reduce_congr h b)
  | iff a b =>
    exact congrArg₂ (fun u w => settle (foldIff u w)) (reduce_congr h a) (reduce_congr h b)
  | eq a b =>
    exact congrArg₂ (fun u w => settle (foldEq u w)) (reduce_congr h a) (reduce_congr h b)
  | arith o a b =>
    exact congrArg₂ (fun u w => settle (foldArith o u w)) (reduce_congr h a) (reduce_congr h b)
  | compare o a b =>
    exact congrArg₂ (fun u w => settle (.compare o u w)) (reduce_congr h a) (reduce_congr h b)
  | ite c a b =>
    show settle (foldIte (c.reduce f) (a.reduce f) (b.reduce f)) = _
    rw [reduce_congr h c, reduce_congr h a, reduce_congr h b]
    rfl

theorem reduceAll_congr (h : ∀ x, (Term.const x).reduce f = (Term.const x).reduce g)
    (ts : List Term) :
    simplifyAll (substituteAll f ts) = simplifyAll (substituteAll g ts) := by
  cases ts with
  | nil => rfl
  | cons t ts => exact congrArg₂ List.cons (reduce_congr h t) (reduceAll_congr h ts)
end

end Consistency.Term
