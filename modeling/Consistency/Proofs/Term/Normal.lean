import Mathlib.Logic.Relation
import Consistency.Proofs.Term.Reduced

/-!
# Normal forms

Simplification leaves a term to whose head no rule applies and whose operands
are normal again, so that simplifying once more changes nothing. Wherever a
normal form has a part with a value of its own, that part is the value.
-/

set_option autoImplicit false

namespace Consistency.Term
variable {j : Junction} {s t u c : Term} {ts : List Term} {v : Value} {o : ArithOp}
  {env : Environment}

def operands : Term → List Term
  | .bool _ | .int _ | .const _ => []
  | .not a | .neg a => [a]
  | .and as | .or as | .distinct as | .app _ as => as
  | .implies a b | .iff a b | .eq a b | .arith _ a b | .compare _ a b => [a, b]
  | .ite c a b => [c, a, b]

def Contains : Term → Term → Prop := Relation.ReflTransGen fun t u => u ∈ t.operands

def Folded : Term → Prop
  | .implies a b => (∀ p, a ≠ .bool p) ∧ ∀ p, b ≠ .bool p
  | .iff a b => (∀ p, a ≠ .bool p) ∧ (∀ p, b ≠ .bool p) ∧ a ≠ b
  | .eq a b => a ≠ b
  | .ite c a b => (∀ p, c ≠ .bool p) ∧ a ≠ b
  | .arith .add a b => a ≠ .int 0 ∧ b ≠ .int 0
  | .arith .sub _ b => b ≠ .int 0
  | .arith .mul a b => a ≠ .int 0 ∧ b ≠ .int 0 ∧ a ≠ .int 1 ∧ b ≠ .int 1
  | t => t.Plain

/-- No rule applies anywhere, and nothing has a value that is not one already. -/
inductive Normal : Term → Prop where
  | intro {t : Term} : settle t = t → Folded t → (∀ u ∈ t.operands, Normal u) → Normal t

namespace Normal

theorem settled (h : t.Normal) : settle t = t := by
  cases h
  assumption

theorem folded (h : t.Normal) : t.Folded := by
  cases h
  assumption

theorem operands (h : t.Normal) : ∀ u ∈ t.operands, u.Normal := by
  cases h
  assumption

theorem settle (h : t.Normal) : (settle t).Normal := by
  rwa [h.settled]

theorem contains (h : t.Normal) (hu : t.Contains u) : u.Normal := by
  induction hu with
  | refl => exact h
  | tail _ hmem ih => exact ih.operands _ hmem

end Normal

theorem Folded.plain (h : t.Folded) : t.Plain := by
  cases t <;> first | exact h | trivial

theorem kept_subset (t : Term) : t.kept ⊆ t.operands := by
  cases t <;> simp [kept, operands]

theorem Normal.reduced (h : t.Normal) : t.Reduced := by
  induction h with
  | intro hs hf _ ih => exact .intro hs hf.plain fun u hu => ih u (kept_subset _ hu)

theorem normal_toTerm (v : Value) : v.toTerm.Normal := by
  cases v <;> exact .intro rfl trivial (by simp [Value.toTerm, Term.operands])

theorem normal_bool (b : Bool) : (Term.bool b).Normal := normal_toTerm (.bool b)

theorem normal_int (n : Int) : (Term.int n).Normal := normal_toTerm (.int n)

theorem normal_const (x : String) : (Term.const x).Normal := by
  apply Normal.intro
  · exact if_neg (by simp [isGround, consts])
  · trivial
  · simp [operands]

/-- Settling keeps a term to whose head no rule applies, or makes a value of it. -/
theorem normal_settle (hf : t.Folded) (ho : ∀ u ∈ t.operands, u.Normal) : (settle t).Normal := by
  rcases settle_cases t with hs | ⟨v, -, -, hs⟩
  · rw [hs]
    exact .intro hs hf ho
  · rw [hs]
    exact normal_toTerm v

theorem normal_pair (hs : s.Normal) (ht : t.Normal) : ∀ u ∈ [s, t], u.Normal := by
  simp [hs, ht]

theorem ne_bool (htrue : t ≠ .bool true) (hfalse : t ≠ .bool false) : ∀ b, t ≠ .bool b := by
  intro b
  cases b
  · exact hfalse
  · exact htrue

theorem normal_mkNot (h : t.Normal) : (settle (mkNot t)).Normal := by
  unfold mkNot
  split
  · exact (normal_bool _).settle
  · exact (h.operands _ (List.mem_singleton_self _)).settle
  · next hb hn => exact normal_settle ⟨hb, hn⟩ (List.forall_mem_singleton.2 h)

theorem normal_foldNeg (h : t.Normal) : (settle (foldNeg t)).Normal := by
  unfold foldNeg
  split
  · exact (h.operands _ (List.mem_singleton_self _)).settle
  · next hn => exact normal_settle hn (List.forall_mem_singleton.2 h)

theorem operands_wrap (j : Junction) (ts : List Term) : (j.wrap ts).operands = ts := by
  cases j <;> rfl

theorem folded_wrap (j : Junction) (ts : List Term) : (j.wrap ts).Folded ↔ (j.wrap ts).Plain := by
  cases j <;> rfl

/-- Nested operands are operands of what they come from. -/
theorem Normal.parts (h : t.Normal) : ∀ u ∈ j.parts t, u.Normal := by
  intro u hu
  rcases j.parts_cases t with ⟨-, hparts⟩ | ⟨ts, rfl, hparts⟩ | ⟨-, -, hparts⟩
  · rw [hparts] at hu
    exact absurd hu List.not_mem_nil
  · apply h.operands u
    rwa [operands_wrap, ← hparts]
  · rw [hparts] at hu
    rwa [List.mem_singleton.1 hu]

theorem normal_make (h : ∀ t ∈ ts, t.Normal) : (settle (j.make ts)).Normal := by
  by_cases ha : Term.bool j.absorbing ∈ ts
  · rw [make_absorbing ha]
    exact (normal_bool _).settle
  · have hks : ∀ u ∈ ts.flatMap j.parts, u.Normal := by
      intro u hu
      obtain ⟨t, ht, hut⟩ := List.mem_flatMap.1 hu
      exact (h t ht).parts u hut
    -- What is spread out is neither a value nor of the same kind again, so that no rule is left.
    have hoperand := parts_of_reduced (fun t ht => (h t ht).reduced) ha
    rcases make_cases ha with ⟨-, hmake⟩ | ⟨u, hone, hmake⟩ | ⟨hlength, hmake⟩
    · rw [hmake]
      exact (normal_bool _).settle
    · rw [hmake]
      exact (hks u (hone ▸ List.mem_singleton_self u)).settle
    · rw [hmake]
      apply normal_settle
      · exact (folded_wrap j _).2 (plain_wrap.2 ⟨hlength, fun u hu => (hoperand u hu).2⟩)
      · rwa [operands_wrap]

theorem normal_mkImplies (hs : s.Normal) (ht : t.Normal) : (settle (mkImplies s t)).Normal := by
  unfold mkImplies
  split
  · exact (normal_bool true).settle
  · exact (normal_bool true).settle
  · exact ht.settle
  · exact normal_mkNot hs
  · next hsf hst htt htf =>
    apply normal_settle
    · exact ⟨ne_bool hst hsf, ne_bool htt htf⟩
    · exact normal_pair hs ht

theorem normal_foldIff (hs : s.Normal) (ht : t.Normal) : (settle (foldIff s t)).Normal := by
  unfold foldIff
  split
  · exact ht.settle
  · exact hs.settle
  · exact normal_mkNot ht
  · exact normal_mkNot hs
  · next hst hsf htt htf =>
    split
    · exact (normal_bool true).settle
    · next hne =>
      exact normal_settle ⟨ne_bool hst hsf, ne_bool htt htf, hne⟩ (normal_pair hs ht)

theorem normal_foldEq (hs : s.Normal) (ht : t.Normal) : (settle (foldEq s t)).Normal := by
  unfold foldEq
  split
  · exact (normal_bool true).settle
  · next hne => exact normal_settle hne (normal_pair hs ht)

theorem normal_foldIte (hc : c.Normal) (hs : s.Normal) (ht : t.Normal) :
    (settle (foldIte c s t)).Normal := by
  unfold foldIte
  split
  · exact hs.settle
  · exact ht.settle
  · next htrue hfalse =>
    split
    · exact hs.settle
    · next hne =>
      apply normal_settle
      · exact ⟨ne_bool htrue hfalse, hne⟩
      · exact List.forall_mem_cons.2 ⟨hc, normal_pair hs ht⟩

theorem normal_foldArith (hs : s.Normal) (ht : t.Normal) :
    (settle (foldArith o s t)).Normal := by
  have hpair := normal_pair hs ht
  cases o with
  | add =>
    simp only [foldArith]
    split
    · exact ht.settle
    · next hs0 =>
      split
      · exact hs.settle
      · next ht0 => exact normal_settle ⟨hs0, ht0⟩ hpair
  | sub =>
    simp only [foldArith]
    split
    · exact hs.settle
    · next ht0 => exact normal_settle ht0 hpair
  | mul =>
    simp only [foldArith]
    split
    · exact (normal_int 0).settle
    · next h0 =>
      rw [not_or] at h0
      split
      · exact ht.settle
      · next hs1 =>
        split
        · exact hs.settle
        · next ht1 => exact normal_settle ⟨h0.1, h0.2, hs1, ht1⟩ hpair
  | div => exact normal_settle trivial hpair
  | mod => exact normal_settle trivial hpair

mutual
/-- One lemma for each operator: its operands are normal, and so is what it folds to. -/
theorem normal_simplify (t : Term) : (simplify t).Normal := by
  cases t with
  | bool b => exact normal_bool b
  | int n => exact normal_int n
  | const x => exact normal_const x
  | not s => exact normal_mkNot (normal_simplify s)
  | neg s => exact normal_foldNeg (normal_simplify s)
  | and ts => exact normal_make (j := .conj) (normal_simplifyAll ts)
  | or ts => exact normal_make (j := .disj) (normal_simplifyAll ts)
  | implies a b => exact normal_mkImplies (normal_simplify a) (normal_simplify b)
  | iff a b => exact normal_foldIff (normal_simplify a) (normal_simplify b)
  | eq a b => exact normal_foldEq (normal_simplify a) (normal_simplify b)
  | ite c a b =>
    exact normal_foldIte (normal_simplify c) (normal_simplify a) (normal_simplify b)
  | arith o a b => exact normal_foldArith (normal_simplify a) (normal_simplify b)
  | compare o a b =>
    exact normal_settle trivial (normal_pair (normal_simplify a) (normal_simplify b))
  | distinct ts | app _ ts => exact normal_settle trivial (normal_simplifyAll ts)

theorem normal_simplifyAll (ts : List Term) : ∀ t ∈ simplifyAll ts, t.Normal := by
  cases ts with
  | nil => simp [simplifyAll]
  | cons t ts => exact List.forall_mem_cons.2 ⟨normal_simplify t, normal_simplifyAll ts⟩
end

theorem simplifyAll_eq (ts : List Term) : simplifyAll ts = ts.map simplify := by
  induction ts with
  | nil => rfl
  | cons t ts ih => rw [simplifyAll, ih, List.map_cons]

theorem reduced_simplify (t : Term) : (simplify t).Reduced := (normal_simplify t).reduced

/-- A term with a value of its own is simplified to it. -/
theorem simplify_ground (hg : t.isGround = true) (hv : t.evalGround = some v) :
    simplify t = v.toTerm := by
  apply (reduced_simplify t).literal _ (eval_simplify t hv)
  rw [isGround_iff, List.eq_nil_iff_forall_not_mem]
  intro x hx
  rw [isGround_iff] at hg
  exact List.not_mem_nil (hg ▸ mem_consts_simplify t hx)

theorem mkImplies_of_folded (h : (Term.implies s t).Folded) : mkImplies s t = .implies s t := by
  unfold mkImplies
  split
  · exact absurd rfl (h.1 _)
  · exact absurd rfl (h.2 _)
  · exact absurd rfl (h.1 _)
  · exact absurd rfl (h.2 _)
  · rfl

theorem foldIff_of_folded (h : (Term.iff s t).Folded) : foldIff s t = .iff s t := by
  unfold foldIff
  split
  · exact absurd rfl (h.1 _)
  · exact absurd rfl (h.2.1 _)
  · exact absurd rfl (h.1 _)
  · exact absurd rfl (h.2.1 _)
  · exact if_neg h.2.2

theorem foldIte_of_folded (h : (Term.ite c s t).Folded) : foldIte c s t = .ite c s t := by
  unfold foldIte
  split
  · exact absurd rfl (h.1 _)
  · exact absurd rfl (h.1 _)
  · exact if_neg h.2

theorem foldArith_of_folded (h : (Term.arith o s t).Folded) : foldArith o s t = .arith o s t := by
  cases o with
  | add => simp [foldArith, h.1, h.2]
  | sub => exact if_neg h
  | mul => simp [foldArith, h.1, h.2.1, h.2.2.1, h.2.2.2]
  | div => rfl
  | mod => rfl

/-- One case for each operator: its operands stay, no rule applies to it, and it is settled. -/
theorem Normal.simplify (h : t.Normal) : simplify t = t := by
  induction h with
  | @intro t hs hf _ ih =>
    have hall : ∀ ts, t.operands = ts → simplifyAll ts = ts := by
      rintro ts rfl
      rw [simplifyAll_eq, List.map_congr_left ih, List.map_id']
    cases t with
    | bool _ | int _ | const _ => rfl
    | not s =>
      have ih := ih s List.mem_cons_self
      rw [Term.simplify, ih, mkNot_of_plain hf, hs]
    | neg s =>
      have ih := ih s List.mem_cons_self
      rw [Term.simplify, ih, foldNeg_of_plain hf, hs]
    | and ts =>
      have hmake := make_of_plain (j := .conj) hf
      rw [Term.simplify, hall ts rfl]
      exact (congrArg Term.settle hmake).trans hs
    | or ts =>
      have hmake := make_of_plain (j := .disj) hf
      rw [Term.simplify, hall ts rfl]
      exact (congrArg Term.settle hmake).trans hs
    | distinct ts => rw [Term.simplify, hall ts rfl, hs]
    | app f ts => rw [Term.simplify, hall ts rfl, hs]
    | implies a b =>
      simp only [Term.operands, List.forall_mem_cons] at ih
      rw [Term.simplify, ih.1, ih.2.1, mkImplies_of_folded hf, hs]
    | iff a b =>
      simp only [Term.operands, List.forall_mem_cons] at ih
      rw [Term.simplify, ih.1, ih.2.1, foldIff_of_folded hf, hs]
    | eq a b =>
      simp only [Term.operands, List.forall_mem_cons] at ih
      rw [Term.simplify, ih.1, ih.2.1, foldEq, if_neg hf, hs]
    | arith o a b =>
      simp only [Term.operands, List.forall_mem_cons] at ih
      rw [Term.simplify, ih.1, ih.2.1, foldArith_of_folded hf, hs]
    | compare o a b =>
      simp only [Term.operands, List.forall_mem_cons] at ih
      rw [Term.simplify, ih.1, ih.2.1, hs]
    | ite c a b =>
      simp only [Term.operands, List.forall_mem_cons] at ih
      rw [Term.simplify, ih.1, ih.2.1, ih.2.2.1, foldIte_of_folded hf, hs]

theorem simplify_eq_self_iff : simplify t = t ↔ t.Normal := by
  constructor
  · intro h
    rw [← h]
    exact normal_simplify t
  · exact Normal.simplify

/-- What has a value keeps it, wherever its constants get theirs, and is that value when it has
no constants. -/
theorem simplify_keeps_value (h : t.eval env = some v) :
    (simplify t).eval env = some v ∧ (t.isGround = true → simplify t = v.toTerm) := by
  apply And.intro (eval_simplify t h)
  intro hg
  apply simplify_ground hg
  have hsame : t.eval env = t.evalGround := by
    apply eval_congr
    intro x hx
    exact absurd hx (isGround_iff.1 hg ▸ List.not_mem_nil)
  rwa [← hsame]

/-- A quotient by zero that nothing reaches, under a conjunction nested in another. -/
theorem simplify_keeps_value_unreached :
    let t : Term := .and [.not (.not (.const "p")), .and [.implies (.const "p") (.bool true),
      .ite (.const "p") (.eq (.arith .mul (.int 1) (.const "x")) (.int 3))
        (.eq (.arith .div (.int 1) (.int 0)) (.const "x"))]]
    let env : Environment := fun x => if x = "p" then some (.bool true) else some (.int 3)
    t.eval env = some (.bool true) ∧ (simplify t).eval env = some (.bool true) :=
  have h := by rfl
  ⟨h, (simplify_keeps_value h).1⟩

/-- Simplifying twice is simplifying once, and whatever has a value of its own, however deep in
a simplified term, is that value. -/
theorem simplify_stable (t : Term) :
    simplify (simplify t) = simplify t ∧
      ∀ u v, (simplify t).Contains u → u.isGround = true → u.evalGround = some v →
        u = v.toTerm := by
  apply And.intro (normal_simplify t).simplify
  intro u v hu hg hv
  exact ((normal_simplify t).contains hu).reduced.literal hg hv

/-- The product has a value; the quotient has none, and stays without constants though it is. -/
theorem simplify_stable_quotient :
    let quotient : Term := .arith .div (.int 1) (.int 0)
    let t : Term := .arith .add quotient (.arith .mul (.int 2) (.int 3))
    simplify t = .arith .add quotient (.int 6) ∧ simplify (simplify t) = simplify t ∧
      (simplify t).Contains (.int 6) ∧ (Term.int 6).isGround = true ∧
        (Term.int 6).evalGround = some (.int 6) ∧ Term.int 6 = (Value.int 6).toTerm := by
  intro quotient t
  have hsum : simplify t = .arith .add quotient (.int 6) := rfl
  have hsix : (simplify t).Contains (.int 6) := by
    rw [hsum]
    exact .single (by simp [operands])
  obtain ⟨hstable, hliteral⟩ := simplify_stable t
  exact ⟨hsum, hstable, hsix, rfl, rfl, hliteral _ (.int 6) hsix rfl rfl⟩

end Consistency.Term
