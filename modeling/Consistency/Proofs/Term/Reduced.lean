import Consistency.Proofs.Term.Simplify

/-!
# What simplification leaves

In a simplified term no negation stands on a negation, conjunctions and
disjunctions have two operands at least and are not nested, and nothing that
has a value by itself is left but that value.
-/

set_option autoImplicit false

namespace Consistency

inductive Junction where
  | conj | disj

namespace Junction

def wrap : Junction → List Term → Term
  | .conj => .and
  | .disj => .or

def absorbing : Junction → Bool
  | .conj => false
  | .disj => true

def parts : Junction → Term → List Term
  | .conj => Term.conjuncts
  | .disj => Term.disjuncts

def make : Junction → List Term → Term
  | .conj => Term.mkAnd
  | .disj => Term.mkOr

structure Operand (j : Junction) (t : Term) : Prop where
  bool : ∀ b, t ≠ .bool b
  wrap : ∀ ts, t ≠ j.wrap ts

variable {j : Junction} {t : Term} {ts : List Term} {v : Value} {env : Environment}

theorem make_eq (j : Junction) (ts : List Term) : j.make ts =
    if ts.contains (.bool j.absorbing) then .bool j.absorbing
    else match ts.flatMap j.parts with
      | [] => .bool !j.absorbing
      | [t] => t
      | ks => j.wrap ks := by
  cases j <;> rfl

theorem parts_unit (j : Junction) : j.parts (.bool !j.absorbing) = [] := by
  cases j <;> rfl

theorem parts_wrap (j : Junction) (ts : List Term) : j.parts (j.wrap ts) = ts := by
  cases j <;> rfl

/-- An operand is left out, spread out or kept. -/
theorem parts_cases (j : Junction) (t : Term) : (t = .bool !j.absorbing ∧ j.parts t = []) ∨
    (∃ ts, t = j.wrap ts ∧ j.parts t = ts) ∨
      (t ≠ .bool !j.absorbing ∧ (∀ ts, t ≠ j.wrap ts) ∧ j.parts t = [t]) := by
  by_cases hunit : t = .bool !j.absorbing
  · exact .inl ⟨hunit, hunit ▸ j.parts_unit⟩
  · by_cases hwrap : ∃ ts, t = j.wrap ts
    · obtain ⟨ts, rfl⟩ := hwrap
      exact .inr (.inl ⟨ts, rfl, j.parts_wrap ts⟩)
    · rw [not_exists] at hwrap
      refine .inr (.inr ⟨hunit, hwrap, ?_⟩)
      cases j with
      | conj =>
        show Term.conjuncts t = [t]
        unfold Term.conjuncts
        split
        · exact absurd rfl hunit
        · exact absurd rfl (hwrap _)
        · rfl
      | disj =>
        show Term.disjuncts t = [t]
        unfold Term.disjuncts
        split
        · exact absurd rfl hunit
        · exact absurd rfl (hwrap _)
        · rfl

theorem parts_operand (h : j.Operand t) : j.parts t = [t] := by
  rcases j.parts_cases t with ⟨rfl, -⟩ | ⟨ts, rfl, -⟩ | ⟨-, -, h⟩
  · exact absurd rfl (h.bool _)
  · exact absurd rfl (h.wrap ts)
  · exact h

theorem consts_wrap (j : Junction) (ts : List Term) : (j.wrap ts).consts = Term.constsOf ts := by
  cases j <;> rfl

/-- All operands need values. -/
theorem decides_of_wrap (h : (j.wrap ts).eval env = some v) (ht : t ∈ ts) :
    ∃ b, t.Decides env b := by
  cases j with
  | conj =>
    obtain ⟨bs, hbs, -⟩ := Term.eval_and.1 h
    obtain ⟨b, -, hb⟩ := forall₂_mem_left hbs ht
    exact ⟨b, hb⟩
  | disj =>
    obtain ⟨bs, hbs, -⟩ := Term.eval_or.1 h
    obtain ⟨b, -, hb⟩ := forall₂_mem_left hbs ht
    exact ⟨b, hb⟩

end Junction

namespace Term
variable {j : Junction} {t : Term} {ts : List Term} {v : Value}

def Plain : Term → Prop
  | .not t => (∀ b, t ≠ .bool b) ∧ ∀ u, t ≠ .not u
  | .neg t => ∀ u, t ≠ .neg u
  | .and ts => 2 ≤ ts.length ∧ ∀ t ∈ ts, Junction.conj.Operand t
  | .or ts => 2 ≤ ts.length ∧ ∀ t ∈ ts, Junction.disj.Operand t
  | _ => True

def kept : Term → List Term
  | .not t | .neg t => [t]
  | .and ts | .or ts => ts
  | _ => []

inductive Reduced : Term → Prop where
  | intro {t : Term} : settle t = t → Plain t → (∀ u ∈ t.kept, Reduced u) → Reduced t

theorem Reduced.settle (h : t.Reduced) : settle t = t := by
  cases h
  assumption

theorem Reduced.plain (h : t.Reduced) : t.Plain := by
  cases h
  assumption

theorem Reduced.kept (h : t.Reduced) : ∀ u ∈ t.kept, u.Reduced := by
  cases h
  assumption

theorem settle_eq (hg : t.isGround = true) (hv : t.evalGround = some v) : settle t = v.toTerm := by
  rw [Term.settle, if_pos hg, hv]
  rfl

theorem settle_cases (t : Term) : settle t = t ∨
    ∃ v, t.isGround = true ∧ t.evalGround = some v ∧ settle t = v.toTerm := by
  by_cases hg : t.isGround = true
  · cases hv : t.evalGround with
    | none => exact .inl (by rw [Term.settle, if_pos hg, hv]; rfl)
    | some v => exact .inr ⟨v, hg, rfl, settle_eq hg hv⟩
  · exact .inl (if_neg hg)

theorem reduced_toTerm (v : Value) : v.toTerm.Reduced := by
  cases v <;> exact .intro rfl trivial (by simp [Value.toTerm, Term.kept])

theorem reduced_bool (b : Bool) : (Term.bool b).Reduced := reduced_toTerm (.bool b)

/-- A reduced term with a value of its own is that value. -/
theorem Reduced.literal (h : t.Reduced) (hg : t.isGround = true) (hv : t.evalGround = some v) :
    t = v.toTerm := h.settle.symm.trans (settle_eq hg hv)

theorem isGround_iff : t.isGround = true ↔ t.consts = [] := List.isEmpty_iff

/-- A term is settled if it has no value of its own or is a value. -/
theorem settle_eq_self (h : ∀ v, t.isGround = true → t.evalGround = some v → t = v.toTerm) :
    Term.settle t = t := by
  rcases settle_cases t with hs | ⟨v, hg, hv, hs⟩
  · exact hs
  · exact hs.trans (h v hg hv).symm

theorem settle_not (h : t.Reduced) (hb : ∀ b, t ≠ .bool b) : Term.settle (.not t) = .not t := by
  refine settle_eq_self fun v hg hv => ?_
  obtain ⟨b, hd, -⟩ := eval_not.1 hv
  exact absurd (h.literal hg hd) (hb b)

theorem settle_neg (h : t.Reduced) (hi : ∀ n, t ≠ .int n) : Term.settle (.neg t) = .neg t := by
  refine settle_eq_self fun v hg hv => ?_
  obtain ⟨n, k, hn, -, -⟩ := eval_neg.1 hv
  exact absurd (h.literal hg hn) (hi n)

theorem reduced_mkNot (h : t.Reduced) : (mkNot t).Reduced := by
  unfold mkNot
  split
  · exact reduced_bool _
  · exact h.kept _ (List.mem_singleton_self _)
  · next hb hn => exact .intro (settle_not h hb) ⟨hb, hn⟩ (List.forall_mem_singleton.2 h)

theorem mkNot_of_plain (h : (Term.not t).Plain) : mkNot t = .not t := by
  unfold mkNot
  split
  · exact absurd rfl (h.1 _)
  · exact absurd rfl (h.2 _)
  · rfl

theorem foldNeg_of_plain (h : (Term.neg t).Plain) : foldNeg t = .neg t := by
  unfold foldNeg
  split
  · exact absurd rfl (h _)
  · rfl

theorem plain_wrap : (j.wrap ts).Plain ↔ 2 ≤ ts.length ∧ ∀ t ∈ ts, j.Operand t := by
  cases j <;> rfl

theorem kept_wrap (j : Junction) (ts : List Term) : (j.wrap ts).kept = ts := by
  cases j <;> rfl

/-- If a conjunction had a value, its operands would be values. -/
theorem settle_wrap (h : ∀ t ∈ ts, t.Reduced) (hp : (j.wrap ts).Plain) :
    Term.settle (j.wrap ts) = j.wrap ts := by
  obtain ⟨hlength, hoperands⟩ := plain_wrap.1 hp
  refine settle_eq_self fun v hg hv => ?_
  obtain ⟨t, rest, rfl⟩ := List.exists_cons_of_length_pos (Nat.lt_of_lt_of_le Nat.two_pos hlength)
  rw [isGround_iff, j.consts_wrap, constsOf, List.append_eq_nil_iff] at hg
  obtain ⟨b, hb⟩ := Junction.decides_of_wrap hv List.mem_cons_self
  have hlit := (h t List.mem_cons_self).literal (isGround_iff.2 hg.1) hb
  exact absurd hlit ((hoperands t List.mem_cons_self).bool b)

theorem reduced_wrap (h : ∀ t ∈ ts, t.Reduced) (hp : (j.wrap ts).Plain) : (j.wrap ts).Reduced :=
  .intro (settle_wrap h hp) hp (by rwa [kept_wrap])

/-- What a reduced operand contributes. -/
theorem Reduced.parts (h : t.Reduced) (ha : t ≠ .bool j.absorbing) :
    ∀ u ∈ j.parts t, u.Reduced ∧ j.Operand u := by
  rcases j.parts_cases t with ⟨-, hparts⟩ | ⟨ts, rfl, hparts⟩ | ⟨hunit, hwrap, hparts⟩
  · simp [hparts]
  · rw [hparts]
    have hkept := h.kept
    rw [kept_wrap] at hkept
    exact fun u hu => ⟨hkept u hu, (plain_wrap.1 h.plain).2 u hu⟩
  · rw [hparts]
    refine List.forall_mem_singleton.2 ⟨h, fun b hb => ?_, hwrap⟩
    by_cases hb' : b = j.absorbing
    · exact ha (hb' ▸ hb)
    · exact hunit (Bool.eq_not.2 hb' ▸ hb)

theorem parts_of_reduced (h : ∀ t ∈ ts, t.Reduced) (ha : Term.bool j.absorbing ∉ ts) :
    ∀ u ∈ ts.flatMap j.parts, u.Reduced ∧ j.Operand u := by
  intro u hu
  obtain ⟨t, ht, hut⟩ := List.mem_flatMap.1 hu
  exact (h t ht).parts (fun he => ha (he ▸ ht)) u hut

theorem make_absorbing (h : Term.bool j.absorbing ∈ ts) : j.make ts = .bool j.absorbing := by
  rw [j.make_eq, if_pos (List.contains_iff_mem.2 h)]

/-- If no operand decides alone, the operands are spread out. -/
theorem make_cases (h : Term.bool j.absorbing ∉ ts) :
    (ts.flatMap j.parts = [] ∧ j.make ts = .bool !j.absorbing) ∨
    (∃ t, ts.flatMap j.parts = [t] ∧ j.make ts = t) ∨
      (2 ≤ (ts.flatMap j.parts).length ∧ j.make ts = j.wrap (ts.flatMap j.parts)) := by
  have hnot : ¬ ts.contains (.bool j.absorbing) = true := by rwa [List.contains_iff_mem]
  rw [j.make_eq, if_neg hnot]
  rcases ts.flatMap j.parts with _ | ⟨t, _ | ⟨u, rest⟩⟩
  · exact .inl ⟨rfl, rfl⟩
  · exact .inr (.inl ⟨t, rfl, rfl⟩)
  · exact .inr (.inr ⟨by simp, rfl⟩)

theorem make_of_plain (h : (j.wrap ts).Plain) : j.make ts = j.wrap ts := by
  obtain ⟨hlength, hoperands⟩ := plain_wrap.1 h
  have hspread : ts.flatMap j.parts = ts := by
    rw [List.flatMap_congr fun t ht => Junction.parts_operand (hoperands t ht)]
    exact List.flatMap_singleton' ts
  have ha : Term.bool j.absorbing ∉ ts := fun ha => (hoperands _ ha).bool _ rfl
  rcases make_cases ha with ⟨hnil, -⟩ | ⟨t, hone, -⟩ | ⟨-, hmake⟩
  · rw [← hspread, hnil] at hlength
    exact absurd hlength (by simp)
  · rw [← hspread, hone] at hlength
    exact absurd hlength (by simp)
  · rwa [hspread] at hmake

theorem reduced_make (h : ∀ t ∈ ts, t.Reduced) : (j.make ts).Reduced := by
  by_cases ha : Term.bool j.absorbing ∈ ts
  · rw [make_absorbing ha]
    exact reduced_bool _
  · have hks := parts_of_reduced h ha
    rcases make_cases ha with ⟨-, hmake⟩ | ⟨u, hone, hmake⟩ | ⟨hlength, hmake⟩
    · rw [hmake]
      exact reduced_bool _
    · rw [hmake]
      exact (hks u (hone ▸ List.mem_singleton_self u)).1
    · rw [hmake]
      apply reduced_wrap
      · exact fun u hu => (hks u hu).1
      · exact plain_wrap.2 ⟨hlength, fun u hu => (hks u hu).2⟩

end Term
end Consistency
