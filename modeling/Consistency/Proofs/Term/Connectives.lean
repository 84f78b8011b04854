import Consistency.Proofs.Term.Eval
import Consistency.Term.Domain

/-!
# Connectives that fold

The functions that make negations, conjunctions, disjunctions and implications
drop what does not matter. The value of the plain operator, where there is one,
is kept, and no constant comes in.
-/

set_option autoImplicit false

namespace Consistency.Term
variable {env : Environment} {s t : Term} {ts : List Term} {b : Bool} {v : Value}

theorem decides_bool {a b : Bool} : (Term.bool a).Decides env b ↔ a = b := by
  simp [Decides, eval]

theorem eval_mkNot (h : (Term.not t).eval env = some v) : (mkNot t).eval env = some v := by
  unfold mkNot
  split
  · next a =>
    obtain ⟨b, hb, rfl⟩ := eval_not.1 h
    obtain rfl := decides_bool.1 hb
    rfl
  · next u =>
    obtain ⟨b, hb, rfl⟩ := eval_not.1 h
    obtain ⟨d, hd, he⟩ := eval_not.1 hb
    obtain rfl := Value.bool.inj he
    rw [Bool.not_not]
    exact hd
  · exact h

theorem decides_conjuncts (h : t.Decides env b) :
    ∃ bs, List.Forall₂ (Decides env) (conjuncts t) bs ∧ bs.all id = b := by
  unfold conjuncts
  split
  · obtain rfl := decides_bool.1 h
    exact ⟨[], .nil, rfl⟩
  · obtain ⟨bs, hbs, hv⟩ := eval_and.1 h
    exact ⟨bs, hbs, (Value.bool.inj hv).symm⟩
  · exact ⟨[b], .cons h .nil, by simp⟩

theorem decides_flatMap_conjuncts {bs : List Bool} (h : List.Forall₂ (Decides env) ts bs) :
    ∃ cs, List.Forall₂ (Decides env) (ts.flatMap conjuncts) cs ∧ cs.all id = bs.all id := by
  induction h with
  | nil => exact ⟨[], .nil, rfl⟩
  | cons ht _ ih =>
    obtain ⟨cs, hcs, hall⟩ := ih
    obtain ⟨ds, hds, hd⟩ := decides_conjuncts ht
    exact ⟨ds ++ cs, List.rel_append hds hcs, by simp [List.all_append, hall, hd]⟩

theorem eval_mkAnd (h : (Term.and ts).eval env = some v) : (mkAnd ts).eval env = some v := by
  obtain ⟨bs, hbs, rfl⟩ := eval_and.1 h
  obtain ⟨cs, hcs, hall⟩ := decides_flatMap_conjuncts hbs
  unfold mkAnd
  split
  · next hf =>
    obtain ⟨b, hb, hd⟩ := forall₂_mem_left hbs (List.contains_iff_mem.1 hf)
    obtain rfl := decides_bool.1 hd
    have : bs.all id = false := List.all_eq_false.2 ⟨false, hb, by simp⟩
    rw [this]
    rfl
  · rw [← hall]
    split
    · next hnil =>
      rw [hnil] at hcs
      cases hcs
      rfl
    · next u hone =>
      rw [hone] at hcs
      rcases hcs with _ | ⟨hu, _ | _⟩
      simpa [Decides] using hu
    · exact eval_and.2 ⟨cs, hcs, rfl⟩

theorem decides_disjuncts (h : t.Decides env b) :
    ∃ bs, List.Forall₂ (Decides env) (disjuncts t) bs ∧ bs.any id = b := by
  unfold disjuncts
  split
  · obtain rfl := decides_bool.1 h
    exact ⟨[], .nil, rfl⟩
  · obtain ⟨bs, hbs, hv⟩ := eval_or.1 h
    exact ⟨bs, hbs, (Value.bool.inj hv).symm⟩
  · exact ⟨[b], .cons h .nil, by simp⟩

theorem decides_flatMap_disjuncts {bs : List Bool} (h : List.Forall₂ (Decides env) ts bs) :
    ∃ cs, List.Forall₂ (Decides env) (ts.flatMap disjuncts) cs ∧ cs.any id = bs.any id := by
  induction h with
  | nil => exact ⟨[], .nil, rfl⟩
  | cons ht _ ih =>
    obtain ⟨cs, hcs, hany⟩ := ih
    obtain ⟨ds, hds, hd⟩ := decides_disjuncts ht
    exact ⟨ds ++ cs, List.rel_append hds hcs, by simp [List.any_append, hany, hd]⟩

theorem eval_mkOr (h : (Term.or ts).eval env = some v) : (mkOr ts).eval env = some v := by
  obtain ⟨bs, hbs, rfl⟩ := eval_or.1 h
  obtain ⟨cs, hcs, hany⟩ := decides_flatMap_disjuncts hbs
  unfold mkOr
  split
  · next ht =>
    obtain ⟨b, hb, hd⟩ := forall₂_mem_left hbs (List.contains_iff_mem.1 ht)
    obtain rfl := decides_bool.1 hd
    have : bs.any id = true := List.any_eq_true.2 ⟨true, hb, rfl⟩
    rw [this]
    rfl
  · rw [← hany]
    split
    · next hnil =>
      rw [hnil] at hcs
      cases hcs
      rfl
    · next u hone =>
      rw [hone] at hcs
      rcases hcs with _ | ⟨hu, _ | _⟩
      simpa [Decides] using hu
    · exact eval_or.2 ⟨cs, hcs, rfl⟩

theorem eval_mkImplies (h : (Term.implies s t).eval env = some v) :
    (mkImplies s t).eval env = some v := by
  unfold mkImplies
  rcases eval_implies.1 h with ⟨hs, rfl⟩ | ⟨hs, q, hq, rfl⟩
  all_goals split
  · rfl
  · rfl
  · exact absurd (decides_bool.1 hs) (by decide)
  · exact eval_mkNot (eval_not.2 ⟨false, hs, rfl⟩)
  · exact h
  · exact absurd (decides_bool.1 hs) (by decide)
  · obtain rfl := decides_bool.1 hq
    rfl
  · exact hq
  · obtain rfl := decides_bool.1 hq
    exact eval_mkNot (eval_not.2 ⟨true, hs, rfl⟩)
  · exact h

def Tells (env : Environment) (t : Term) (p : Prop) : Prop :=
  ∃ b, t.Decides env b ∧ (b = true ↔ p)

theorem Tells.congr {p q : Prop} (h : t.Tells env p) (hpq : p ↔ q) : t.Tells env q := by
  obtain ⟨b, hb, hp⟩ := h
  exact ⟨b, hb, hp.trans hpq⟩

theorem Tells.decides_true {p : Prop} (h : t.Tells env p) : t.Decides env true ↔ p := by
  obtain ⟨b, hb, hp⟩ := h
  rw [← hp]
  constructor
  · intro ht
    exact Value.bool.inj (Option.some.inj (hb.symm.trans ht))
  · rintro rfl
    exact hb

theorem tells_bool (env : Environment) (b : Bool) : (Term.bool b).Tells env (b = true) :=
  ⟨b, rfl, Iff.rfl⟩

theorem Tells.mkNot {p : Prop} (h : t.Tells env p) : (mkNot t).Tells env ¬ p := by
  obtain ⟨b, hb, hp⟩ := h
  exact ⟨!b, eval_mkNot (eval_not.2 ⟨b, hb, rfl⟩), by simp [← hp]⟩

theorem forall₂_of_tells {α : Type} {f : α → Term} {P : α → Prop} {xs : List α}
    (h : ∀ a ∈ xs, (f a).Tells env (P a)) :
    ∃ bs, List.Forall₂ (Decides env) (xs.map f) bs ∧ (bs.all id = true ↔ ∀ a ∈ xs, P a) ∧
      (bs.any id = true ↔ ∃ a ∈ xs, P a) := by
  induction xs with
  | nil => exact ⟨[], .nil, by simp, by simp⟩
  | cons a xs ih =>
    obtain ⟨bs, hbs, hall, hany⟩ := ih fun b hb => h b (List.mem_cons_of_mem _ hb)
    obtain ⟨b, hb, hp⟩ := h a (by simp)
    exact ⟨b :: bs, .cons hb hbs, by simp [← hp, ← hall], by simp [← hp, ← hany]⟩

theorem tells_mkOr {α : Type} {f : α → Term} {P : α → Prop} {xs : List α}
    (h : ∀ a ∈ xs, (f a).Tells env (P a)) : (mkOr (xs.map f)).Tells env (∃ a ∈ xs, P a) := by
  obtain ⟨bs, hbs, -, hany⟩ := forall₂_of_tells h
  exact ⟨_, eval_mkOr (eval_or.2 ⟨bs, hbs, rfl⟩), hany⟩

theorem Tells.mkAnd {p q : Prop} (hs : s.Tells env p) (ht : t.Tells env q) :
    (mkAnd [s, t]).Tells env (p ∧ q) := by
  obtain ⟨b, hb, hp⟩ := hs
  obtain ⟨d, hd, hq⟩ := ht
  exact ⟨_, eval_mkAnd (eval_and.2 ⟨[b, d], .cons hb (.cons hd .nil), rfl⟩), by simp [hp, hq]⟩

theorem Tells.mkOr {p q : Prop} (hs : s.Tells env p) (ht : t.Tells env q) :
    (mkOr [s, t]).Tells env (p ∨ q) := by
  obtain ⟨b, hb, hp⟩ := hs
  obtain ⟨d, hd, hq⟩ := ht
  exact ⟨_, eval_mkOr (eval_or.2 ⟨[b, d], .cons hb (.cons hd .nil), rfl⟩), by simp [hp, hq]⟩

/-- The conclusion need not have a value unless the premise holds. -/
theorem Tells.mkImplies {p q : Prop} (hs : s.Tells env p) (ht : p → t.Tells env q) :
    (mkImplies s t).Tells env (p → q) := by
  obtain ⟨b, hb, hp⟩ := hs
  cases b with
  | false =>
    refine ⟨true, eval_mkImplies (eval_implies.2 (.inl ⟨hb, rfl⟩)), ?_⟩
    exact ⟨fun _ h => absurd (hp.2 h) (by decide), fun _ => rfl⟩
  | true =>
    obtain ⟨d, hd, hq⟩ := ht (hp.1 rfl)
    refine ⟨d, eval_mkImplies (eval_implies.2 (.inr ⟨hb, d, hd, rfl⟩)), ?_⟩
    rw [hq]
    exact ⟨fun h _ => h, fun h => h (hp.1 rfl)⟩

theorem tells_eq {m n : Int} (hs : s.Computes env m) (ht : t.Computes env n) :
    (Term.eq s t).Tells env (m = n) :=
  ⟨m == n, eval_eq.2 ⟨.int m, .int n, m == n, hs, ht, rfl, rfl⟩, beq_iff_eq⟩

theorem computes_int (env : Environment) (n : Int) : (Term.int n).Computes env n := rfl

theorem decides_eq_int {n : Int} : (Term.eq t (.int n)).Decides env true ↔ t.Computes env n := by
  constructor
  · intro h
    obtain ⟨u, w, b, hu, hw, he, hb⟩ := eval_eq.1 h
    obtain rfl := Value.bool.inj hb
    obtain rfl : u = w := by simpa using Value.eq_of_equal he
    rw [Computes, hu, ← hw]
    rfl
  · intro h
    exact (tells_eq h (computes_int env n)).decides_true.2 rfl

/-- Even if the conclusion has no value. -/
theorem decides_mkImplies {p : Prop} (hs : s.Tells env p) :
    (mkImplies s t).Decides env true ↔ (p → t.Decides env true) := by
  by_cases hp : p
  · have hst : s.Decides env true := hs.decides_true.2 hp
    have key : (mkImplies s t).Decides env true ↔ t.Decides env true := by
      constructor
      · intro h
        unfold mkImplies at h
        split at h
        · exact absurd (decides_bool.1 hst) (by decide)
        · exact decides_bool.2 rfl
        · exact h
        · have hno : (mkNot s).Decides env false := eval_mkNot (eval_not.2 ⟨true, hst, rfl⟩)
          exact absurd (Value.bool.inj (Option.some.inj (hno.symm.trans h))) (by decide)
        · rcases eval_implies.1 h with ⟨hs', -⟩ | ⟨-, b, hb, he⟩
          · exact absurd (Value.bool.inj (Option.some.inj (hs'.symm.trans hst))) (by decide)
          · obtain rfl := Value.bool.inj he
            exact hb
      · exact fun h => eval_mkImplies (eval_implies.2 (.inr ⟨hst, true, h, rfl⟩))
    simp [key, hp]
  · obtain ⟨b, hb, hpb⟩ := hs
    obtain rfl : b = false := by simpa [hp] using hpb
    have h : (mkImplies s t).Decides env true := eval_mkImplies (eval_implies.2 (.inl ⟨hb, rfl⟩))
    simp [h, hp]

/-- A conjunction with a last operand of another kind. -/
theorem tells_mkAnd_concat {α : Type} {f : α → Term} {P : α → Prop} {xs : List α} {p : Prop}
    (h : ∀ a ∈ xs, (f a).Tells env (P a)) (ht : t.Tells env p) :
    (mkAnd (xs.map f ++ [t])).Tells env ((∀ a ∈ xs, P a) ∧ p) := by
  obtain ⟨bs, hbs, hall, -⟩ := forall₂_of_tells h
  obtain ⟨b, hb, hp⟩ := ht
  refine ⟨_, eval_mkAnd (eval_and.2 ⟨bs ++ [b], List.rel_append hbs (.cons hb .nil), rfl⟩), ?_⟩
  rw [List.all_append, Bool.and_eq_true, hall, ← hp]
  simp

theorem tells_oneOf {x : String} {n : Int} {values : List Int} (h : env x = some (.int n)) :
    (oneOf x values).Tells env (n ∈ values) := by
  have hx : (Term.const x).Computes env n := h
  exact (tells_mkOr fun a _ => tells_eq hx (computes_int env a)).congr (by simp)

theorem constsOf_eq (ts : List Term) : constsOf ts = ts.flatMap consts := by
  induction ts with
  | nil => rfl
  | cons t ts ih => rw [constsOf, ih, List.flatMap_cons]

theorem consts_mkNot : (mkNot t).consts = t.consts := by
  unfold mkNot
  split <;> rfl

theorem mem_consts_mkAnd {x : String} (h : x ∈ (mkAnd ts).consts) : ∃ t ∈ ts, x ∈ t.consts := by
  have key : ∀ u ∈ ts.flatMap conjuncts, x ∈ u.consts → ∃ t ∈ ts, x ∈ t.consts := by
    intro u hu hx
    obtain ⟨t, ht, hut⟩ := List.mem_flatMap.1 hu
    refine ⟨t, ht, ?_⟩
    unfold conjuncts at hut
    split at hut
    · exact absurd hut (by simp)
    · rw [consts, constsOf_eq]
      exact List.mem_flatMap.2 ⟨u, hut, hx⟩
    · rwa [← List.mem_singleton.1 hut]
  unfold mkAnd at h
  split at h
  · exact absurd h (by simp [consts])
  · split at h
    · exact absurd h (by simp [consts])
    · next u hone => exact key u (by simp [hone]) h
    · rw [consts, constsOf_eq] at h
      obtain ⟨u, hu, hx⟩ := List.mem_flatMap.1 h
      exact key u hu hx

theorem mem_consts_mkOr {x : String} (h : x ∈ (mkOr ts).consts) : ∃ t ∈ ts, x ∈ t.consts := by
  have key : ∀ u ∈ ts.flatMap disjuncts, x ∈ u.consts → ∃ t ∈ ts, x ∈ t.consts := by
    intro u hu hx
    obtain ⟨t, ht, hut⟩ := List.mem_flatMap.1 hu
    refine ⟨t, ht, ?_⟩
    unfold disjuncts at hut
    split at hut
    · exact absurd hut (by simp)
    · rw [consts, constsOf_eq]
      exact List.mem_flatMap.2 ⟨u, hut, hx⟩
    · rwa [← List.mem_singleton.1 hut]
  unfold mkOr at h
  split at h
  · exact absurd h (by simp [consts])
  · split at h
    · exact absurd h (by simp [consts])
    · next u hone => exact key u (by simp [hone]) h
    · rw [consts, constsOf_eq] at h
      obtain ⟨u, hu, hx⟩ := List.mem_flatMap.1 h
      exact key u hu hx

theorem mem_consts_mkImplies {x : String} (h : x ∈ (mkImplies s t).consts) :
    x ∈ s.consts ∨ x ∈ t.consts := by
  unfold mkImplies at h
  split at h
  · exact absurd h (by simp [consts])
  · exact absurd h (by simp [consts])
  · exact .inr h
  · rw [consts_mkNot] at h
    exact .inl h
  · exact List.mem_append.1 h

end Consistency.Term
