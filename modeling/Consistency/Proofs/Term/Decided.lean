import Consistency.Proofs.Term.Confluence
import Consistency.Proofs.Term.Domain

/-!
# Terms that have values

Operations are strict in their operands, apart from those that a condition or a
premise leaves out. Operands of a folded conjunction or disjunction have values
if the whole has one, unless one of them decides alone.
-/

set_option autoImplicit false

namespace Consistency

namespace Term

def Decided (env : Environment) (t : Term) : Prop := ∃ b, t.Decides env b

def Computed (env : Environment) (t : Term) : Prop := ∃ n, t.Computes env n

variable {env : Environment} {a b t : Term} {ts : List Term}

theorem decided_all (h : ∀ t ∈ ts, t.Decided env) :
    ∃ bs, List.Forall₂ (Decides env) ts bs := by
  induction ts with
  | nil => exact ⟨[], .nil⟩
  | cons t ts ih =>
    obtain ⟨b, hb⟩ := h t (by simp)
    obtain ⟨bs, hbs⟩ := ih fun u hu => h u (List.mem_cons_of_mem _ hu)
    exact ⟨b :: bs, .cons hb hbs⟩

theorem Decided.not (h : t.Decided env) : (Term.not t).Decided env := by
  obtain ⟨b, hb⟩ := h
  exact ⟨_, eval_not.2 ⟨b, hb, rfl⟩⟩

theorem decided_and (h : ∀ t ∈ ts, t.Decided env) : (Term.and ts).Decided env := by
  obtain ⟨bs, hbs⟩ := decided_all h
  exact ⟨_, eval_and.2 ⟨bs, hbs, rfl⟩⟩

theorem decided_or (h : ∀ t ∈ ts, t.Decided env) : (Term.or ts).Decided env := by
  obtain ⟨bs, hbs⟩ := decided_all h
  exact ⟨_, eval_or.2 ⟨bs, hbs, rfl⟩⟩

theorem Decided.implies (ha : a.Decided env) (hb : b.Decided env) :
    (Term.implies a b).Decided env := by
  obtain ⟨x, hx⟩ := ha
  obtain ⟨y, hy⟩ := hb
  cases x with
  | true => exact ⟨_, eval_implies.2 (.inr ⟨hx, y, hy, rfl⟩)⟩
  | false => exact ⟨_, eval_implies.2 (.inl ⟨hx, rfl⟩)⟩

theorem Decided.iff (ha : a.Decided env) (hb : b.Decided env) : (Term.iff a b).Decided env := by
  obtain ⟨x, hx⟩ := ha
  obtain ⟨y, hy⟩ := hb
  exact ⟨_, eval_iff.2 ⟨x, y, hx, hy, rfl⟩⟩

theorem Decided.eq (ha : a.Decided env) (hb : b.Decided env) : (Term.eq a b).Decided env := by
  obtain ⟨x, hx⟩ := ha
  obtain ⟨y, hy⟩ := hb
  exact ⟨_, eval_eq.2 ⟨_, _, _, hx, hy, rfl, rfl⟩⟩

theorem Computed.eq (ha : a.Computed env) (hb : b.Computed env) : (Term.eq a b).Decided env := by
  obtain ⟨x, hx⟩ := ha
  obtain ⟨y, hy⟩ := hb
  exact ⟨_, eval_eq.2 ⟨_, _, _, hx, hy, rfl, rfl⟩⟩

theorem Computed.compare (o : CompareOp) (ha : a.Computed env) (hb : b.Computed env) :
    (Term.compare o a b).Decided env := by
  obtain ⟨x, hx⟩ := ha
  obtain ⟨y, hy⟩ := hb
  exact ⟨_, eval_compare.2 ⟨x, y, hx, hy, rfl⟩⟩

theorem Decided.ite {d : Term} (hd : d.Decided env) (ha : a.Decided env) (hb : b.Decided env) :
    (Term.ite d a b).Decided env := by
  obtain ⟨x, hx⟩ := hd
  obtain ⟨y, hy⟩ := ha
  obtain ⟨z, hz⟩ := hb
  cases x with
  | true => exact ⟨y, eval_ite.2 (.inl ⟨hx, hy⟩)⟩
  | false => exact ⟨z, eval_ite.2 (.inr ⟨hx, hz⟩)⟩

theorem Decided.computed_ite {d : Term} (hd : d.Decided env) (ha : a.Computed env)
    (hb : b.Computed env) : (Term.ite d a b).Computed env := by
  obtain ⟨x, hx⟩ := hd
  obtain ⟨m, hm⟩ := ha
  obtain ⟨n, hn⟩ := hb
  cases x with
  | true => exact ⟨m, eval_ite.2 (.inl ⟨hx, hm⟩)⟩
  | false => exact ⟨n, eval_ite.2 (.inr ⟨hx, hn⟩)⟩

/-- Sides of an equation that has a value have values. -/
theorem Decided.sides (h : (Term.eq a b).Decided env) :
    (∃ x, a.eval env = some x) ∧ ∃ y, b.eval env = some y := by
  obtain ⟨_, h⟩ := h
  obtain ⟨x, y, _, hx, hy, -, -⟩ := eval_eq.1 h
  exact ⟨⟨x, hx⟩, y, hy⟩

theorem decided_distinct (h : ∀ t ∈ ts, ∃ x, t.eval env = some x) :
    (Term.distinct ts).Decided env := by
  have hall : ∃ xs, List.Forall₂ (fun t x => t.eval env = some x) ts xs := by
    induction ts with
    | nil => exact ⟨[], .nil⟩
    | cons t ts ih =>
      obtain ⟨x, hx⟩ := h t (by simp)
      obtain ⟨xs, hxs⟩ := ih fun u hu => h u (List.mem_cons_of_mem _ hu)
      exact ⟨x :: xs, .cons hx hxs⟩
  obtain ⟨xs, hxs⟩ := hall
  exact ⟨_, eval_distinct.2 ⟨xs, hxs, rfl⟩⟩

theorem decided_of_parts {j : Junction} (h : ∀ u ∈ j.parts t, u.Decided env) : t.Decided env := by
  rcases j.parts_cases t with ⟨rfl, -⟩ | ⟨ts, rfl, hparts⟩ | ⟨-, -, hparts⟩
  · exact ⟨_, rfl⟩
  · rw [hparts] at h
    cases j with
    | conj => exact decided_and h
    | disj => exact decided_or h
  · exact h t (by simp [hparts])

theorem decided_of_make {j : Junction} (h : (j.make ts).Decided env)
    (ha : Term.bool j.absorbing ∉ ts) (ht : t ∈ ts) : t.Decided env := by
  refine decided_of_parts (j := j) fun u hu => ?_
  have hmem : u ∈ ts.flatMap j.parts := List.mem_flatMap.2 ⟨t, ht, hu⟩
  rcases make_cases ha with ⟨hks, -⟩ | ⟨s, hks, hmake⟩ | ⟨-, hmake⟩
  · rw [hks] at hmem
    exact absurd hmem List.not_mem_nil
  · rw [hks, List.mem_singleton] at hmem
    rwa [hmem, ← hmake]
  · rw [hmake] at h
    obtain ⟨b, hb⟩ := h
    exact Junction.decides_of_wrap hb hmem

theorem decided_of_mkAnd (h : (mkAnd ts).Decided env) (ha : Term.bool false ∉ ts) (ht : t ∈ ts) :
    t.Decided env := decided_of_make (j := .conj) h ha ht

/-- A disjunct that is true makes a disjunction true that has a value at all. -/
theorem decides_mkOr (h : (mkOr ts).Decided env) (ht : t ∈ ts)
    (htrue : t.Decided env → t.Decides env true) : (mkOr ts).Decides env true := by
  by_cases ha : Term.bool true ∈ ts
  · rw [show mkOr ts = .bool true from make_absorbing (j := .disj) ha]
    rfl
  · have hall : ∀ u ∈ ts, u.Decided env := fun u hu => decided_of_make (j := .disj) h ha hu
    obtain ⟨bs, hbs⟩ := decided_all hall
    obtain ⟨b, hb, hbt⟩ := forall₂_mem_left hbs ht
    obtain rfl : b = true := by
      have hboth := (htrue (hall t ht)).symm.trans hbt
      exact (Value.bool.inj (Option.some.inj hboth)).symm
    refine eval_mkOr (eval_or.2 ⟨bs, hbs, congrArg Value.bool ?_⟩)
    exact (List.any_eq_true.2 ⟨true, hb, rfl⟩).symm

/-- A disjunction is true only if a disjunct is. -/
theorem exists_of_mkOr (h : (mkOr ts).Decides env true) : ∃ t ∈ ts, t.Decides env true := by
  by_cases ha : Term.bool true ∈ ts
  · exact ⟨_, ha, rfl⟩
  · obtain ⟨bs, hbs⟩ := decided_all fun t ht => decided_of_make (j := .disj) ⟨true, h⟩ ha ht
    have hvalue := h.symm.trans (eval_mkOr (eval_or.2 ⟨bs, hbs, rfl⟩))
    obtain ⟨b, hb, rfl⟩ := List.any_eq_true.1 (Value.bool.inj (Option.some.inj hvalue)).symm
    exact forall₂_mem_right hbs hb

/-- All conjuncts of a true conjunction are true. -/
theorem forall_of_mkAnd (h : (mkAnd ts).Decides env true) (ht : t ∈ ts) : t.Decides env true := by
  have ha : Term.bool false ∉ ts := by
    intro ha
    rw [show mkAnd ts = .bool false from make_absorbing (j := .conj) ha] at h
    exact absurd (decides_bool.1 h) (by decide)
  obtain ⟨bs, hbs⟩ := decided_all fun t ht => decided_of_mkAnd ⟨true, h⟩ ha ht
  have hvalue := h.symm.trans (eval_mkAnd (eval_and.2 ⟨bs, hbs, rfl⟩))
  obtain ⟨b, hb, hbt⟩ := forall₂_mem_left hbs ht
  obtain rfl := List.all_eq_true.1 (Value.bool.inj (Option.some.inj hvalue)).symm b hb
  exact hbt

theorem equation?_decided {x : String} {m n : Int} (h : t.equation? = some (x, m))
    (hx : env x = some (.int n)) : t.Decided env := by
  have hconst : (Term.const x).Computed env := ⟨n, hx⟩
  unfold equation? at h
  split at h
  · obtain ⟨rfl, rfl⟩ := Prod.mk.inj (Option.some.inj h)
    exact hconst.eq ⟨_, rfl⟩
  · obtain ⟨rfl, rfl⟩ := Prod.mk.inj (Option.some.inj h)
    exact Computed.eq ⟨_, rfl⟩ hconst
  · exact absurd h (by simp)

/-- What states a domain has a value as soon as the constant has one. -/
theorem domain?_decided {x : String} {values : List Int} {n : Int}
    (h : t.domain? = some (x, values)) (hx : env x = some (.int n)) : t.Decided env := by
  unfold domain? at h
  split at h
  · exact absurd h (by simp)
  · next p ps =>
    simp only [Option.bind_eq_bind, Option.bind_eq_some_iff] at h
    obtain ⟨⟨y, m⟩, hp, rest, hps, h⟩ := h
    split at h
    · next hall =>
      obtain ⟨rfl, rfl⟩ := Prod.mk.inj (Option.some.inj h)
      refine decided_or (List.forall_mem_cons.2 ⟨equation?_decided hp hx, fun q hq => ?_⟩)
      obtain ⟨⟨z, k⟩, hd, hqd⟩ := forall₂_mem_left (mapM_eq_some.1 hps) hq
      obtain rfl : z = y := by simpa using List.all_eq_true.1 hall _ hd
      exact equation?_decided hqd hx
    · exact absurd h (by simp)
  · obtain ⟨⟨y, m⟩, hp, h⟩ := Option.map_eq_some_iff.1 h
    obtain ⟨rfl, rfl⟩ := Prod.mk.inj h
    exact equation?_decided hp hx

theorem oneOf_cases (x : String) (v w : Int) (values : List Int) :
    oneOf x [] = .bool false ∧ oneOf x [v] = .eq (.const x) (.int v) ∧
      oneOf x (v :: w :: values) =
        .or ((v :: w :: values).map fun n => .eq (.const x) (.int n)) := by
  refine ⟨rfl, rfl, ?_⟩
  have hno : Term.bool true ∉ (v :: w :: values).map fun n => Term.eq (.const x) (.int n) := by
    simp
  have hparts : ((v :: w :: values).map fun n => Term.eq (.const x) (.int n)).flatMap disjuncts =
      (v :: w :: values).map fun n => .eq (.const x) (.int n) := by
    rw [List.flatMap_map]
    exact (List.map_eq_flatMap ..).symm
  rcases make_cases (j := .disj) hno with ⟨hks, -⟩ | ⟨s, hks, -⟩ | ⟨-, hmake⟩
  · exact absurd (hparts.symm.trans hks) (by simp)
  · exact absurd (hparts.symm.trans hks) (by simp)
  · exact hmake.trans (congrArg Term.or hparts)

theorem oneOf_ne_true (x : String) (values : List Int) : oneOf x values ≠ .bool true := by
  rcases values with _ | ⟨v, _ | ⟨w, rest⟩⟩
  · exact fun h => absurd (Term.bool.inj h) (by decide)
  · exact Term.noConfusion
  · rw [(oneOf_cases x v w rest).2.2]
    exact Term.noConfusion

/-- A term that states values that there are. -/
theorem domain?_oneOf {x : String} {values : List Int} (hne : values ≠ []) :
    (oneOf x values).domain? = some (x, values) := by
  rcases values with _ | ⟨v, _ | ⟨w, rest⟩⟩
  · exact absurd rfl hne
  · rfl
  · rw [(oneOf_cases x v w rest).2.2, List.map_cons, domain?]
    have hall : ((w :: rest).map fun n => Term.eq (.const x) (.int n)).mapM equation? =
        some ((w :: rest).map fun n => (x, n)) := by
      rw [mapM_eq_some]
      exact List.forall₂_map_left_iff.2 (List.forall₂_map_right_iff.2 (List.forall₂_same.2
        fun _ _ => rfl))
    rw [hall]
    simp [equation?, Function.comp_def]

end Term
end Consistency
