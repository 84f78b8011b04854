import Consistency.Proofs.Run
import Consistency.Script
import Consistency.Term.Eval

/-!
# When a term has a value

One equivalence for each operator: a term has a value exactly if the operands
it needs have values of the right sort, from which its own is computed.
-/

set_option autoImplicit false

namespace Consistency

namespace Value

def sort : Value → ValueSort
  | .bool _ => .bool
  | .int _ => .int

theorem bool?_eq_some {v : Value} {b : Bool} : v.bool? = some b ↔ v = .bool b := by
  cases v <;> simp [bool?]

theorem int?_eq_some {v : Value} {n : Int} : v.int? = some n ↔ v = .int n := by
  cases v <;> simp [int?]

theorem equal_eq_some {u v : Value} {b : Bool} : u.equal v = some b ↔
    (∃ p q, u = .bool p ∧ v = .bool q ∧ b = (p == q)) ∨
      ∃ m n, u = .int m ∧ v = .int n ∧ b = (m == n) := by
  cases u <;> cases v <;> simp [equal, eq_comm]

theorem eq_of_equal {u v : Value} {b : Bool} (h : u.equal v = some b) : b = decide (u = v) := by
  rcases equal_eq_some.1 h with ⟨p, q, rfl, rfl, rfl⟩ | ⟨m, n, rfl, rfl, rfl⟩
  · cases p <;> cases q <;> rfl
  · by_cases h : m = n <;> simp [h]

theorem mapM_bool?_eq_some {vs : List Value} {bs : List Bool} :
    vs.mapM bool? = some bs ↔ List.Forall₂ (fun v b => v = .bool b) vs bs := by
  simp only [mapM_eq_some, bool?_eq_some]

end Value

namespace Term
variable {env : Environment} {v : Value}

def Decides (env : Environment) (t : Term) (b : Bool) : Prop := t.eval env = some (.bool b)

def Computes (env : Environment) (t : Term) (n : Int) : Prop := t.eval env = some (.int n)

-- The equations of the two functions are made here, ahead of the lemmas that all need them.
attribute [grind =] eval evalAll

theorem evalAll_eq_some {as : List Term} {vs : List Value} :
    evalAll env as = some vs ↔ List.Forall₂ (fun a v => eval env a = some v) as vs := by
  induction as generalizing vs with
  | nil => simp [evalAll, eq_comm]
  | cons a as ih =>
    simp only [evalAll, Option.bind_eq_bind, Option.bind_eq_some_iff, ih, Option.pure_def,
      Option.some.injEq, List.forall₂_cons_left_iff]
    constructor
    · rintro ⟨u, hu, us, hus, rfl⟩
      exact ⟨u, us, hu, hus, rfl⟩
    · rintro ⟨u, us, hu, hus, rfl⟩
      exact ⟨u, hu, us, hus, rfl⟩

theorem evalAll_bools {as : List Term} {bs : List Bool} :
    ((evalAll env as).bind fun vs => vs.mapM Value.bool?) = some bs ↔
      List.Forall₂ (Decides env) as bs := by
  simp only [Option.bind_eq_some_iff, evalAll_eq_some, Value.mapM_bool?_eq_some]
  constructor
  · rintro ⟨vs, has, hvs⟩
    induction has generalizing bs with
    | nil =>
      cases hvs
      exact .nil
    | cons ha _ ih =>
      rcases hvs with _ | ⟨rfl, hvs⟩
      exact .cons ha (ih hvs)
  · intro h
    refine ⟨bs.map .bool, ?_, ?_⟩
    · rw [List.forall₂_map_right_iff]
      exact h
    · rw [List.forall₂_map_left_iff, List.forall₂_same]
      exact fun _ _ => rfl

theorem eval_not {a : Term} :
    eval env (.not a) = some v ↔ ∃ b, Decides env a b ∧ v = .bool !b := by
  simp only [eval, Option.bind_eq_bind, Option.bind_eq_some_iff, Value.bool?_eq_some,
    Option.pure_def, Option.some.injEq, Decides]
  constructor
  · rintro ⟨_, h, b, rfl, rfl⟩
    exact ⟨b, h, rfl⟩
  · rintro ⟨b, h, rfl⟩
    exact ⟨_, h, b, rfl, rfl⟩

theorem eval_and {as : List Term} : eval env (.and as) = some v ↔
    ∃ bs, List.Forall₂ (Decides env) as bs ∧ v = .bool (bs.all id) := by
  simp only [← evalAll_bools, eval, Option.bind_eq_bind, Option.bind_eq_some_iff, Option.pure_def,
    Option.some.injEq]
  constructor
  · rintro ⟨vs, h, bs, hb, rfl⟩
    exact ⟨bs, ⟨vs, h, hb⟩, rfl⟩
  · rintro ⟨bs, ⟨vs, h, hb⟩, rfl⟩
    exact ⟨vs, h, bs, hb, rfl⟩

theorem eval_or {as : List Term} : eval env (.or as) = some v ↔
    ∃ bs, List.Forall₂ (Decides env) as bs ∧ v = .bool (bs.any id) := by
  simp only [← evalAll_bools, eval, Option.bind_eq_bind, Option.bind_eq_some_iff, Option.pure_def,
    Option.some.injEq]
  constructor
  · rintro ⟨vs, h, bs, hb, rfl⟩
    exact ⟨bs, ⟨vs, h, hb⟩, rfl⟩
  · rintro ⟨bs, ⟨vs, h, hb⟩, rfl⟩
    exact ⟨vs, h, bs, hb, rfl⟩

theorem eval_implies {a b : Term} : eval env (.implies a b) = some v ↔
    (Decides env a false ∧ v = .bool true) ∨
      (Decides env a true ∧ ∃ q, Decides env b q ∧ v = .bool q) := by
  simp only [eval, Option.bind_eq_bind, Option.bind_eq_some_iff, Value.bool?_eq_some,
    Option.pure_def, Decides]
  constructor
  · rintro ⟨_, h, p, rfl, hv⟩
    cases p with
    | false => exact .inl ⟨h, by simpa [eq_comm] using hv⟩
    | true =>
      simp only [if_true, Option.bind_eq_some_iff, Value.bool?_eq_some, Option.some.injEq] at hv
      obtain ⟨_, hq, q, rfl, rfl⟩ := hv
      exact .inr ⟨h, q, hq, rfl⟩
  · rintro (⟨h, rfl⟩ | ⟨h, q, hq, rfl⟩)
    · exact ⟨_, h, false, rfl, rfl⟩
    · refine ⟨_, h, true, rfl, ?_⟩
      simp only [if_true, Option.bind_eq_some_iff, Value.bool?_eq_some, Option.some.injEq]
      exact ⟨_, hq, q, rfl, rfl⟩

theorem eval_iff {a b : Term} : eval env (.iff a b) = some v ↔
    ∃ p q, Decides env a p ∧ Decides env b q ∧ v = .bool (p == q) := by
  simp only [eval, Option.bind_eq_bind, Option.bind_eq_some_iff, Value.bool?_eq_some,
    Option.pure_def, Option.some.injEq, Decides]
  constructor
  · rintro ⟨_, ha, p, rfl, _, hb, q, rfl, rfl⟩
    exact ⟨p, q, ha, hb, rfl⟩
  · rintro ⟨p, q, ha, hb, rfl⟩
    exact ⟨_, ha, p, rfl, _, hb, q, rfl, rfl⟩

theorem eval_eq {a b : Term} : eval env (.eq a b) = some v ↔
    ∃ u w p, eval env a = some u ∧ eval env b = some w ∧ u.equal w = some p ∧ v = .bool p := by
  simp only [eval, Option.bind_eq_bind, Option.bind_eq_some_iff, Option.pure_def,
    Option.some.injEq]
  constructor
  · rintro ⟨u, ha, w, hb, p, hp, rfl⟩
    exact ⟨u, w, p, ha, hb, hp, rfl⟩
  · rintro ⟨u, w, p, ha, hb, hp, rfl⟩
    exact ⟨u, ha, w, hb, p, hp, rfl⟩

theorem eval_distinct {as : List Term} : eval env (.distinct as) = some v ↔
    ∃ vs, List.Forall₂ (fun a u => eval env a = some u) as vs ∧ v = .bool (decide vs.Nodup) := by
  simp only [eval, Option.bind_eq_bind, Option.bind_eq_some_iff, evalAll_eq_some, Option.pure_def,
    Option.some.injEq]
  exact exists_congr fun vs => and_congr_right fun _ => eq_comm

theorem eval_ite {c a b : Term} : eval env (.ite c a b) = some v ↔
    (Decides env c true ∧ eval env a = some v) ∨ (Decides env c false ∧ eval env b = some v) := by
  simp only [eval, Option.bind_eq_bind, Option.bind_eq_some_iff, Value.bool?_eq_some, Decides]
  constructor
  · rintro ⟨_, h, p, rfl, hv⟩
    cases p with
    | true => exact .inl ⟨h, hv⟩
    | false => exact .inr ⟨h, hv⟩
  · rintro (⟨h, hv⟩ | ⟨h, hv⟩)
    · exact ⟨_, h, true, rfl, hv⟩
    · exact ⟨_, h, false, rfl, hv⟩

theorem eval_arith {o : ArithOp} {a b : Term} : eval env (.arith o a b) = some v ↔
    ∃ m n k, Computes env a m ∧ Computes env b n ∧ o.eval m n = some k ∧ v = .int k := by
  simp only [eval, Option.bind_eq_bind, Option.bind_eq_some_iff, Value.int?_eq_some,
    Option.pure_def, Option.some.injEq, Computes]
  constructor
  · rintro ⟨_, ha, m, rfl, _, hb, n, rfl, k, hk, rfl⟩
    exact ⟨m, n, k, ha, hb, hk, rfl⟩
  · rintro ⟨m, n, k, ha, hb, hk, rfl⟩
    exact ⟨_, ha, m, rfl, _, hb, n, rfl, k, hk, rfl⟩

theorem eval_neg {a : Term} : eval env (.neg a) = some v ↔
    ∃ n k, Computes env a n ∧ Bounded.neg n = some k ∧ v = .int k := by
  simp only [eval, Option.bind_eq_bind, Option.bind_eq_some_iff, Value.int?_eq_some,
    Option.pure_def, Option.some.injEq, Computes]
  constructor
  · rintro ⟨_, ha, n, rfl, k, hk, rfl⟩
    exact ⟨n, k, ha, hk, rfl⟩
  · rintro ⟨n, k, ha, hk, rfl⟩
    exact ⟨_, ha, n, rfl, k, hk, rfl⟩

theorem eval_compare {o : CompareOp} {a b : Term} : eval env (.compare o a b) = some v ↔
    ∃ m n, Computes env a m ∧ Computes env b n ∧ v = .bool (o.holds m n) := by
  simp only [eval, Option.bind_eq_bind, Option.bind_eq_some_iff, Value.int?_eq_some,
    Option.pure_def, Option.some.injEq, Computes]
  constructor
  · rintro ⟨_, ha, m, rfl, _, hb, n, rfl, rfl⟩
    exact ⟨m, n, ha, hb, rfl⟩
  · rintro ⟨m, n, ha, hb, rfl⟩
    exact ⟨_, ha, m, rfl, _, hb, n, rfl, rfl⟩

mutual
/-- A term has the same value under environments that agree on its constants. -/
theorem eval_congr {a b : Environment} (t : Term) (h : ∀ x ∈ t.consts, a x = b x) :
    t.eval a = t.eval b := by
  cases t with
  | bool _ | int _ | app _ _ => rfl
  | const x => exact h x (by simp [consts])
  | not t | neg t => simp only [eval, eval_congr t h]
  | and ts | or ts | distinct ts => simp only [eval, evalAll_congr ts h]
  | implies s t | iff s t | eq s t | arith o s t | compare o s t =>
    have hs := eval_congr s fun x hx => h x (List.mem_append_left _ hx)
    have ht := eval_congr t fun x hx => h x (List.mem_append_right _ hx)
    simp only [eval, hs, ht]
  | ite c s t =>
    have hst : ∀ x ∈ s.consts ++ t.consts, a x = b x := fun x hx =>
      h x (List.mem_append_right _ hx)
    have hc := eval_congr c fun x hx => h x (List.mem_append_left _ hx)
    have hs := eval_congr s fun x hx => hst x (List.mem_append_left _ hx)
    have ht := eval_congr t fun x hx => hst x (List.mem_append_right _ hx)
    simp only [eval, hc, hs, ht]

theorem evalAll_congr {a b : Environment} (ts : List Term) (h : ∀ x ∈ constsOf ts, a x = b x) :
    evalAll a ts = evalAll b ts := by
  cases ts with
  | nil => rfl
  | cons t ts =>
    have ht := eval_congr t fun x hx => h x (List.mem_append_left _ hx)
    have hts := evalAll_congr ts fun x hx => h x (List.mem_append_right _ hx)
    simp only [evalAll, ht, hts]
end

end Term
end Consistency
