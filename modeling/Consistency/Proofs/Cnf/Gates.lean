import Consistency.Proofs.Cnf.Extension

/-!
# Gates

The literal of a conjunction, disjunction, equivalence or choice has its value
under every valuation in which the definitions hold.
-/

set_option autoImplicit false

namespace Consistency
variable {c : Reading} {e f : Encoder}

namespace Encoder

structure Stands (c : Reading) (e : Encoder) (l : Lit) (p : (Nat → Bool) → Bool) : Prop where
  live : e.Live c l.var
  holds : ∀ τ, e.Satisfies τ → l.holds τ = p τ

theorem Grows.stands (h : Grows c e f) {l : Lit} {p : (Nat → Bool) → Bool}
    (hs : e.Stands c l p) : f.Stands c l p where
  live := h.live hs.live
  holds := fun τ hτ => hs.holds τ (h.satisfies hτ)

theorem all_congr {τ υ : Nat → Bool} {ls : List Lit} (h : ∀ l ∈ ls, τ l.var = υ l.var) :
    ls.all (Lit.holds τ) = ls.all (Lit.holds υ) := by
  rw [Bool.eq_iff_iff, List.all_eq_true, List.all_eq_true]
  exact forall₂_congr fun l hl => by rw [Lit.holds_congr (h l hl)]

theorem Sound.stands_top (h : e.Sound c) : e.Stands c .top fun _ => true where
  live := h.live_top
  holds := fun _ hτ => Lit.holds_top (h.zero_true hτ)

theorem Sound.stands_bottom (h : e.Sound c) : e.Stands c .bottom fun _ => false where
  live := h.live_bottom
  holds := fun _ hτ => Lit.holds_bottom (h.zero_true hτ)

end Encoder

namespace Encode
open Encoder

theorem runs_fresh {l : Lit} :
    Runs fresh e l f ↔ l = ⟨e.vars, true⟩ ∧ f = { e with vars := e.vars + 1 } := by
  rw [fresh, Runs.modifyGet_iff, Prod.mk.injEq]
  exact and_congr eq_comm eq_comm

theorem runs_emit {d : Clause} {u : Unit} :
    Runs (emit d) e u f ↔ f = { e with definitions := d :: e.definitions } := Runs.modify_iff

theorem runs_forM_emit {α : Type} (d : α → Clause) {xs : List α} {u : Unit}
    (h : Runs (xs.forM fun x => emit (d x)) e u f) :
    f = { e with definitions := (xs.map d).reverse ++ e.definitions } := by
  induction xs generalizing e with
  | nil => exact Runs.forM_nil.1 h
  | cons x xs ih =>
    obtain ⟨g, hx, hxs⟩ := Runs.forM_cons.1 h
    obtain rfl := runs_emit.1 hx
    rw [ih hxs]
    simp

theorem runs_fail {α : Type} {why : SolverError} {a : α} : ¬ Runs (fail why) e a f := by
  simp [fail]

theorem runs_giveUp {α : Type} {why : OutOfFragment} {a : α} : ¬ Runs (giveUp why) e a f := by
  simp [giveUp]

theorem runs_symbol {x : String} {s : Option Symbol} :
    Runs (symbol x) e s f ↔ s = e.symbols[x]? ∧ f = e := by
  simp only [symbol, Runs.bind_iff, Runs.get_iff, Runs.pure_iff]
  constructor
  · rintro ⟨_, _, ⟨rfl, rfl⟩, rfl, rfl⟩
    exact ⟨rfl, rfl⟩
  · rintro ⟨rfl, rfl⟩
    exact ⟨_, _, ⟨rfl, rfl⟩, rfl, rfl⟩

/-- What follows a look-up goes on from the symbol found. -/
theorem runs_symbol_bind {α : Type} {x : String} {k : Option Symbol → Encode α} {a : α} :
    Runs (symbol x >>= k) e a f ↔ Runs (k e.symbols[x]?) e a f := by
  simp only [Runs.bind_iff, runs_symbol]
  constructor
  · rintro ⟨_, _, ⟨rfl, rfl⟩, h⟩
    exact h
  · exact fun h => ⟨_, _, ⟨rfl, rfl⟩, h⟩

/-- Only a Boolean constant is a formula. -/
theorem runs_constFormula {x : String} {l : Lit} :
    Runs (constFormula x) e l f ↔ e.symbols[x]? = some (.bool l) ∧ f = e := by
  unfold constFormula
  rw [runs_symbol_bind]
  cases e.symbols[x]? with
  | none => simp [runs_fail]
  | some s => cases s <;> simp [runs_fail, Runs.pure_iff, eq_comm]

/-- Only an integer constant with a domain has cases. -/
theorem runs_constCases {x : String} {zs : Cases} :
    Runs (constCases x) e zs f ↔ e.symbols[x]? = some (.int zs) ∧ f = e := by
  unfold constCases
  rw [runs_symbol_bind]
  cases e.symbols[x]? with
  | none => simp [runs_fail]
  | some s => cases s <;> simp [runs_fail, runs_giveUp, Runs.pure_iff, eq_comm]

/-- A name that is required is declared, and has a domain unless it is bound. -/
theorem runs_requireDomain {domains : Domains} {x : String} {u : Unit} :
    Runs (requireDomain domains x) e u f ↔
      f = e ∧ ∃ s, e.symbols[x]? = some s ∧ (s = .unbound → domains.contains x = true) := by
  unfold requireDomain
  rw [runs_symbol_bind]
  cases e.symbols[x]? with
  | none => simp [runs_fail]
  | some s =>
    cases s with
    | bool l => simp [Runs.pure_iff]
    | int cases => simp [Runs.pure_iff]
    | unbound => cases h : domains.contains x <;> simp [runs_giveUp, Runs.pure_iff]

def conjunction (v : Lit) (ks : List Lit) : List Clause :=
  (v :: ks.map Lit.flip) :: (ks.map fun l => [v.flip, l]).reverse

theorem conjunction_iff (τ : Nat → Bool) (v : Lit) (ks : List Lit) :
    (∀ d ∈ conjunction v ks, Clause.holds τ d = true) ↔
      v.holds τ = ks.all (Lit.holds τ) := by
  have hback : Clause.holds τ (v :: ks.map Lit.flip) = (v.holds τ || !ks.all (Lit.holds τ)) := by
    rw [Clause.holds, List.any_cons, List.any_map, List.not_all_eq_any_not]
    simp [Function.comp_def]
  have hfore : ∀ l, Clause.holds τ [v.flip, l] = (!v.holds τ || l.holds τ) := by
    simp [Clause.holds]
  simp only [conjunction, List.mem_cons, List.mem_reverse, List.mem_map, forall_eq_or_imp,
    forall_exists_index, and_imp, forall_apply_eq_imp_iff₂, hback, hfore]
  cases hv : v.holds τ with
  | false => simp
  | true =>
    rw [Bool.true_or, @eq_comm _ true (ks.all _), List.all_eq_true]
    simp

theorem conj_grows (hs : e.Sound c) {ls : List Lit} (hl : ∀ l ∈ ls, e.Live c l.var) {l : Lit}
    (h : Runs (conj ls) e l f) :
    Grows c e f ∧ f.Stands c l fun τ => ls.all (Lit.holds τ) := by
  unfold conj at h
  split at h
  · next hc =>
    obtain ⟨rfl, rfl⟩ := Runs.pure_iff.1 h
    exact ⟨.refl hs, hs.live_bottom, fun τ hτ => by
      rw [conjuncts_none (hs.zero_true hτ) hc, hs.stands_bottom.holds τ hτ]⟩
  · next hc =>
    obtain ⟨rfl, rfl⟩ := Runs.pure_iff.1 h
    exact ⟨.refl hs, hs.live_top, fun τ hτ => by
      rw [← conjuncts_some (hs.zero_true hτ) hc, hs.stands_top.holds τ hτ, List.all_nil]⟩
  · next k hc =>
    obtain ⟨rfl, rfl⟩ := Runs.pure_iff.1 h
    refine ⟨.refl hs, hl _ (mem_of_conjuncts hc (by simp)), fun τ hτ => ?_⟩
    rw [← conjuncts_some (hs.zero_true hτ) hc, List.all_cons, List.all_nil, Bool.and_true]
  · next ks _ _ hc =>
    simp only [Runs.bind_iff, Runs.pure_iff, runs_fresh, runs_emit] at h
    obtain ⟨_, _, ⟨rfl, rfl⟩, u, g, hg, _, _, rfl, rfl, rfl⟩ := h
    have hg := runs_forM_emit (fun l => [Lit.flip ⟨e.vars, true⟩, l]) hg
    have hk : ∀ l ∈ ks, e.Live c l.var := fun l h => hl l (mem_of_conjuncts hc h)
    have hgrow := grows_gate hs (conjunction ⟨e.vars, true⟩ ks) (fun τ => ks.all (Lit.holds τ))
      (fun τ υ ha => all_congr fun l h => ha l.var (hk l h))
      (by
        intro d hd l hl
        simp only [conjunction, List.mem_cons, List.mem_reverse, List.mem_map] at hd
        rcases hd with rfl | ⟨k, hmem, rfl⟩
        · simp only [List.mem_cons, List.mem_map] at hl
          rcases hl with rfl | ⟨k, hmem, rfl⟩
          · exact .inl rfl
          · exact .inr (hk k hmem)
        · simp only [List.mem_cons, List.not_mem_nil, or_false] at hl
          rcases hl with rfl | rfl
          · exact .inl rfl
          · exact .inr (hk l hmem))
      (fun τ => by rw [conjunction_iff]; simp [Lit.holds])
    subst hg
    refine ⟨hgrow, .inr ⟨hs.floor_le, Nat.lt_succ_self _⟩, fun τ hτ => ?_⟩
    rw [← conjuncts_some (hs.zero_true (hgrow.satisfies hτ)) hc, ← conjunction_iff]
    exact fun d hd => hτ d (List.mem_append_left _ hd)

theorem disj_grows (hs : e.Sound c) {ls : List Lit} (hl : ∀ l ∈ ls, e.Live c l.var) {l : Lit}
    (h : Runs (disj ls) e l f) :
    Grows c e f ∧ f.Stands c l fun τ => ls.any (Lit.holds τ) := by
  unfold disj at h
  simp only [Runs.bind_iff, Runs.pure_iff] at h
  obtain ⟨k, _, hk, rfl, rfl⟩ := h
  obtain ⟨hg, hlive, hval⟩ := conj_grows hs (by simpa using hl) hk
  refine ⟨hg, hlive, fun τ hτ => ?_⟩
  rw [Lit.holds_flip, hval τ hτ, List.all_map, List.not_all_eq_any_not]
  simp

def biconditional (v a b : Lit) : List Clause :=
  [[v, a.flip, b.flip], [v, a, b], [v.flip, a, b.flip], [v.flip, a.flip, b]]

theorem biconditional_iff (τ : Nat → Bool) (v a b : Lit) :
    (∀ d ∈ biconditional v a b, Clause.holds τ d = true) ↔
      v.holds τ = (a.holds τ == b.holds τ) := by
  cases hv : v.holds τ <;> cases ha : a.holds τ <;> cases hb : b.holds τ <;>
    simp [biconditional, Clause.holds, hv, ha, hb]

theorem equivalence_grows (hs : e.Sound c) {a b : Lit} (ha : e.Live c a.var)
    (hb : e.Live c b.var) {l : Lit} (h : Runs (equivalence a b) e l f) :
    Grows c e f ∧ f.Stands c l fun τ => a.holds τ == b.holds τ := by
  have htop : ∀ τ, e.Satisfies τ → Lit.top.holds τ = true := hs.stands_top.holds
  have hbot : ∀ τ, e.Satisfies τ → Lit.bottom.holds τ = false := hs.stands_bottom.holds
  unfold equivalence at h
  split_ifs at h with h1 h2 h3 h4 h5 h6
  · obtain ⟨rfl, rfl⟩ := Runs.pure_iff.1 h
    exact ⟨.refl hs, hs.live_top, fun τ hτ => by rw [htop τ hτ, h1, beq_self_eq_true]⟩
  · obtain ⟨rfl, rfl⟩ := Runs.pure_iff.1 h
    exact ⟨.refl hs, hs.live_bottom, fun τ hτ => by
      rw [hbot τ hτ, h2, Lit.holds_flip]
      cases b.holds τ <;> rfl⟩
  · obtain ⟨rfl, rfl⟩ := Runs.pure_iff.1 h
    exact ⟨.refl hs, hb, fun τ hτ => by rw [h3, htop τ hτ, Bool.true_beq]⟩
  · obtain ⟨rfl, rfl⟩ := Runs.pure_iff.1 h
    exact ⟨.refl hs, ha, fun τ hτ => by rw [h4, htop τ hτ, beq_true]⟩
  · obtain ⟨rfl, rfl⟩ := Runs.pure_iff.1 h
    exact ⟨.refl hs, hb, fun τ hτ => by rw [h5, hbot τ hτ, Bool.false_beq, Lit.holds_flip]⟩
  · obtain ⟨rfl, rfl⟩ := Runs.pure_iff.1 h
    exact ⟨.refl hs, ha, fun τ hτ => by
      rw [h6, hbot τ hτ, beq_false, Lit.holds_flip]⟩
  · simp only [Runs.bind_iff, Runs.pure_iff, runs_fresh, runs_emit] at h
    obtain ⟨_, _, ⟨rfl, rfl⟩, _, _, rfl, _, _, rfl, _, _, rfl, _, _, rfl, rfl, rfl⟩ := h
    have hgrow := grows_gate hs (biconditional ⟨e.vars, true⟩ a b)
      (fun τ => a.holds τ == b.holds τ)
      (fun τ υ hl => by rw [Lit.holds_congr (hl _ ha), Lit.holds_congr (hl _ hb)])
      (by
        intro d hd l hl
        simp only [biconditional, List.mem_cons, List.not_mem_nil, or_false] at hd
        rcases hd with rfl | rfl | rfl | rfl <;>
          simp only [List.mem_cons, List.not_mem_nil, or_false] at hl <;>
          rcases hl with rfl | rfl | rfl <;> first | exact .inl rfl | exact .inr ha | exact .inr hb)
      (fun τ => by rw [biconditional_iff]; simp [Lit.holds])
    refine ⟨hgrow, .inr ⟨hs.floor_le, Nat.lt_succ_self _⟩, fun τ hτ => ?_⟩
    rw [← biconditional_iff]
    exact fun d hd => hτ d (List.mem_append_left _ hd)

theorem choice_grows (hs : e.Sound c) {a b d : Lit} (ha : e.Live c a.var) (hb : e.Live c b.var)
    (hd : e.Live c d.var) {l : Lit} (h : Runs (choice a b d) e l f) :
    Grows c e f ∧ f.Stands c l fun τ => if a.holds τ then b.holds τ else d.holds τ := by
  unfold choice at h
  simp only [Runs.bind_iff] at h
  obtain ⟨x, e₁, hx, y, e₂, hy, hl⟩ := h
  obtain ⟨g₁, s₁⟩ := conj_grows hs (by simp [ha, hb]) hx
  obtain ⟨g₂, s₂⟩ := conj_grows g₁.sound (by simp [g₁.live ha, g₁.live hd]) hy
  obtain ⟨g₃, s₃⟩ := disj_grows g₂.sound (by simp [g₂.live s₁.live, s₂.live]) hl
  refine ⟨(g₁.trans g₂).trans g₃, s₃.live, fun τ hτ => ?_⟩
  rw [s₃.holds τ hτ]
  simp only [List.any_cons, List.any_nil, Bool.or_false,
    s₁.holds τ (g₂.satisfies (g₃.satisfies hτ)), s₂.holds τ (g₃.satisfies hτ), List.all_cons,
    List.all_nil, Bool.and_true, Lit.holds_flip]
  cases a.holds τ <;> simp

end Encode
end Consistency
