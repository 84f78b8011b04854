import Mathlib.Data.List.Induction
import Consistency.Proofs.Query.Matrix
import Consistency.Proofs.Query.Symbols
import Consistency.Proofs.Run
import Consistency.Query

/-!
# Definitions in queries

A query goes on by adding definitions and assertions. Each definition names a
propositional formula over the names before it, so that values for these extend
to all of them, in one way only.
-/

set_option autoImplicit false

namespace Consistency
open Query

structure Term.Formula (names : String → Prop) (t : Term) : Prop where
  consts : ∀ x ∈ t.consts, names x
  decides : ∀ env : Environment, (∀ x, names x → ∃ b, env x = some (.bool b)) →
    ∃ b, t.Decides env b

namespace QueryState

def asserted (q : QueryState) : List Term := q.commands.filterMap Command.assertion

def declared (q : QueryState) : List (String × ValueSort) := q.commands.filterMap Command.declared

end QueryState

namespace Query
variable {S : String → Prop} {q q₁ q₂ : QueryState} {ds es ts us : List Term}
  {env : Environment}

def Upto (S : String → Prop) (n : Nat) (x : String) : Prop := S x ∨ ∃ k < n, x = definitionSymbol k

def definitionsFrom (n : Nat) (ds : List Term) : List Term :=
  (ds.zipIdx n).map fun d => .iff (.const (definitionSymbol d.2)) d.1

theorem definitionsFrom_append (n : Nat) (ds es : List Term) :
    definitionsFrom n (ds ++ es) = definitionsFrom n ds ++ definitionsFrom (n + ds.length) es := by
  simp [definitionsFrom, List.zipIdx_append]

structure Grows (S : String → Prop) (q : QueryState) (ds ts : List Term) (q₁ : QueryState) :
    Prop where
  definitions : q₁.definitions = q.definitions + ds.length
  asserted : ∀ t, t ∈ q₁.asserted ↔
    t ∈ q.asserted ∨ t ∈ definitionsFrom q.definitions ds ∨ t ∈ ts
  declared : ∀ d, d ∈ q₁.declared ↔ d ∈ q.declared ∨
    ∃ k, q.definitions ≤ k ∧ k < q₁.definitions ∧ d = (definitionSymbol k, .bool)
  formulas : ∀ (i : Nat) (d : Term), ds[i]? = some d → d.Formula (Upto S (q.definitions + i))

namespace Grows

theorem refl (S : String → Prop) (q : QueryState) : Grows S q [] [] q where
  definitions := rfl
  asserted := by simp [definitionsFrom]
  declared := by
    intro d
    refine ⟨.inl, fun h => h.resolve_right ?_⟩
    rintro ⟨k, h₁, h₂, -⟩
    omega
  formulas := by simp

theorem trans (h : Grows S q ds ts q₁) (k : Grows S q₁ es us q₂) :
    Grows S q (ds ++ es) (ts ++ us) q₂ where
  definitions := by rw [k.definitions, h.definitions, List.length_append, Nat.add_assoc]
  asserted := by
    intro t
    rw [k.asserted, h.asserted, h.definitions, definitionsFrom_append, List.mem_append,
      List.mem_append]
    tauto
  declared := by
    intro d
    have hq := h.definitions
    have hk := k.definitions
    rw [k.declared, h.declared]
    constructor
    · rintro ((hd | ⟨i, h₁, h₂, rfl⟩) | ⟨i, h₁, h₂, rfl⟩)
      · exact .inl hd
      · exact .inr ⟨i, h₁, by omega, rfl⟩
      · exact .inr ⟨i, by omega, h₂, rfl⟩
    · rintro (hd | ⟨i, h₁, h₂, rfl⟩)
      · exact .inl (.inl hd)
      · by_cases hi : i < q₁.definitions
        · exact .inl (.inr ⟨i, h₁, hi, rfl⟩)
        · exact .inr ⟨i, by omega, h₂, rfl⟩
  formulas := by
    intro i d hd
    rw [List.getElem?_append] at hd
    split at hd
    · exact h.formulas i d hd
    · have := k.formulas _ d hd
      rwa [h.definitions, Nat.add_assoc, Nat.add_sub_cancel' (by omega)] at this

theorem le (h : Grows S q ds ts q₁) : q.definitions ≤ q₁.definitions := by
  rw [h.definitions]
  exact Nat.le_add_right _ _

end Grows

def Extends (S : String → Prop) (q q₁ : QueryState) : Prop := ∃ ds, Grows S q ds [] q₁

theorem Extends.refl (S : String → Prop) (q : QueryState) : Extends S q q := ⟨[], .refl S q⟩

theorem Extends.trans (h : Extends S q q₁) (k : Extends S q₁ q₂) : Extends S q q₂ := by
  obtain ⟨ds, h⟩ := h
  obtain ⟨es, k⟩ := k
  exact ⟨ds ++ es, h.trans k⟩

def Settles (env : Environment) (q : QueryState) : Prop :=
  ∀ k d, Term.iff (.const (definitionSymbol k)) d ∈ q.asserted →
    (Term.iff (.const (definitionSymbol k)) d).Decides env true

theorem Grows.settles (h : Grows S q ds ts q₁) (hs : Settles env q₁) : Settles env q :=
  fun k d hd => hs k d ((h.asserted _).2 (.inl hd))

theorem Extends.settles (h : Extends S q q₁) (hs : Settles env q₁) : Settles env q :=
  h.elim fun _ h => h.settles hs

theorem Formula.mono {U V : String → Prop} {t : Term} (h : t.Formula U) (hUV : ∀ x, U x → V x) :
    t.Formula V where
  consts := fun x hx => hUV x (h.consts x hx)
  decides := fun env hV => h.decides env fun x hx => hV x (hUV x hx)

theorem Upto.mono {m n : Nat} {x : String} (h : Upto S m x) (hmn : m ≤ n) : Upto S n x := by
  rcases h with h | ⟨k, hk, rfl⟩
  · exact .inl h
  · exact .inr ⟨k, Nat.lt_of_lt_of_le hk hmn, rfl⟩

theorem Grows.formula (h : Grows S q ds ts q₁) {t : Term} (ht : t.Formula (Upto S q.definitions)) :
    t.Formula (Upto S q₁.definitions) := Formula.mono ht fun _ hx => hx.mono h.le

theorem Extends.formula (h : Extends S q q₁) {t : Term} (ht : t.Formula (Upto S q.definitions)) :
    t.Formula (Upto S q₁.definitions) := h.elim fun _ h => h.formula ht

def Ordered (S : String → Prop) (n : Nat) (ds : List Term) : Prop :=
  ∀ (i : Nat) (d : Term), ds[i]? = some d → d.Formula (Upto S (n + i))

theorem Ordered.init {n : Nat} {d : Term} (h : Ordered S n (ds ++ [d])) :
    Ordered S n ds ∧ d.Formula (Upto S (n + ds.length)) := by
  refine ⟨fun i e he => h i e ?_, h ds.length d (by simp)⟩
  rw [List.getElem?_append_left (List.getElem?_eq_some_iff.1 he).1, he]

theorem upto_consts {n : Nat} (h : Ordered S n ds) : ∀ t ∈ definitionsFrom n ds,
    ∀ x ∈ t.consts, Upto S (n + ds.length) x := by
  intro t ht x hx
  obtain ⟨⟨d, k⟩, hd, rfl⟩ := List.mem_map.1 ht
  rw [List.mem_zipIdx_iff_le_and_getElem?_sub] at hd
  obtain ⟨hk, hd⟩ := hd
  have hlt : k < n + ds.length := by
    have := (List.getElem?_eq_some_iff.1 hd).1
    omega
  rcases List.mem_append.1 hx with hx | hx
  · obtain rfl := List.mem_singleton.1 hx
    exact .inr ⟨k, hlt, rfl⟩
  · refine ((h _ d hd).consts x hx).mono ?_
    simp only
    omega

/-- Values for the names before extend to what is defined. -/
theorem exists_definitions (hS : ∀ k, ¬ S (definitionSymbol k)) {n : Nat} (h : Ordered S n ds)
    (henv : ∀ x, Upto S n x → ∃ b, env x = some (.bool b)) : ∃ env' : Environment,
      (∀ x, (∀ k, n ≤ k → k < n + ds.length → x ≠ definitionSymbol k) → env' x = env x) ∧
      (∀ x, Upto S (n + ds.length) x → ∃ b, env' x = some (.bool b)) ∧
      ∀ t ∈ definitionsFrom n ds, t.Decides env' true := by
  induction ds using List.reverseRecOn with
  | nil => exact ⟨env, fun _ _ => rfl, henv, by simp [definitionsFrom]⟩
  | append_singleton ds d ih =>
    obtain ⟨hds, hd⟩ := h.init
    obtain ⟨env', hsame, hbool, htrue⟩ := ih hds
    obtain ⟨b, hb⟩ := hd.decides env' hbool
    have hnew : ∀ x, Upto S (n + ds.length) x → x ≠ definitionSymbol (n + ds.length) := by
      rintro x (hx | ⟨k, hk, rfl⟩) he
      · exact hS _ (he ▸ hx)
      · exact absurd (definitionSymbol_injective he) (by omega)
    have hold : ∀ x, Upto S (n + ds.length) x →
        Function.update env' (definitionSymbol (n + ds.length)) (some (.bool b)) x = env' x :=
      fun x hx => Function.update_of_ne (hnew x hx) _ _
    refine ⟨Function.update env' (definitionSymbol (n + ds.length)) (some (.bool b)),
      fun x hx => ?_, ?_, fun t ht => ?_⟩
    · rw [List.length_append, List.length_singleton] at hx
      rw [Function.update_of_ne (hx _ (by omega) (by omega))]
      exact hsame x fun k h₁ h₂ => hx k h₁ (by omega)
    · rintro x (hx | ⟨k, hk, rfl⟩)
      · rw [hold x (.inl hx)]
        exact hbool x (.inl hx)
      · rw [List.length_append, List.length_singleton] at hk
        by_cases hlast : k = n + ds.length
        · subst hlast
          exact ⟨b, Function.update_self ..⟩
        · have hx : Upto S (n + ds.length) (definitionSymbol k) := .inr ⟨k, by omega, rfl⟩
          rw [hold _ hx]
          exact hbool _ hx
    · rw [definitionsFrom_append, List.mem_append] at ht
      rcases ht with ht | ht
      · rw [Term.Decides, Term.eval_congr t fun x hx => hold x (upto_consts hds t ht x hx)]
        exact htrue t ht
      · obtain rfl := List.mem_singleton.1 ht
        refine Term.eval_iff.2 ⟨b, b, Function.update_self .., ?_, by simp⟩
        rw [Term.Decides, Term.eval_congr d fun x hx => hold x (hd.consts x hx)]
        exact hb

/-- There is no other way to extend them. -/
theorem definitions_unique {n : Nat} (h : Ordered S n ds) {env' : Environment}
    (hsame : ∀ x, Upto S n x → env x = env' x)
    (ht : ∀ t ∈ definitionsFrom n ds, t.Decides env true)
    (ht' : ∀ t ∈ definitionsFrom n ds, t.Decides env' true) :
    ∀ x, Upto S (n + ds.length) x → env x = env' x := by
  induction ds using List.reverseRecOn with
  | nil => exact hsame
  | append_singleton ds d ih =>
    obtain ⟨hds, hd⟩ := h.init
    rw [definitionsFrom_append, List.forall_mem_append] at ht ht'
    have hbefore := ih hds ht.1 ht'.1
    rintro x (hx | ⟨k, hk, rfl⟩)
    · exact hbefore x (.inl hx)
    · rw [List.length_append, List.length_singleton] at hk
      by_cases hlast : k = n + ds.length
      · subst hlast
        obtain ⟨b, c, hb, hc, hbc⟩ := Term.eval_iff.1 (ht.2 _ (List.mem_singleton_self _))
        obtain ⟨b', c', hb', hc', hbc'⟩ := Term.eval_iff.1 (ht'.2 _ (List.mem_singleton_self _))
        rw [Term.Decides, Term.eval_congr d fun x hx => hbefore x (hd.consts x hx)] at hc
        obtain rfl : c = c' := Value.bool.inj (Option.some.inj (hc.symm.trans hc'))
        obtain rfl : b = c := eq_of_beq (Value.bool.inj hbc).symm
        obtain rfl : b' = b := eq_of_beq (Value.bool.inj hbc').symm
        exact hb.trans hb'.symm
      · exact hbefore _ (.inr ⟨k, by omega, rfl⟩)

theorem formula_bool {U : String → Prop} (b : Bool) : (Term.bool b).Formula U :=
  ⟨by simp [Term.consts], fun _ _ => ⟨b, rfl⟩⟩

theorem formula_const {U : String → Prop} {x : String} (h : U x) : (Term.const x).Formula U where
  consts := by simpa [Term.consts] using h
  decides := fun env henv => by
    obtain ⟨b, hb⟩ := henv x h
    exact ⟨b, hb⟩

theorem formula_mkNot {U : String → Prop} {t : Term} (h : t.Formula U) :
    (Term.mkNot t).Formula U where
  consts := by
    rw [Term.consts_mkNot]
    exact h.consts
  decides := fun env henv => by
    obtain ⟨b, hb⟩ := h.decides env henv
    exact ⟨_, Term.eval_mkNot (Term.eval_not.2 ⟨b, hb, rfl⟩)⟩

theorem decides_all {U : String → Prop} (h : ∀ t ∈ ts, t.Formula U)
    (henv : ∀ x, U x → ∃ b, env x = some (.bool b)) :
    ∃ bs, List.Forall₂ (Term.Decides env) ts bs := by
  induction ts with
  | nil => exact ⟨[], .nil⟩
  | cons t ts ih =>
    obtain ⟨bs, hbs⟩ := ih fun s hs => h s (List.mem_cons_of_mem _ hs)
    obtain ⟨b, hb⟩ := (h t (by simp)).decides env henv
    exact ⟨b :: bs, .cons hb hbs⟩

theorem formula_mkAnd {U : String → Prop} (h : ∀ t ∈ ts, t.Formula U) :
    (Term.mkAnd ts).Formula U where
  consts := fun x hx => by
    obtain ⟨t, ht, hxt⟩ := Term.mem_consts_mkAnd hx
    exact (h t ht).consts x hxt
  decides := fun env henv => by
    obtain ⟨bs, hbs⟩ := decides_all h henv
    exact ⟨_, Term.eval_mkAnd (Term.eval_and.2 ⟨bs, hbs, rfl⟩)⟩

theorem formula_mkOr {U : String → Prop} (h : ∀ t ∈ ts, t.Formula U) :
    (Term.mkOr ts).Formula U where
  consts := fun x hx => by
    obtain ⟨t, ht, hxt⟩ := Term.mem_consts_mkOr hx
    exact (h t ht).consts x hxt
  decides := fun env henv => by
    obtain ⟨bs, hbs⟩ := decides_all h henv
    exact ⟨_, Term.eval_mkOr (Term.eval_or.2 ⟨bs, hbs, rfl⟩)⟩

end Query
end Consistency
