import Consistency.Proofs.Cnf.Total
import Consistency.Proofs.Solver.FiniteDomain

/-!
# What a search finds

Valuations that fulfil all clauses are read back as values within the domains,
under which no assertion is false. A script is given up only if an assertion
has no value then.
-/

set_option autoImplicit false

namespace Consistency

namespace Encoder

def symbolValue (τ : Nat → Bool) : Symbol → Value
  | .bool l => .bool (l.holds τ)
  | .int cases => .int (((cases.find? fun c => c.1.holds τ).map Prod.snd).getD 0)
  | .unbound => .int 0

def values (e : Encoder) (names : List String) (τ : Nat → Bool) : Environment := fun x =>
  if x ∈ names then (e.symbols[x]?).map (symbolValue τ) else none

end Encoder

namespace Script
open Encode
variable {solve : SatSolver} {s : Script} {e f : Encoder} {τ : Nat → Bool}

def Legible (s : Script) : Prop :=
  ∀ t ∈ s.assertions, ∀ d ∈ t.domain?, ∀ n ∈ d.2,
    Assignment.readValue (Term.renderInt n) = some (.int n)

instance (s : Script) : Decidable s.Legible :=
  inferInstanceAs (Decidable (∀ t ∈ s.assertions, ∀ d ∈ t.domain?, ∀ n ∈ d.2,
    Assignment.readValue (Term.renderInt n) = some (.int n)))

/-- Of the cases of an integer the first that is taken is that of its value. -/
theorem find_of_picks {cases : Cases} {n : Int} (h : Picks τ cases n) :
    ((cases.find? fun z => z.1.holds τ).map Prod.snd).getD 0 = n := by
  obtain ⟨⟨g, hg, hτ⟩, hall⟩ := h
  cases hfound : cases.find? fun z => z.1.holds τ with
  | none => exact absurd hτ (List.find?_eq_none.1 hfound _ hg)
  | some z =>
    have htaken := List.find?_some hfound
    exact hall z.1 z.2 (List.mem_of_find?_eq_some hfound) htaken

/-- Only declared constants have texts. -/
theorem declared_of_get? {names : List String} {x text : String}
    (h : (e.assignment names τ).get? x = some text) : x ∈ names ∧ e.symbols[x]? ≠ none := by
  obtain ⟨y, hy, he⟩ := List.mem_filterMap.1 (mem_of_lookup h)
  obtain ⟨sym, hsym, he⟩ := Option.map_eq_some_iff.1 he
  obtain ⟨rfl, -⟩ := Prod.mk.inj he
  exact ⟨hy, by simp [hsym]⟩

theorem environment_eq_bind (e : Encoder) (names : List String) (τ : Nat → Bool) (x : String) :
    (e.assignment names τ).environment x =
      (e.values names τ x).bind fun v => Assignment.readValue v.toTerm.render := by
  by_cases hx : x ∈ names ∧ e.symbols[x]? ≠ none
  · obtain ⟨hx, hsym⟩ := hx
    obtain ⟨sym, hsym⟩ := Option.ne_none_iff_exists'.1 hsym
    rw [environment_assignment hx hsym, Encoder.values, if_pos hx, hsym]
    cases sym <;> rfl
  · have hnone : e.values names τ x = none := by
      rw [Encoder.values]
      split
      · next hmem => rw [not_not.1 fun hsym => hx ⟨hmem, hsym⟩, Option.map_none]
      · rfl
    rw [hnone, Option.bind_none, Assignment.environment, Option.bind_eq_none_iff]
    exact fun text htext => absurd (declared_of_get? htext) hx

/-- Values are read back from their texts if integers are. -/
theorem environment_eq_values {names : List String} (h : ∀ x n, e.values names τ x = some (.int n) →
    Assignment.readValue (Term.renderInt n) = some (.int n)) :
    (e.assignment names τ).environment = e.values names τ := by
  funext x
  rw [environment_eq_bind]
  cases hv : e.values names τ x with
  | none => rfl
  | some v =>
    cases v with
    | bool b => simp [Value.toTerm, Term.render, Assignment.readValue, Assignment.readBool_toString]
    | int n => exact h x n hv

/-- Integers are zero or out of the domains. -/
theorem mem_domain_of_values (h : Encoder.ofScript s = .ok f) {x : String} {n : Int}
    (hx : f.values s.names τ x = some (.int n)) :
    n = 0 ∨ ∃ t ∈ s.assertions, ∃ d ∈ t.domain?, n ∈ d.2 := by
  obtain ⟨e, hp, hd⟩ := Encoder.demands_of_script h
  rw [Encoder.values] at hx
  split at hx
  · obtain ⟨sym, hsym, hvalue⟩ := Option.map_eq_some_iff.1 hx
    cases sym with
    | bool l => exact absurd hvalue (by simp [Encoder.symbolValue])
    | unbound => exact .inl (Value.int.inj hvalue).symm
    | int cases =>
      have hvalue := Value.int.inj hvalue
      cases hfound : cases.find? fun z => z.1.holds τ with
      | none =>
        rw [hfound] at hvalue
        exact .inl hvalue.symm
      | some z =>
        rw [hfound] at hvalue
        rw [(hd Term.noBindings).symbols] at hsym
        obtain ⟨-, t, ht, values, hdom, hvalues⟩ := hp.domain x cases hsym
        have hz := List.mem_map_of_mem (f := Prod.snd) (List.mem_of_find?_eq_some hfound)
        exact .inr ⟨t, ht, (x, values), hdom, (hvalues n).1 (hvalue ▸ hz)⟩
  · exact absurd hx (by simp)

theorem environment_of_legible (h : Encoder.ofScript s = .ok f) (hs : s.Legible) :
    (f.assignment s.names τ).environment = f.values s.names τ := by
  refine environment_eq_values fun x n hn => ?_
  rcases mem_domain_of_values h hn with rfl | ⟨t, ht, d, hd, hmem⟩
  · decide
  · exact hs t ht d hd n hmem

theorem fits_values (hp : e.Prepared s) (hτ : e.Satisfies τ) :
    (e.reading s (e.values s.names τ)).Fits e τ := by
  intro x sym hx hsym
  have hvalue : e.values s.names τ x = some (Encoder.symbolValue τ sym) := by
    rw [Encoder.values, if_pos (mem_names hp hx), hsym]
    rfl
  show sym.Shows τ (e.values s.names τ x)
  rw [hvalue]
  cases sym with
  | bool l => exact rfl
  | int cases =>
    obtain ⟨n, hn⟩ := hp.bound.picks x cases hsym τ hτ
    refine ⟨n, ?_, hn⟩
    rw [Encoder.symbolValue, find_of_picks hn]
  | unbound => trivial

/-- Values that are found are of the sorts of the constants, and make no assertion false. -/
theorem found_true (h : Encoder.ofScript s = .ok f) (hholds : f.problem.holds τ = true) :
    s.Sorts (f.values s.names τ) ∧
      ∀ t ∈ s.assertions, ∀ v, t.eval (f.values s.names τ) = some v → v = .bool true := by
  obtain ⟨e, hp, hd⟩ := Encoder.demands_of_script h
  have hvalues : f.values s.names τ = e.values s.names τ := by
    unfold Encoder.values
    rw [(hd Term.noBindings).symbols]
  rw [hvalues]
  have hdemands := hd (e.values s.names τ)
  obtain ⟨ds, hds, hall⟩ := hdemands.clauses
  rw [Encoder.problem, Problem.holds, List.all_eq_true, List.forall_mem_append, hds,
    hp.asserted, List.append_nil] at hholds
  have hτ : f.Satisfies τ := hholds.2
  have hfits := fits_values hp (hdemands.grows.satisfies hτ)
  refine ⟨fun x sort hx hsort => ?_, (hall τ hτ (hdemands.grows.fits.2 hfits)).1 hholds.1⟩
  obtain ⟨sym, sort', hsym, hsort', hof⟩ := hp.sorts x hx
  obtain rfl := Option.some.inj (hsort.symm.trans hsort')
  have hshows := hfits x sym hx hsym
  cases sym with
  | bool l =>
    cases sort with
    | bool => exact ⟨_, hshows, rfl⟩
    | _ => exact hof.elim
  | int cases =>
    obtain ⟨n, hn, -⟩ := hshows
    cases sort with
    | int => exact ⟨_, hn, rfl⟩
    | _ => exact hof.elim
  | unbound => cases sort <;> exact hof.elim

/-- Values that are read back from their texts stand the test that they stood before. -/
theorem holdsUnder_of_values
    (hread : (f.assignment s.names τ).environment = f.values s.names τ)
    (htrue : ∀ t ∈ s.assertions, t.Decides (f.values s.names τ) true) :
    s.holdsUnder (f.assignment s.names τ) = true := by
  rw [holdsUnder, List.all_eq_true]
  intro t ht
  simp only [Assignment.table_eq_environment]
  rw [hread]
  exact beq_iff_eq.2 (htrue t ht)

theorem decide_of_holds (h : Encoder.ofScript s = .ok f)
    (hsolve : f.problem.decide solve = .ok (some τ))
    (hholds : s.holdsUnder (f.assignment s.names τ) = true) :
    s.decide solve = .ok (.sat (some (f.assignment s.names τ))) := by
  rw [decide, h]
  simp only [hsolve, hholds, if_true]

/-- Either nothing fulfils the clauses, or there is something to read back: constants have values
of their sorts, no assertion is false, and if all have values it is the answer. -/
theorem decide_cases (hsound : solve.Sound) (hreturns : solve.Returns)
    (h : Encoder.ofScript s = .ok f) (hs : s.Legible) :
    s.decide solve = .ok .unsat ∨ ∃ w : Assignment,
      s.Sorts w.environment ∧
      (∀ t ∈ s.assertions, ∀ v, t.eval w.environment = some v → v = .bool true) ∧
      ((∀ t ∈ s.assertions, ∃ v, t.eval w.environment = some v) →
        s.decide solve = .ok (.sat (some w))) := by
  cases hsolve : f.problem.decide solve with
  | error text =>
    obtain ⟨answer, hanswer⟩ := hreturns f.problem.clauses
    exact absurd ((Problem.error_of_decide hsolve).symm.trans hanswer) (by simp)
  | ok found =>
    cases found with
    | none =>
      left
      rw [decide, h]
      simp only [hsolve]
    | some τ =>
      obtain ⟨hsorts, htrue⟩ := found_true h (Problem.holds_of_decide hsound hsolve)
      have hread := environment_of_legible (τ := τ) h hs
      rw [← hread] at hsorts htrue
      refine .inr ⟨f.assignment s.names τ, hsorts, htrue, fun hall => ?_⟩
      refine decide_of_holds h hsolve (holdsUnder_of_values hread fun t ht => ?_)
      obtain ⟨v, hv⟩ := hall t ht
      obtain rfl := htrue t ht v hv
      rwa [hread] at hv

/-- A script is unsatisfiable if values of the sorts always make an assertion false. -/
theorem decide_unsat (hsound : solve.Sound) (hreturns : solve.Returns)
    (h : Encoder.ofScript s = .ok f) (hs : s.Legible)
    (hno : ∀ a, s.Sorts a → ∃ t ∈ s.assertions, t.Decides a false) :
    s.decide solve = .ok .unsat := by
  rcases decide_cases hsound hreturns h hs with hunsat | ⟨w, hsorts, htrue, -⟩
  · exact hunsat
  · obtain ⟨t, ht, hfalse⟩ := hno w.environment hsorts
    exact absurd (Value.bool.inj (htrue t ht _ hfalse)) (by decide)

/-- Assertions without arithmetic all have values. -/
theorem InFragment.decided {q : Int → Prop} (h : s.InFragment False)
    (hw : Term.WellFormedAll q s.assertions) {a : Environment} (ha : s.Sorts a) :
    ∀ t ∈ s.assertions, t.Decided a := by
  have hrespects : a.Respects s.used? := by
    intro x k hx
    unfold used? at hx
    split at hx
    · next hm => exact ha x k hm hx
    · exact absurd hx (by simp)
  exact Term.AllOfSort.decided hrespects s.assertions h.used hw

/-- A script without arithmetic that can be satisfied is found to be. -/
theorem InFragment.exists_sat {q : Int → Prop} (hsound : solve.Sound)
    (hcomplete : solve.Complete) (hreturns : solve.Returns) (h : s.InFragment False)
    (hw : Term.WellFormedAll q s.assertions) (hs : s.Legible) {a : Environment} (ha : s.Sorts a)
    (htrue : ∀ t ∈ s.assertions, t.Decides a true) :
    ∃ w, s.decide solve = .ok (.sat (some w)) := by
  obtain ⟨f, hf⟩ := h.encoded.resolve_right fun h => h.1
  rcases decide_cases hsound hreturns hf hs with hunsat | ⟨w, hsorts, -, hsat⟩
  · exact absurd htrue (not_true_of_unsat hcomplete hunsat ha)
  · refine ⟨w, hsat fun t ht => ?_⟩
    obtain ⟨b, hb⟩ := h.decided hw hsorts t ht
    exact ⟨_, hb⟩

end Script
end Consistency
