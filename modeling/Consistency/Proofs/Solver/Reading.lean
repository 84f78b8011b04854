import Consistency.Proofs.Solver.Found
import Consistency.Proofs.Text

/-!
# Texts of integers

An integer is read back from the text that it is written as, unless it is the
least one: its magnitude is read as an integer of its own, and is out of range.
What a text negates is an integer in range, which has no opposite in range if it
is the least one.
-/

set_option autoImplicit false

namespace Consistency
open Bounded (InRange)

theorem Term.toList_renderInt (v : Int) : (Term.renderInt v).toList =
    if v < 0 then '(' :: '-' :: ' ' :: (Nat.toDigits 10 v.natAbs ++ [')'])
    else Nat.toDigits 10 v.natAbs := by
  unfold renderInt
  split
  · simp [parens, spaced]
  · next h =>
    obtain ⟨n, rfl⟩ := Int.eq_ofNat_of_zero_le (Int.not_lt.1 h)
    exact Text.toList_toString n

namespace Assignment
variable {text : String} {k n v : Int}

def negated? (text : String) : Option Int :=
  (parenthesized? (Text.trim text.toList)).bind fun inner =>
    if (Text.trim inner).head? = some '-' then Text.readInt (Text.trim (Text.trim inner).tail)
    else none

theorem readInt_of_parenthesized {inner : List Char}
    (h : parenthesized? (Text.trim text.toList) = some inner) :
    readInt text = (negated? text).map negate := by
  rw [negated?, h, Option.bind_some]
  unfold readInt
  simp only [h]
  split
  · next magnitude heq =>
    rw [heq]
    rfl
  · next hother =>
    rw [if_neg]
    · rfl
    · intro hhead
      obtain ⟨magnitude, heq⟩ := List.head?_eq_some_iff.1 hhead
      exact hother magnitude heq

theorem readInt_of_bare (h : parenthesized? (Text.trim text.toList) = none) :
    readInt text = Text.readInt (Text.trim text.toList) := by
  unfold readInt
  simp only [h]

theorem inRange_readText {s : List Char} (h : Text.readInt s = some n) : InRange n := by
  unfold Text.readInt at h
  split at h <;>
  · obtain ⟨m, -, hm⟩ := Option.bind_eq_some_iff.1 h
    exact Bounded.inRange_of_bound hm

theorem inRange_negated (h : negated? text = some k) : InRange k := by
  obtain ⟨inner, -, h⟩ := Option.bind_eq_some_iff.1 h
  split at h
  · exact inRange_readText h
  · exact absurd h (by simp)

/-- The opposite of an integer is in range, save for the least one. -/
theorem inRange_neg (h : InRange k) : InRange (-k) ↔ k ≠ Bounded.least := by
  have hflip : -Bounded.least = Bounded.greatest + 1 := by decide
  obtain ⟨hl, hg⟩ := h
  constructor
  · rintro ⟨-, hg'⟩ rfl
    omega
  · intro hne
    exact ⟨by omega, by omega⟩

theorem inRange_readInt (h : readInt text = some n) : InRange n := by
  cases hinner : parenthesized? (Text.trim text.toList) with
  | none =>
    rw [readInt_of_bare hinner] at h
    exact inRange_readText h
  | some inner =>
    rw [readInt_of_parenthesized hinner] at h
    obtain ⟨k, hk, rfl⟩ := Option.map_eq_some_iff.1 h
    have hrange := inRange_negated hk
    unfold negate
    split
    · exact hrange
    · next hne => exact (inRange_neg hrange).2 hne

/-- The parentheses, the sign and the blank come off one after the other. -/
theorem negated?_renderInt (h : v < 0) :
    (parenthesized? (Text.trim (Term.renderInt v).toList)).isSome = true ∧
      negated? (Term.renderInt v) = Bounded.bound v.natAbs := by
  obtain ⟨ds, hds⟩ := Text.toDigits_eq_append v.natAbs
  have hlast : Text.isBlank (Nat.digitChar (v.natAbs % 10)) = false := by
    have hmem : Nat.digitChar (v.natAbs % 10) ∈ Nat.toDigits 10 v.natAbs := by simp [hds]
    exact Text.isBlank_of_isDigit (Text.isDigit_toDigits hmem)
  have hwhole : Text.trim (Term.renderInt v).toList = (Term.renderInt v).toList := by
    rw [Term.toList_renderInt, if_pos h]
    exact Text.trim_between (by decide) (by decide) ('-' :: ' ' :: Nat.toDigits 10 v.natAbs)
  have hinner : parenthesized? (Text.trim (Term.renderInt v).toList) =
      some ('-' :: ' ' :: Nat.toDigits 10 v.natAbs) := by
    rw [hwhole, Term.toList_renderInt, if_pos h]
    simp [parenthesized?]
  have hsign : Text.trim ('-' :: ' ' :: Nat.toDigits 10 v.natAbs) =
      '-' :: ' ' :: Nat.toDigits 10 v.natAbs := by
    rw [hds]
    exact Text.trim_between (by decide) hlast (' ' :: ds)
  have hblank : Text.trim (' ' :: Nat.toDigits 10 v.natAbs) = Nat.toDigits 10 v.natAbs :=
    Text.trim_toDigits v.natAbs
  refine ⟨by rw [hinner]; rfl, ?_⟩
  rw [negated?, hinner, Option.bind_some, hsign, List.head?_cons, if_pos rfl, List.tail_cons,
    hblank, Text.readInt_toDigits]

/-- Every integer but the least one is read back from its text. -/
theorem readInt_renderInt (h : InRange v) :
    readInt (Term.renderInt v) = if v = Bounded.least then none else some v := by
  have hflip : -Bounded.least = Bounded.greatest + 1 := by decide
  have hsmall : Bounded.least < 0 := by decide
  obtain ⟨hlow, hhigh⟩ := h
  rcases Int.lt_or_le v 0 with hneg | hpos
  · obtain ⟨hinner, hnegated⟩ := negated?_renderInt hneg
    obtain ⟨inner, hinner⟩ := Option.isSome_iff_exists.1 hinner
    rw [readInt_of_parenthesized hinner, hnegated, Bounded.bound]
    by_cases hleast : v = Bounded.least
    · have hout : ¬ InRange (v.natAbs : Int) := by
        rintro ⟨-, hle⟩
        omega
      rw [if_neg hout, if_pos hleast]
      rfl
    · have hrange : InRange (v.natAbs : Int) := ⟨by omega, by omega⟩
      have hback : -(v.natAbs : Int) = v := by omega
      rw [if_pos hrange, if_neg hleast, Option.map_some, negate, if_neg (by omega), hback]
  · have hdigits : Text.trim (Term.renderInt v).toList = Nat.toDigits 10 v.natAbs := by
      rw [Term.toList_renderInt, if_neg (Int.not_lt.2 hpos)]
      exact Text.trim_toDigits _
    have hbare : parenthesized? (Text.trim (Term.renderInt v).toList) = none := by
      rw [hdigits]
      have hdigit : ∀ c ∈ Nat.toDigits 10 v.natAbs, c.isDigit = true :=
        fun _ => Text.isDigit_toDigits
      generalize Nat.toDigits 10 v.natAbs = ds at hdigit
      unfold parenthesized?
      split
      · exact absurd (hdigit '(' List.mem_cons_self) (by decide)
      · rfl
    have hsame : (v.natAbs : Int) = v := by omega
    have hleast : ¬ v = Bounded.least := by omega
    rw [readInt_of_bare hbare, hdigits, Text.readInt_toDigits, hsame, Bounded.bound,
      if_pos ⟨hlow, hhigh⟩, if_neg hleast]

theorem readValue_renderInt (h : InRange v) (hne : v ≠ Bounded.least) :
    readValue (Term.renderInt v) = some (.int v) := by
  rw [readValue, readBool_renderInt, readInt_renderInt h, if_neg hne]
  rfl

end Assignment

namespace Script
open Assignment
variable {solve : SatSolver} {s : Script} {e : Encoder} {τ : Nat → Bool}

def Ranged (s : Script) : Prop := ∀ t ∈ s.assertions, ∀ d ∈ t.domain?, ∀ n ∈ d.2, InRange n

instance (s : Script) : Decidable s.Ranged :=
  inferInstanceAs (Decidable (∀ t ∈ s.assertions, ∀ d ∈ t.domain?, ∀ n ∈ d.2, InRange n))

/-- Values other than the least integer make no difference to their texts. -/
theorem holdsUnder_of_correct (h : Encoder.ofScript s = .ok e) (hr : s.Ranged)
    (hleast : ∀ x, e.values s.names τ x ≠ some (.int Bounded.least))
    (htrue : ∀ t ∈ s.assertions, t.Decides (e.values s.names τ) true) :
    s.holdsUnder (e.assignment s.names τ) = true := by
  refine holdsUnder_of_values (environment_eq_values fun x n hn => ?_) htrue
  have hne : n ≠ Bounded.least := by
    rintro rfl
    exact hleast x hn
  rcases mem_domain_of_values h hn with rfl | ⟨t, ht, d, hd, hmem⟩
  · decide
  · exact readValue_renderInt (hr t ht d hd n hmem) hne

/-- Integers are read back from their texts, and correct values are not given up for their texts,
unless one is the least integer. Whatever a text says, what is read is in range, and so is the
opposite of what it negates, again unless that is the least integer. -/
theorem texts_exact (m : Assignment) (name text : String) (v : Int) (s : Script) (e : Encoder)
    (τ : Nat → Bool) :
    (InRange v → m.get? name = some (Term.renderInt v) →
      m.getInt? name = if v = Bounded.least then none else some v) ∧
    (∀ n, m.getInt? name = some n → InRange n) ∧
    (∀ k, negated? text = some k →
      (InRange (-k) ↔ k ≠ Bounded.least) ∧ (k ≠ Bounded.least → readInt text = some (-k))) ∧
    (Encoder.ofScript s = .ok e → s.Ranged →
      (∀ x, e.values s.names τ x ≠ some (.int Bounded.least)) →
        (∀ t ∈ s.assertions, t.Decides (e.values s.names τ) true) →
          s.holdsUnder (e.assignment s.names τ) = true ∧
            ∀ solve : SatSolver, e.problem.decide solve = .ok (some τ) →
              s.decide solve = .ok (.sat (some (e.assignment s.names τ)))) := by
  refine ⟨fun hv hget => ?_, fun n hn => ?_, fun k hk => ⟨?_, fun hne => ?_⟩,
    fun he hr hleast htrue => ?_⟩
  · rw [getInt?, hget, Option.bind_some]
    exact readInt_renderInt hv
  · obtain ⟨text, -, hread⟩ := Option.bind_eq_some_iff.1 hn
    exact inRange_readInt hread
  · exact inRange_neg (inRange_negated hk)
  · obtain ⟨inner, hinner, -⟩ := Option.bind_eq_some_iff.1 hk
    rw [readInt_of_parenthesized hinner, hk, Option.map_some, negate, if_neg hne]
  · have hholds := holdsUnder_of_correct he hr hleast htrue
    exact ⟨hholds, fun _ hsolve => decide_of_holds he hsolve hholds⟩

def settling (v : Int) : Script := ⟨[.declareConst "x" .int, .assert (.eq (.const "x") (.int v))]⟩

theorem settling_fragment (v : Int) : (settling v).InFragment False := by
  refine ⟨?_, fun x hx => ?_, ⟨rfl, .inr ⟨rfl, rfl⟩⟩, trivial⟩
  · simp [settling, Command.Plain]
  · obtain rfl : x = "x" := List.mem_singleton.1 hx
    exact .inr ⟨rfl, _, List.mem_singleton_self _, ("x", [v]), rfl, rfl⟩

theorem settling_ne_unsat (hcomplete : solve.Complete) (v : Int) :
    (settling v).decide solve ≠ .ok .unsat := by
  intro hunsat
  have hsorts : (settling v).Sorts fun _ => some (.int v) := by
    refine sorts_of_lookup fun x hx => ?_
    obtain rfl : x = "x" := List.mem_singleton.1 hx
    rfl
  refine not_true_of_unsat hcomplete hunsat hsorts fun t ht => ?_
  obtain rfl := List.mem_singleton.1 ht
  simp [Term.Decides, Term.eval, Value.equal]

/-- What satisfies the clauses gives the constant its value. -/
theorem settling_value {v : Int} (he : Encoder.ofScript (settling v) = .ok e)
    (hholds : e.problem.holds τ = true) :
    e.values (settling v).names τ "x" = some (.int v) := by
  obtain ⟨hsorts, htrue⟩ := found_true he hholds
  obtain ⟨n, hn⟩ := Term.computed_const (hsorts "x" .int List.mem_cons_self rfl)
  have hx : e.values (settling v).names τ "x" = some (.int n) := hn
  have heval := htrue _ List.mem_cons_self (.bool (n == v)) (by
    simp [Term.eval, hx, Value.equal])
  have hnv : n = v := by simpa using heval
  exact hnv ▸ hx

/-- The search gives the constant its value, whatever becomes of the text. -/
theorem settling_found (hsound : solve.Sound) (hcomplete : solve.Complete)
    (hreturns : solve.Returns) (v : Int) : ∃ e τ, Encoder.ofScript (settling v) = .ok e ∧
    e.problem.decide solve = .ok (some τ) ∧ e.values (settling v).names τ "x" = some (.int v) ∧
      (∀ x n, e.values (settling v).names τ x = some (.int n) → n = v) ∧
        ∀ t ∈ (settling v).assertions, t.Decides (e.values (settling v).names τ) true := by
  obtain ⟨e, he⟩ := (settling_fragment v).encoded.resolve_right fun h => h.1
  cases hsolve : e.problem.decide solve with
  | error text =>
    obtain ⟨answer, hanswer⟩ := hreturns e.problem.clauses
    exact absurd ((Problem.error_of_decide hsolve).symm.trans hanswer) (by simp)
  | ok found =>
    cases found with
    | none =>
      refine absurd ?_ (settling_ne_unsat hcomplete v)
      rw [decide, he]
      simp only [hsolve]
    | some τ =>
      have hx := settling_value he (Problem.holds_of_decide hsound hsolve)
      refine ⟨e, τ, he, hsolve, hx, fun y k hy => ?_, fun t ht => ?_⟩
      · have hname : y = "x" := by
          by_contra hne
          have hnames : y ∉ (settling v).names :=
            fun hmem => hne (List.mem_singleton.1 (mem_distinct.1 hmem))
          rw [Encoder.values, if_neg hnames] at hy
          exact absurd hy (by simp)
        rw [hname, hx] at hy
        exact (Value.int.inj (Option.some.inj hy)).symm
      · obtain rfl := List.mem_singleton.1 ht
        simp [Term.Decides, Term.eval, hx, Value.equal]

/-- All but the least integer are found; that one is given up, as its text is not read back. -/
theorem settling_decide (hsound : solve.Sound) (hcomplete : solve.Complete)
    (hreturns : solve.Returns) {v : Int} (hv : InRange v) :
    (v ≠ Bounded.least → ∃ w, (settling v).decide solve = .ok (.sat (some w)) ∧
      w.environment "x" = some (.int v)) ∧
    (v = Bounded.least →
      (settling v).decide solve = .ok (.unknown OutOfFragment.notReproduced.message)) := by
  obtain ⟨e, τ, he, hsolve, hx, hints, htrue⟩ := settling_found hsound hcomplete hreturns v
  have henv : (e.assignment (settling v).names τ).environment "x" =
      if v = Bounded.least then none else some (.int v) := by
    rw [environment_eq_bind, hx]
    show Assignment.readValue (Term.renderInt v) = _
    rw [readValue, readBool_renderInt, readInt_renderInt hv]
    split <;> rfl
  constructor
  · intro hne
    have hranged : (settling v).Ranged := by
      intro t ht d hd n hn
      obtain rfl := List.mem_singleton.1 ht
      obtain rfl := Option.some.inj hd
      exact List.mem_singleton.1 hn ▸ hv
    have hholds := holdsUnder_of_correct he hranged
      (fun x hleast => hne (hints x _ hleast).symm) htrue
    exact ⟨_, decide_of_holds he hsolve hholds, henv.trans (if_neg hne)⟩
  · intro hleast
    have hfails : (settling v).holdsUnder (e.assignment (settling v).names τ) = false := by
      rw [holdsUnder, List.all_eq_false]
      refine ⟨_, List.mem_cons_self, ?_⟩
      simp only [Assignment.table_eq_environment, Term.eval, henv, if_pos hleast]
      exact Bool.false_ne_true
    rw [decide, he]
    simp only [hsolve, hfails]
    rfl

/-- Texts of -3 are read back, and a script that asks for it is answered. -/
theorem texts_exact_negative :
    (⟨[("x", "(- 3)")]⟩ : Assignment).getInt? "x" = some (-3) ∧ InRange (-3) ∧
      negated? "(- -3)" = some (-3) ∧ readInt "(- -3)" = some 3 ∧
        ∃ e τ, Encoder.ofScript (settling (-3)) = .ok e ∧
          e.problem.decide .engine = .ok (some τ) ∧ (settling (-3)).decide .engine =
            .ok (.sat (some (e.assignment (settling (-3)).names τ))) := by
  obtain ⟨e, τ, he, hsolve, -, hints, htrue⟩ := settling_found SatSolver.engine_sound
    SatSolver.engine_complete SatSolver.engine_returns (-3)
  obtain ⟨hback, hrange, hnegated, hanswer⟩ :=
    texts_exact ⟨[("x", "(- 3)")]⟩ "x" "(- -3)" (-3) (settling (-3)) e τ
  have hread : (⟨[("x", "(- 3)")]⟩ : Assignment).getInt? "x" = some (-3) :=
    (hback (by decide) (by decide)).trans (if_neg (by decide))
  have htwice : negated? "(- -3)" = some (-3) := by decide
  obtain ⟨-, hdecide⟩ := hanswer he (by decide)
    (fun x hx => absurd (hints x _ hx) (by decide)) htrue
  exact ⟨hread, hrange _ hread, htwice, (hnegated _ htwice).2 (by decide), e, τ, he, hsolve,
    hdecide _ hsolve⟩

end Script
end Consistency
