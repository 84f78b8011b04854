import Consistency.Proofs.Cnf.Exactness
import Consistency.Proofs.Cnf.Search
import Consistency.Solver.FiniteDomain

/-!
# Answers of the solver for finite domains

With a complete procedure for clauses a script is found unsatisfiable only if no
assignment at all makes its assertions true, as those state the domains
themselves. An assignment that is found is read back from texts, under which the
assertions are true, whatever the procedure is.
-/

set_option autoImplicit false

namespace Consistency

theorem Text.mem_of_mem_trim {s : List Char} {c : Char} (h : c ∈ Text.trim s) : c ∈ s := by
  have hl := (List.dropWhile_sublist _).subset (List.mem_reverse.1 h)
  exact (List.dropWhile_sublist _).subset (List.mem_reverse.1 hl)

theorem Term.not_mem_renderInt (n : Int) : 'e' ∉ (Term.renderInt n).toList := by
  have digits : ∀ m : Nat, 'e' ∉ (toString m).toList := by
    intro m hm
    have hd : 'e' ∈ Nat.toDigits 10 m := by simpa [Nat.toString_eq_repr, Nat.repr] using hm
    exact absurd (Nat.isDigit_of_mem_toDigits (by decide) (by decide) hd) (by decide)
  unfold renderInt
  split
  · simpa [parens, spaced] using digits n.natAbs
  · next h =>
    obtain ⟨m, rfl⟩ := Int.eq_ofNat_of_zero_le (Int.not_lt.1 h)
    exact digits m

/-- No integer is written like a truth value. -/
theorem Assignment.readBool_renderInt (n : Int) : readBool (Term.renderInt n) = none := by
  have key : ∀ w : List Char, 'e' ∈ w → Text.trim (Term.renderInt n).toList ≠ w := by
    rintro w hw rfl
    exact Term.not_mem_renderInt n (Text.mem_of_mem_trim hw)
  unfold readBool
  rw [if_neg (key _ (by decide)), if_neg (key _ (by decide))]

theorem Assignment.readBool_toString (b : Bool) : readBool (toString b) = some b := by
  cases b <;> decide

namespace Script
open Encode
variable {solve : SatSolver} {s : Script} {e f : Encoder} {a : Environment}

def readBack (s : Script) (m : Assignment) : Environment := fun x =>
  match s.sort? x with
  | some .bool => (m.getBool? x).map .bool
  | some .int => (m.getInt? x).map .int
  | _ => none

theorem mem_names (h : e.Prepared s) {x : String} (hx : s.Mentions x) : x ∈ s.names := by
  obtain ⟨_, sort, _, hsort, _⟩ := h.sorts x hx
  rw [names, mem_distinct]
  exact List.mem_map.2 ⟨_, List.mem_reverse.1 (mem_of_lookup hsort), rfl⟩

theorem get?_assignment (τ : Nat → Bool) {x : String} {sym : Symbol} {names : List String}
    (hx : x ∈ names) (hsym : e.symbols[x]? = some sym) :
    (e.assignment names τ).get? x = some (Encoder.symbolText τ sym) := by
  unfold Encoder.assignment Assignment.get?
  induction names with
  | nil => exact absurd hx (by simp)
  | cons y ys ih =>
    by_cases hxy : x = y
    · subst hxy
      simp [hsym]
    · have hf : (x == y) = false := by simpa using hxy
      have := ih ((List.mem_cons.1 hx).resolve_left hxy)
      cases hy : e.symbols[y]? with
      | none => simpa [hy] using this
      | some sy => simpa [hy, List.lookup_cons, hf] using this

theorem environment_assignment {τ : Nat → Bool} {x : String} {names : List String} {sym : Symbol}
    (hx : x ∈ names) (hsym : e.symbols[x]? = some sym) :
    (e.assignment names τ).environment x = Assignment.readValue (Encoder.symbolText τ sym) := by
  rw [Assignment.environment, get?_assignment τ hx hsym]
  rfl

theorem readValue_bool (τ : Nat → Bool) (l : Lit) :
    Assignment.readValue (Encoder.symbolText τ (.bool l)) = some (.bool (l.holds τ)) := by
  simp [Encoder.symbolText, Assignment.readValue, Assignment.readBool_toString]

/-- What the sorts say agrees with what the texts look like. -/
theorem readBack_assignment {τ : Nat → Bool} {x : String} {sym : Symbol} {sort : ValueSort}
    (hx : x ∈ s.names) (hsym : e.symbols[x]? = some sym) (hsort : s.sort? x = some sort)
    (hof : sym.IsOf sort) :
    s.readBack (e.assignment s.names τ) x = (e.assignment s.names τ).environment x := by
  have hget := get?_assignment τ hx hsym
  unfold readBack Assignment.environment Assignment.getBool? Assignment.getInt?
  rw [hsort, hget]
  cases sym with
  | bool l =>
    cases sort with
    | bool => simp [Encoder.symbolText, Assignment.readValue, Assignment.readBool_toString]
    | _ => exact hof.elim
  | int cases =>
    cases sort with
    | int => simp [Encoder.symbolText, Assignment.readValue, Assignment.readBool_renderInt]
    | _ => exact hof.elim
  | unbound => cases sort <;> exact hof.elim

/-- What is found is read off a search, and has been evaluated. -/
theorem decide_reads {m : Option Assignment} (h : s.decide solve = .ok (.sat m)) :
    ∃ (e : Encoder) (τ : Nat → Bool), e.Prepared s ∧ m = some (e.assignment s.names τ) ∧
      ∀ t ∈ s.assertions, t.Decides (e.assignment s.names τ).environment true := by
  unfold decide at h
  split at h
  · next stop _ => cases stop <;> simp [Stop.answer] at h
  · next f hf =>
    obtain ⟨e, hp, hd⟩ := Encoder.demands_of_script hf
    split at h
    · exact absurd h (by simp)
    · exact absurd h (by simp)
    · next τ _ =>
      have hsame : f.assignment s.names τ = e.assignment s.names τ := by
        rw [Encoder.assignment, Encoder.assignment, (hd Term.noBindings).symbols]
      simp only at h
      split at h
      · next hm =>
        obtain rfl := Answer.sat.inj (Except.ok.inj h)
        refine ⟨e, τ, hp, congrArg some hsame, fun t ht => ?_⟩
        rw [holdsUnder, List.all_eq_true, hsame] at hm
        have ht' := eq_of_beq (hm t ht)
        simp only [Assignment.table_eq_environment] at ht'
        exact ht'
      · exact absurd h (by simp [Stop.answer])

theorem decide_sat {m : Option Assignment} (h : s.decide solve = .ok (.sat m)) :
    ∃ w, m = some w ∧ ∀ t ∈ s.assertions, t.Decides (s.readBack w) true := by
  obtain ⟨e, τ, hp, hm, htrue⟩ := decide_reads h
  refine ⟨_, hm, fun t ht => (Term.eval_congr t fun x hx => ?_).trans (htrue t ht)⟩
  have hx : s.Mentions x := List.mem_flatMap.2 ⟨t, ht, hx⟩
  obtain ⟨sym, sort, hsym, hsort, hof⟩ := hp.sorts x hx
  exact readBack_assignment (mem_names hp hx) hsym hsort hof

/-- What is found gives values to what is declared, of its sort if it is declared with one sort
only, and to nothing else. -/
theorem decide_typed {m : Option Assignment} (h : s.decide solve = .ok (.sat m))
    (hs : ∀ x sort, (x, sort) ∈ s.declared → s.sort? x = some sort ∧ (sort = .bool ∨ sort = .int)) :
    ∃ w, m = some w ∧ (∀ t ∈ s.assertions, t.Decides w.environment true) ∧
      (∀ x sort, (x, sort) ∈ s.declared → ∃ u, w.environment x = some u ∧ u.sort = sort) ∧
        ∀ x u, w.environment x = some u → ∃ sort, (x, sort) ∈ s.declared := by
  obtain ⟨e, τ, hp, hm, htrue⟩ := decide_reads h
  refine ⟨_, hm, htrue, fun x sort hx => ?_, fun x u hu => ?_⟩
  · have hname : x ∈ s.names := mem_distinct.2 (List.mem_map.2 ⟨_, hx, rfl⟩)
    obtain ⟨hsort, rfl | rfl⟩ := hs x sort hx
    · obtain ⟨l, hl⟩ := hp.formulas x hsort
      exact ⟨.bool (l.holds τ), (environment_assignment hname hl).trans (readValue_bool τ l), rfl⟩
    · by_cases hmentions : s.Mentions x
      · obtain ⟨sym, sort, hsym, hsort', hof⟩ := hp.sorts x hmentions
        obtain rfl := Option.some.inj (hsort.symm.trans hsort')
        cases sym with
        | int cases =>
          obtain ⟨-, t, ht, values, hdom, -⟩ := hp.domain x cases hsym
          obtain ⟨n, -, hn⟩ := Term.domain?_sound hdom (htrue t ht)
          exact ⟨.int n, hn, rfl⟩
        | bool l => exact hof.elim
        | unbound => exact hof.elim
      · have hzero : Assignment.readValue (Term.renderInt 0) = some (.int 0) := by decide
        have hread := environment_assignment (τ := τ) hname (hp.unused x hsort hmentions)
        exact ⟨.int 0, hread.trans hzero, rfl⟩
  · obtain ⟨text, htext, -⟩ := Option.bind_eq_some_iff.1 hu
    obtain ⟨y, hy, he⟩ := List.mem_filterMap.1 (mem_of_lookup htext)
    obtain ⟨sym, -, he⟩ := Option.map_eq_some_iff.1 he
    obtain ⟨rfl, -⟩ := Prod.mk.inj he
    obtain ⟨⟨_, sort⟩, hd, rfl⟩ := List.mem_map.1 (mem_distinct.1 hy)
    exact ⟨sort, hd⟩

/-- Assertions that are true state domains for their constants. -/
theorem within_of_true (h : Encoder.ofScript s = .ok f)
    (ht : ∀ t ∈ s.assertions, t.Decides a true) : f.Within s a := by
  obtain ⟨e, hp, hd⟩ := Encoder.demands_of_script h
  intro x cases n _ hx hn
  rw [(hd a).symbols] at hx
  obtain ⟨_, t, hmem, values, hdom, hvals⟩ := hp.domain x cases hx
  obtain ⟨k, hk, hak⟩ := Term.domain?_sound hdom (ht t hmem)
  obtain rfl := Value.int.inj (Option.some.inj (hak.symm.trans hn))
  exact (hvals k).2 hk

theorem exact_of_script (h : Encoder.ofScript s = .ok f) (hs : s.Sorts a) (hw : f.Within s a) :
    f.Exact s a := by
  obtain ⟨e, hp, hd⟩ := Encoder.demands_of_script h
  have hwe : e.Within s a := by
    unfold Encoder.Within at hw ⊢
    rwa [(hd a).symbols] at hw
  exact hp.exact (hd a) hs hwe

/-- Only an encoded script is found unsatisfiable. -/
theorem encoded_of_unsat (h : s.decide solve = .ok .unsat) : ∃ f, Encoder.ofScript s = .ok f := by
  unfold decide at h
  split at h
  · next stop _ => cases stop <;> simp [Stop.answer] at h
  · next f hf => exact ⟨f, hf⟩

theorem not_true_of_unsat (hsolve : solve.Complete) (h : s.decide solve = .ok .unsat)
    (hs : s.Sorts a) : ¬ ∀ t ∈ s.assertions, t.Decides a true := by
  intro ht
  unfold decide at h
  split at h
  · next stop _ => cases stop <;> simp [Stop.answer] at h
  · next f hf =>
    have hex := exact_of_script hf hs (within_of_true hf ht)
    split at h
    · exact absurd h (by simp)
    · next hnone =>
      obtain ⟨τ, hτ, hc⟩ := hex.extension
      have hsat := (hex.clauses τ hτ hc fun t hm => ⟨_, ht t hm⟩).2 ht
      rw [Problem.not_holds_of_decide hsolve hnone τ] at hsat
      exact absurd hsat (by simp)
    · simp only at h
      split at h
      · exact absurd h (by simp)
      · exact absurd h (by simp [Stop.answer])

/-- What is encoded ends in an error only with the procedure for clauses. -/
theorem error_of_encoded {error : SolverError} (he : Encoder.ofScript s = .ok e)
    (h : s.decide solve = .error error) :
    ∃ text, solve e.problem.clauses = .error text ∧ error = .library text := by
  rw [decide, he] at h
  dsimp only at h
  split at h
  · next text htext => exact ⟨text, Problem.error_of_decide htext, (Except.error.inj h).symm⟩
  · exact absurd h (by simp)
  · split at h
    · exact absurd h (by simp)
    · exact absurd h (by simp [Stop.answer])

/-- The clauses say of every assignment within the domains what the assertions say, and answers
are right about all assignments: that there is none if the procedure for clauses is complete, and
what is found in any case. -/
theorem encoding_exact (s : Script) (e : Encoder) (h : Encoder.ofScript s = .ok e) :
    (∀ a, s.Sorts a → e.Within s a → e.Exact s a) ∧
      ∀ solve : SatSolver,
        (solve.Complete → s.decide solve = .ok .unsat →
          ∀ a, s.Sorts a → ¬ ∀ t ∈ s.assertions, t.Decides a true) ∧
        (∀ m, s.decide solve = .ok (.sat m) →
          ∃ w, m = some w ∧ ∀ t ∈ s.assertions, t.Decides (s.readBack w) true) ∧
        ∀ error, s.decide solve = .error error →
          ∃ text, solve e.problem.clauses = .error text ∧ error = .library text :=
  ⟨fun _ hs hw => exact_of_script h hs hw, fun _ => ⟨fun hsolve hu _ hs =>
    not_true_of_unsat hsolve hu hs, fun _ hm => decide_sat hm, fun _ he => error_of_encoded h he⟩⟩

def equation : Script := ⟨[.declareConst "x" .int, .assert (.eq (.const "x") (.int 1))]⟩

theorem equation_encoded : ∃ e, Encoder.ofScript equation = .ok e := by
  have h₁ : conjuncts [⟨1, true⟩, .top] = some [⟨1, true⟩] := by cbv
  have h₂ : conjuncts [⟨1, false⟩] = some [⟨1, false⟩] := by cbv
  have h₃ : Clause.simplify [⟨1, true⟩] = some [⟨1, true⟩] := by cbv
  simp [Encoder.ofScript, equation, script, assertions, Command.assertion, List.filterMap,
    declareFrom, declare, define, bindDomains, Encoder.initial, Term.consts, distinct,
    distinctFrom, OrderedSet.ofList, OrderedSet.dropRepeats, requireDomain, addDomain,
    Term.domain?, Term.equation?, symbol, OrderedMap.contains, OrderedMap.empty, OrderedMap.get?,
    OrderedMap.insert, OrderedMap.insertList, bindDomain, emit, atMostOne, fresh, assertAll,
    Encode.assert, formula, integer, remember, equate, constCases, relate, pairs, isFormula, disj,
    conj, demand, Lit.flip, h₁, h₂, h₃]
  exact ⟨_, rfl⟩

theorem equation_true : equation.Sorts (fun _ => some (.int 1)) ∧
    ∀ t ∈ equation.assertions, t.Decides (fun _ => some (.int 1)) true := by
  constructor
  · intro x sort hx hsort
    obtain rfl : x = "x" := List.mem_singleton.1 hx
    obtain rfl : ValueSort.int = sort := Option.some.inj hsort
    exact ⟨_, rfl, rfl⟩
  · intro t ht
    obtain rfl := List.mem_singleton.1 ht
    simp [Term.Decides, Term.eval, Value.equal]

/-- The clauses are exact about the value that the equation fixes, which no complete procedure
misses. -/
theorem encoding_exact_equation : ∃ e, Encoder.ofScript equation = .ok e ∧
    e.Exact equation (fun _ => some (.int 1)) ∧ SatSolver.engine.Complete ∧
      equation.decide .engine ≠ .ok .unsat := by
  obtain ⟨e, he⟩ := equation_encoded
  obtain ⟨hexact, hanswers⟩ := encoding_exact equation e he
  obtain ⟨hsorts, htrue⟩ := equation_true
  refine ⟨e, he, hexact _ hsorts (within_of_true he htrue), SatSolver.engine_complete, ?_⟩
  exact fun hunsat => (hanswers .engine).1 SatSolver.engine_complete hunsat _ hsorts htrue

end Script
end Consistency
