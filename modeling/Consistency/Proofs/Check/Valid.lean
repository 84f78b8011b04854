import Consistency.Proofs.Check.EarlyExit

/-!
# Checks of valid models

Once its model has been found valid, a check cannot fail because of the model:
all queries get their scripts, and the errors that they end with are those of
the solver.
-/

set_option autoImplicit false

namespace Consistency
open Query MemoryModel
variable {c : Composition} {p : Precision} {config : CheckConfig} {m : MemoryModel} {o : Outcome}
  {ask : TerminalGraph → QueryResult} {r : CheckResult} {e : CheckError}
  {a : Except CheckError CheckResult}

namespace Check

/-- What a check fails with, at once or in the end, is the answer to a query. -/
theorem Returns.asked (h : Returns c p config ask a)
    (he : a = .error e ∨ ∃ r, a = .ok r ∧ e ∈ r.failures) : ∃ t, ask t = .failed e := by
  rcases returns_cases h with ⟨j, r, history, hreached, rfl⟩ | ⟨j, e', hreached, rfl⟩
  · obtain he | ⟨_, hr, he⟩ := he
    · exact absurd he (by simp)
    · obtain rfl := Except.ok.inj hr
      have hdone : Course.Done c p config ask j r history := Course.sound_of_reached hreached
      obtain ⟨t, -, hfailed⟩ := hdone.asked he
      exact ⟨t, hfailed⟩
  · obtain he | ⟨_, hr, -⟩ := he
    · obtain rfl := Except.error.inj he
      obtain ⟨-, -, t, -, hfailed⟩ := Course.sound_of_reached hreached
      exact ⟨t, hfailed⟩
    · exact absurd hr (by simp)

structure Assured (m : MemoryModel) : Prop where
  /-- The recursion over expressions and definitions ends. -/
  terminates : WellFounded m.Calls
  /-- A bound above the number of definitions changes nothing: what is made within it is what
  the recursion makes without one, and nothing else is. -/
  unbounded : ∀ (g : EventGraph) (fuel : Nat), m.relations.length < fuel →
    Unbounded g m (namedRelation g m fuel) ∧
      ∀ lookup, Unbounded g m lookup → lookup = namedRelation g m fuel
  encodes : ∀ g o, ∃ script, encode g m o = .ok script
  answers : ∀ backend o t fault, query backend m o t ≠ .failed (.invalidModel fault)
  /-- Workers and queries may take turns in any order. -/
  returns : ∀ c p config backend o a, Returns c p config (query backend m o) a → ∀ fault,
    a ≠ .error (.invalidModel fault) ∧ ∀ r, a = .ok r → .invalidModel fault ∉ r.failures
  runs : ∀ solve c o p config a, Runs solve c m o p config a → ∀ fault,
    a ≠ .error (.invalidModel fault) ∧ ∀ r, a = .ok r → .invalidModel fault ∉ r.failures
  run : ∀ solve c o p config fault, run solve c m o p config ≠ .error (.invalidModel fault) ∧
    ∀ r, run solve c m o p config = .ok (some r) → .invalidModel fault ∉ r.failures

/-- A model that was found valid is not found invalid later. -/
theorem assured_of_valid (m : MemoryModel) (hm : m.validate = .ok ()) : Assured m := by
  have hanswers : ∀ backend o t fault, query backend m o t ≠ .failed (.invalidModel fault) := by
    intro backend o t fault h
    exact absurd (terminal?_of_failed hm h) (by simp [CheckError.terminal?])
  have hreturns : ∀ c p config backend o a, Returns c p config (query backend m o) a → ∀ fault,
      a ≠ .error (.invalidModel fault) ∧ ∀ r, a = .ok r → .invalidModel fault ∉ r.failures := by
    intro c p config backend o a h fault
    have hnot : ¬ (a = .error (.invalidModel fault) ∨
        ∃ r, a = .ok r ∧ .invalidModel fault ∈ r.failures) := by
      intro he
      obtain ⟨t, hask⟩ := h.asked he
      exact hanswers backend o t fault hask
    exact ⟨fun he => hnot (.inl he), fun r hr he => hnot (.inr ⟨r, hr, he⟩)⟩
  have hruns : ∀ solve c o p config a, Runs solve c m o p config a → ∀ fault,
      a ≠ .error (.invalidModel fault) ∧ ∀ r, a = .ok r → .invalidModel fault ∉ r.failures := by
    intro solve c o p config a h fault
    cases h with
    | invalidModel hinvalid => exact absurd (hm.symm.trans hinvalid) (by simp)
    | invalidOutcome => exact ⟨by simp, fun r hr => absurd hr (by simp)⟩
    | noBackend => exact ⟨by simp, fun r hr => absurd hr (by simp)⟩
    | explored _ _ _ h => exact hreturns _ _ _ _ _ _ h fault
  refine ⟨MemoryModel.calls_wellFounded hm, ?_, exists_script hm, hanswers, hreturns, hruns, ?_⟩
  · intro g fuel hfuel
    exact ⟨unbounded_namedRelation hm hfuel, fun lookup h => h.eq_namedRelation hm hfuel⟩
  · intro solve c o p config fault
    refine ⟨fun he => ?_, fun r hr => ?_⟩
    · exact (hruns solve c o p config _ (runs_of_run.2 _ he) fault).1 rfl
    · exact (hruns solve c o p config _ (runs_of_run.1 r hr) fault).2 r rfl

/-- The communication of release and acquire is defined by way of another name. -/
theorem assured_of_valid_ra : MemoryModel.ra.validate = .ok () ∧ Assured .ra ∧
    ∃ script, encode (.ofState loading loaded) .ra (ends 0) = .ok script := by
  have hm : MemoryModel.ra.validate = .ok () :=
    MemoryModel.valid_of_defined (by decide) (by decide) (by decide) (by cbv)
  have hassured := assured_of_valid .ra hm
  exact ⟨hm, hassured, hassured.encodes _ _⟩

/-- Without validation a query may come upon a name that is not defined. -/
example : encode (.ofState loading loaded) ⟨"m", [], [⟨"none", .empty, .named "a"⟩]⟩ (ends 0) =
    .error (.unknownRelation "a" "m") := by
  cbv

end Check
end Consistency
