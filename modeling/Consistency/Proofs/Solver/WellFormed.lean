import Mathlib.Data.List.Nodup
import Consistency.Proofs.Cnf.Total
import Consistency.Proofs.Ordered.Map
import Consistency.Proofs.Term.Typing
import Consistency.Proofs.Solver.FiniteDomain

/-!
# Well-formed scripts

A script is well-formed if every command may come after those before it: names
are declared once and before they are used, and used with the sort they are
declared with. The solver for finite domains never finds such a script broken.
It stops only at arithmetic and at integers for which no domain is stated.
-/

set_option autoImplicit false

namespace Consistency

abbrev Sorts := String → ValueSort → Prop

namespace Command

def sortsOf (cs : List Command) : Sorts := fun x k => (x, k) ∈ cs.filterMap declared

def Follows (before : List Command) : Command → Prop
  | .declareConst x k => (k = .bool ∨ k = .int) ∧ ∀ l, ¬ sortsOf before x l
  | .assert t => t.HasSort (sortsOf before) .bool
  | .comment _ => True
  | _ => False

def Orderly : List Command → Prop
  | [] => True
  | c :: before => c.Follows before ∧ Orderly before

theorem Follows.congr {before before' : List Command} {c : Command} (h : c.Follows before)
    (hsorts : ∀ x k, sortsOf before x k ↔ sortsOf before' x k) : c.Follows before' := by
  cases c with
  | declareConst x k => exact ⟨h.1, fun l hl => h.2 l ((hsorts x l).2 hl)⟩
  | assert t => exact Term.HasSort.mono t (fun x _ l hl => (hsorts x l).1 hl) h
  | comment _ => trivial
  | _ => exact h.elim

theorem Follows.plain {before : List Command} {c : Command} (h : c.Follows before) : c.Plain := by
  cases c with
  | declareConst x k => exact h.1
  | assert _ | comment _ => trivial
  | _ => exact h.elim

theorem Follows.declares {before : List Command} {c : Command} {x : String} {k : ValueSort}
    (h : c.Follows before) (hc : c.declared = some (x, k)) :
    (k = .bool ∨ k = .int) ∧ ∀ l, ¬ sortsOf before x l := by
  cases c with
  | declareConst y l =>
    obtain ⟨rfl, rfl⟩ := Prod.mk.inj (Option.some.inj hc)
    exact h
  | assert _ | comment _ => exact absurd hc (by simp [Command.declared])
  | _ => exact h.elim

theorem Orderly.append {after before : List Command} (h : Orderly (after ++ before)) :
    Orderly before := by
  induction after with
  | nil => exact h
  | cons c after ih => exact ih h.2

end Command

def Script.WellFormed (s : Script) : Prop :=
  ∀ before c after, s.commands = before ++ c :: after → c.Follows before

open Command Encode

theorem Script.wellFormed_of_orderly {cs : List Command} (h : Orderly cs) :
    Script.WellFormed ⟨cs.reverse⟩ := by
  intro before c after hsplit
  have hcs : cs = after.reverse ++ c :: before.reverse := by
    rw [← List.reverse_reverse cs, show cs.reverse = before ++ c :: after from hsplit]
    simp
  rw [hcs] at h
  refine h.append.1.congr fun x k => ?_
  rw [sortsOf, sortsOf, List.filterMap_reverse, List.mem_reverse]

namespace Script
variable {s : Script} {x : String} {k : ValueSort}

theorem WellFormed.append {cs ds : List Command} (h : WellFormed ⟨cs ++ ds⟩) : WellFormed ⟨cs⟩ := by
  intro before c after hsplit
  refine h before c (after ++ ds) ?_
  rw [show cs = before ++ c :: after from hsplit, List.append_assoc]
  rfl

theorem WellFormed.follows (h : s.WellFormed) {c : Command} (hc : c ∈ s.commands) :
    ∃ before, before <+: s.commands ∧ c.Follows before := by
  obtain ⟨before, after, hsplit⟩ := List.append_of_mem hc
  exact ⟨before, ⟨c :: after, hsplit.symm⟩, h before c after hsplit⟩

theorem WellFormed.plain (h : s.WellFormed) : ∀ c ∈ s.commands, c.Plain := by
  intro c hc
  obtain ⟨before, -, hfollows⟩ := h.follows hc
  exact hfollows.plain

theorem WellFormed.bool_or_int (h : s.WellFormed) (hx : sortsOf s.commands x k) :
    k = .bool ∨ k = .int := by
  obtain ⟨c, hc, hdeclared⟩ := List.mem_filterMap.1 hx
  obtain ⟨before, -, hfollows⟩ := h.follows hc
  exact (hfollows.declares hdeclared).1

theorem WellFormed.assertion (h : s.WellFormed) {t : Term} (ht : t ∈ s.assertions) :
    t.HasSort (sortsOf s.commands) .bool := by
  obtain ⟨c, hc, hassert⟩ := List.mem_filterMap.1 ht
  obtain ⟨before, hbefore, hfollows⟩ := h.follows hc
  cases c with
  | assert u =>
    obtain rfl := Option.some.inj hassert
    refine Term.HasSort.mono u (fun x _ l hl => ?_) hfollows
    exact (hbefore.filterMap Command.declared).subset hl
  | _ => exact absurd hassert (by simp [Command.assertion])

/-- No name is declared twice. -/
theorem WellFormed.names_nodup (h : s.WellFormed) : (s.declared.map Prod.fst).Nodup := by
  obtain ⟨cs⟩ := s
  induction cs using List.reverseRecOn with
  | nil => simp [declared]
  | append_singleton cs c ih =>
    have hbefore : ((cs.filterMap Command.declared).map Prod.fst).Nodup := ih h.append
    rw [Script.declared, List.filterMap_append, List.map_append]
    cases hc : c.declared with
    | none => simpa [hc] using hbefore
    | some d =>
      have hnew : d.1 ∉ (cs.filterMap Command.declared).map Prod.fst := by
        intro hd
        obtain ⟨⟨y, l⟩, hy, hsame⟩ := List.mem_map.1 hd
        exact ((h cs c [] rfl).declares hc).2 l (hsame ▸ hy)
      refine List.nodup_append.2 ⟨hbefore, by simp [hc], fun y hy z hz => ?_⟩
      obtain rfl : z = d.1 := by simpa [hc] using hz
      exact fun hyz => hnew (hyz ▸ hy)

theorem WellFormed.sort_eq (h : s.WellFormed) (hx : sortsOf s.commands x k) :
    s.sort? x = some k := by
  have hnodup : (s.declared.reverse.map Prod.fst).Nodup := by
    rw [List.map_reverse, List.nodup_reverse]
    exact h.names_nodup
  exact (lookup_eq_some_iff hnodup).2 (List.mem_reverse.2 hx)

theorem WellFormed.consts_declared (h : s.WellFormed)
    (hx : x ∈ s.assertions.flatMap Term.consts) : ∃ l, sortsOf s.commands x l := by
  obtain ⟨t, ht, hxt⟩ := List.mem_flatMap.1 hx
  exact (h.assertion ht).declared t x hxt

theorem WellFormed.sorts (h : s.WellFormed) : Term.AllOfSort s.sort? True .bool s.assertions :=
  Term.AllHaveSort.ofSort (fun _ _ hx => h.sort_eq hx) s.assertions
    (Term.allHaveSort_iff.2 fun _ ht => h.assertion ht)

theorem WellFormed.sorted (h : s.WellFormed) : s.Sorted True where
  commands := h.plain
  declared := by
    intro x hx
    obtain ⟨l, hl⟩ := h.consts_declared hx
    rw [h.sort_eq hl]
    exact (h.bool_or_int hl).imp (congrArg some) (congrArg some)
  sorts := h.sorts

/-- The solver gives up for such reasons only, fails only with the procedure for clauses, and
answers if that returns. -/
structure Answered (s : Script) (reasons : String → Prop) (solve : SatSolver) : Prop where
  answers : solve.Returns → ∃ a, s.decide solve = .ok a
  gives : ∀ reason, s.decide solve = .ok (.unknown reason) → reasons reason
  fails : ∀ error, s.decide solve = .error error →
    ∃ clauses text, solve clauses = .error text ∧ error = .library text

/-- What is encoded is answered, unless an assignment that was found fails. -/
theorem answered_of_encoded {reasons : String → Prop} {f : Encoder} (solve : SatSolver)
    (h : Encoder.ofScript s = .ok f) (hfails : reasons OutOfFragment.notReproduced.message) :
    s.Answered reasons solve where
  answers := by
    intro hsolve
    cases hdecide : s.decide solve with
    | ok a => exact ⟨a, rfl⟩
    | error error =>
      obtain ⟨text, htext, -⟩ := error_of_encoded h hdecide
      obtain ⟨answer, hanswer⟩ := hsolve f.problem.clauses
      exact absurd (htext.symm.trans hanswer) (by simp)
  gives := by
    intro reason hdecide
    rw [decide, h] at hdecide
    dsimp only at hdecide
    split at hdecide
    · exact absurd hdecide (by simp)
    · exact absurd hdecide (by simp)
    · split at hdecide
      · exact absurd hdecide (by simp)
      · exact Answer.unknown.inj (Except.ok.inj hdecide) ▸ hfails
  fails := by
    intro error hdecide
    obtain ⟨text, htext, herror⟩ := error_of_encoded h hdecide
    exact ⟨_, text, htext, herror⟩

theorem answered_of_stop {reasons : String → Prop} {why : OutOfFragment} (solve : SatSolver)
    (h : Encoder.ofScript s = .error (.gaveUp why)) (hwhy : reasons why.message) :
    s.Answered reasons solve := by
  have hdecide : s.decide solve = .ok (.unknown why.message) := by
    rw [decide, h]
    rfl
  refine ⟨fun _ => ⟨_, hdecide⟩, fun reason hreason => ?_, fun error herror => ?_⟩
  · rw [hdecide] at hreason
    exact Answer.unknown.inj (Except.ok.inj hreason) ▸ hwhy
  · exact absurd (hdecide.symm.trans herror) (by simp)

theorem Sorted.answered {arithmetic : Prop} (h : s.Sorted arithmetic) (solve : SatSolver) :
    s.Answered (fun _ => True) solve := by
  rcases h.encoded with ⟨f, hf⟩ | ⟨why, hwhy, hexcused | ⟨y, rfl⟩⟩
  · exact answered_of_encoded solve hf trivial
  · cases hexcused with
    | undefinedValue t => exact answered_of_stop solve hwhy trivial
    | tooManyCases t => exact answered_of_stop solve hwhy trivial
  · exact answered_of_stop solve hwhy trivial

def NoDomainMissing (reason : String) : Prop := ∀ rest, reason ≠ "unbounded integer domain" ++ rest

theorem noDomainMissing_message {why : OutOfFragment} (h : ∀ x, why ≠ .unboundedDomain x) :
    NoDomainMissing why.message := by
  intro rest hmessage
  have hlist := congrArg String.toList hmessage
  unfold OutOfFragment.message at hlist
  split at hlist
  · simp at hlist
  · simp at hlist
  · exact absurd rfl (h _)
  · simp at hlist
  · simp at hlist
  · simp at hlist

theorem InFragment.answered {arithmetic : Prop} (h : s.InFragment arithmetic)
    (solve : SatSolver) : s.Answered NoDomainMissing solve := by
  rcases h.encoded with ⟨f, hf⟩ | ⟨-, why, hwhy, hexcused⟩
  · exact answered_of_encoded solve hf (noDomainMissing_message fun _ => OutOfFragment.noConfusion)
  · cases hexcused with
    | undefinedValue t =>
      exact answered_of_stop solve hwhy (noDomainMissing_message fun _ => OutOfFragment.noConfusion)
    | tooManyCases t =>
      exact answered_of_stop solve hwhy (noDomainMissing_message fun _ => OutOfFragment.noConfusion)

end Script
end Consistency
