import Consistency.Exploration
import Consistency.Proofs.Composition.Cover

/-!
# The levels of a run

A run that ends does so with any number of levels that is large enough, and
while a level is expanded no counter goes back.
-/

set_option autoImplicit false

namespace Consistency.Exploration
variable {c : Composition} {p : Precision} {subsumption : Bool} {x : Exploration}

structure Grows (a b : Stats) : Prop where
  states : b.states = a.states
  terminals : b.terminals = a.terminals
  queried : b.queried = a.queried
  subsumed : a.subsumed ≤ b.subsumed
  duplicates : a.duplicates ≤ b.duplicates
  blocked : a.blocked ≤ b.blocked
  levels : b.levels = a.levels

theorem Grows.refl (a : Stats) : Grows a a := ⟨rfl, rfl, rfl, le_rfl, le_rfl, le_rfl, rfl⟩

theorem Grows.trans {a b d : Stats} (h : Grows a b) (h' : Grows b d) : Grows a d :=
  ⟨h'.states.trans h.states, h'.terminals.trans h.terminals, h'.queried.trans h.queried,
    h.subsumed.trans h'.subsumed, h.duplicates.trans h'.duplicates, h.blocked.trans h'.blocked,
    h'.levels.trans h.levels⟩

theorem foldl_grows {σ α : Type} (view : σ → Stats) (f : σ → α → σ)
    (h : ∀ z a, Grows (view z) (view (f z a))) (as : List α) (z : σ) :
    Grows (view z) (view (as.foldl f z)) := by
  induction as generalizing z with
  | nil => exact .refl _
  | cons a as ih => exact (h z a).trans (ih (f z a))

theorem record_grows (x : Exploration) (s : GlobalState) :
    Grows x.stats (x.record subsumption s).stats := by
  unfold record
  repeat' split
  · exact ⟨rfl, rfl, rfl, le_rfl, Nat.le_succ _, le_rfl, rfl⟩
  · exact ⟨rfl, rfl, rfl, Nat.le_succ _, le_rfl, le_rfl, rfl⟩
  · exact .refl _
  · exact .refl _

theorem expandState_grows (x : Exploration) (s : GlobalState) :
    Grows x.stats (expandState c p subsumption x s).stats := by
  have hact : ∀ (z : Exploration × Bool) a,
      Grows z.1.stats (act c p subsumption s z a).1.stats := fun z a =>
    foldl_grows Exploration.stats (record subsumption) record_grows
      (c.trans p s a z.1.allocated).1 { z.1 with allocated := (c.trans p s a z.1.allocated).2 }
  have hmoved := foldl_grows (fun z : Exploration × Bool => z.1.stats) _ hact (c.enabled s)
    (x, false)
  unfold expandState
  simp only
  split
  · exact hmoved
  · exact hmoved.trans ⟨rfl, rfl, rfl, le_rfl, le_rfl, Nat.le_succ _, rfl⟩

theorem expand_grows (x : Exploration) : Grows x.stats (x.expand c p subsumption).stats :=
  foldl_grows Exploration.stats (expandState c p subsumption) expandState_grows x.liveStates
    { x with frontier := [] }

/-- All that has to be known of an explored state: its successors lie under states that satisfy
`K`, and its graph, if it has one, was asked about and found to satisfy `Q`. -/
structure Explored (c : Composition) (p : Precision) (Q : TerminalGraph → Prop)
    (K : GlobalState → Prop) (s : GlobalState) : Prop where
  reachable : c.Reachable p s
  successors : s.isTerminal = false → ∀ a ∈ c.enabled s, ∃ number,
    ∀ t ∈ (c.trans p s a number).1, ∃ u, K u ∧ t.Under u
  asked : s.isTerminal = true → endsInFinal c s = true → ∃ index, Q ⟨index, .ofState c s⟩

theorem run_end {σ ε : Type} {visit : σ → List TerminalGraph → Except ε (σ × Bool)} {acc : σ}
    (h : x.frontier = []) (fuel : Nat) :
    run c p subsumption visit (fuel + 1) x acc = .ok (some (acc, x.stats)) := by
  rw [run, h]
  rfl

theorem run_level {σ ε : Type} {visit : σ → List TerminalGraph → Except ε (σ × Bool)}
    {acc after : σ} (h : x.frontier.isEmpty = false)
    (hv : visit acc (x.terminals c) = .ok (after, false)) (fuel : Nat) :
    run c p subsumption visit (fuel + 1) x acc =
      run c p subsumption visit fuel ((x.enter c).expand c p subsumption) after := by
  rw [run, h]
  simp only [hv, bind, Except.bind, Bool.false_eq_true, if_false]

theorem run_stop {σ ε : Type} {visit : σ → List TerminalGraph → Except ε (σ × Bool)}
    {acc after : σ} (h : x.frontier.isEmpty = false)
    (hv : visit acc (x.terminals c) = .ok (after, true)) (fuel : Nat) :
    run c p subsumption visit (fuel + 1) x acc = .ok (some (after, (x.enter c).stats)) := by
  rw [run, h]
  simp only [hv, bind, Except.bind, Bool.false_eq_true, if_false, if_true]
  rfl

theorem run_error {σ ε : Type} {visit : σ → List TerminalGraph → Except ε (σ × Bool)}
    {acc : σ} {e : ε} (h : x.frontier.isEmpty = false)
    (hv : visit acc (x.terminals c) = .error e) (fuel : Nat) :
    run c p subsumption visit (fuel + 1) x acc = .error e := by
  rw [run, h]
  simp only [hv, bind, Except.bind, Bool.false_eq_true, if_false]

/-- Levels that are left over do not matter. -/
theorem run_mono {σ ε : Type} {visit : σ → List TerminalGraph → Except ε (σ × Bool)}
    {k fuel : Nat} {acc last : σ} {stats : Stats} (hk : k ≤ fuel)
    (h : run c p subsumption visit k x acc = .ok (some (last, stats))) :
    run c p subsumption visit fuel x acc = .ok (some (last, stats)) := by
  induction k generalizing fuel x acc with
  | zero => exact absurd h (by simp [run])
  | succ k ih =>
    obtain ⟨n, rfl⟩ : ∃ n, fuel = n + 1 := ⟨fuel - 1, by omega⟩
    unfold run at h ⊢
    by_cases hempty : x.frontier.isEmpty = true
    · rwa [if_pos hempty] at h ⊢
    · rw [if_neg hempty] at h ⊢
      obtain ⟨⟨after, stop⟩, hv, h⟩ := bind_eq_ok.1 h
      refine bind_eq_ok.2 ⟨(after, stop), hv, ?_⟩
      cases stop with
      | true => exact h
      | false => exact ih (by omega) h

/-- One level more than are counted is enough. -/
theorem run_levels {σ ε : Type} {visit : σ → List TerminalGraph → Except ε (σ × Bool)}
    {k : Nat} {acc last : σ} {stats : Stats}
    (h : run c p subsumption visit k x acc = .ok (some (last, stats))) :
    x.stats.levels ≤ stats.levels ∧
      run c p subsumption visit (stats.levels - x.stats.levels + 1) x acc =
        .ok (some (last, stats)) := by
  induction k generalizing x acc with
  | zero => exact absurd h (by simp [run])
  | succ k ih =>
    by_cases hempty : x.frontier = []
    · rw [run_end hempty] at h
      obtain ⟨rfl, rfl⟩ := Prod.mk.inj (Option.some.inj (Except.ok.inj h))
      exact ⟨le_rfl, run_end hempty _⟩
    · have hne : x.frontier.isEmpty = false := List.isEmpty_eq_false_iff.2 hempty
      have henter : (x.enter c).stats.levels = x.stats.levels + 1 := rfl
      cases hv : visit acc (x.terminals c) with
      | error e =>
        rw [run_error hne hv] at h
        exact absurd h (by simp)
      | ok after =>
        obtain ⟨after, stop⟩ := after
        cases stop with
        | true =>
          rw [run_stop hne hv] at h
          obtain ⟨rfl, rfl⟩ := Prod.mk.inj (Option.some.inj (Except.ok.inj h))
          exact ⟨by omega, run_stop hne hv _⟩
        | false =>
          rw [run_level hne hv] at h
          obtain ⟨hle, hrun⟩ := ih h
          rw [(expand_grows (x.enter c)).levels, henter] at hle hrun
          have hfuel : stats.levels - x.stats.levels = stats.levels - (x.stats.levels + 1) + 1 := by
            omega
          rw [hfuel, run_level hne hv]
          exact ⟨by omega, hrun⟩

end Consistency.Exploration
