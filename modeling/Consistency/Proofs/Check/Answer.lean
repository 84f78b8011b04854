import Mathlib
import Consistency.Check
import Consistency.Proofs.Composition.Key
import Consistency.Proofs.Exploration.Arrival
import Consistency.Proofs.Query.Shape

/-!
# Answers

What a query about a graph comes to, and what is left of it in the result of a
check. Graphs of one shape get one answer, up to the number of the graph and the
identities of its events.
-/

set_option autoImplicit false

namespace Consistency
open Query

namespace CheckResult
variable {r : CheckResult}

def add (r : CheckResult) (q : QueryResult) : CheckResult :=
  let r := { r with stats := { r.stats with queried := r.stats.queried + 1 } }
  match q with
  | .sat s => { r with solutions := r.solutions ++ [s] }
  | .unsat => r
  | .unknown u => { r with unknowns := r.unknowns ++ [u] }
  | .failed e => { r with failures := r.failures ++ [e] }

theorem verdict_eq_allowed : r.verdict = .allowed ↔ r.solutions ≠ [] := by
  unfold verdict
  cases r.solutions with
  | nil =>
    simp only [List.isEmpty_nil, Bool.not_true, Bool.false_eq_true, if_false, ne_eq, not_true,
      iff_false]
    split <;> decide
  | cons s ss => simp

theorem verdict_eq_forbidden :
    r.verdict = .forbidden ↔ r.solutions = [] ∧ r.unknowns = [] ∧ r.failures = [] := by
  unfold verdict
  cases r.solutions with
  | nil =>
    simp only [List.isEmpty_nil, Bool.not_true, Bool.false_eq_true, if_false, true_and,
      Bool.and_eq_true, List.isEmpty_iff]
    split <;> simp [*]
  | cons s ss => simp

end CheckResult

namespace QueryResult

def solution? : QueryResult → Option Solution
  | .sat s => some s
  | .unsat | .unknown _ | .failed _ => none

def unknown? : QueryResult → Option UnknownQuery
  | .unknown u => some u
  | .sat _ | .unsat | .failed _ => none

def failure? : QueryResult → Option CheckError
  | .failed e => some e
  | .sat _ | .unsat | .unknown _ => none

theorem solution?_eq_some {q : QueryResult} {s : Solution} : q.solution? = some s ↔ q = .sat s := by
  cases q <;> simp [solution?]

theorem unknown?_eq_some {q : QueryResult} {u : UnknownQuery} :
    q.unknown? = some u ↔ q = .unknown u := by
  cases q <;> simp [unknown?]

theorem failure?_eq_some {q : QueryResult} {e : CheckError} :
    q.failure? = some e ↔ q = .failed e := by
  cases q <;> simp [failure?]

end QueryResult

namespace CheckResult

def ofAnswers (answers : List QueryResult) : CheckResult := answers.foldl add .empty

/-- A list of reports is that of the answers that each has its reports from. -/
theorem foldl_add {α : Type} (view : CheckResult → List α) (pick : QueryResult → Option α)
    (h : ∀ r q, view (r.add q) = view r ++ (pick q).toList) (answers : List QueryResult)
    (r : CheckResult) : view (answers.foldl add r) = view r ++ answers.filterMap pick := by
  induction answers generalizing r with
  | nil => simp
  | cons q qs ih =>
    rw [List.foldl_cons, ih, h, List.append_assoc]
    cases hq : pick q <;> simp [hq]

variable (answers : List QueryResult)

theorem solutions_ofAnswers :
    (ofAnswers answers).solutions = answers.filterMap QueryResult.solution? :=
  foldl_add solutions _ (fun r q => by cases q <;> simp [add, QueryResult.solution?]) answers empty

theorem unknowns_ofAnswers :
    (ofAnswers answers).unknowns = answers.filterMap QueryResult.unknown? :=
  foldl_add unknowns _ (fun r q => by cases q <;> simp [add, QueryResult.unknown?]) answers empty

theorem failures_ofAnswers :
    (ofAnswers answers).failures = answers.filterMap QueryResult.failure? :=
  foldl_add failures _ (fun r q => by cases q <;> simp [add, QueryResult.failure?]) answers empty

theorem queried_add (r : CheckResult) (q : QueryResult) :
    (r.add q).stats.queried = r.stats.queried + 1 := by
  cases q <;> rfl

theorem queried_ofAnswers : (ofAnswers answers).stats.queried = answers.length := by
  have hfold : ∀ r : CheckResult,
      (answers.foldl add r).stats.queried = r.stats.queried + answers.length := by
    induction answers with
    | nil => exact fun r => rfl
    | cons q qs ih =>
      intro r
      rw [List.foldl_cons, ih, queried_add, List.length_cons]
      omega
  exact (hfold empty).trans (Nat.zero_add _)

theorem ofAnswers_append (qs : List QueryResult) :
    ofAnswers (answers ++ qs) = qs.foldl add (ofAnswers answers) :=
  List.foldl_append

structure PartOf (r full : CheckResult) : Prop where
  solutions : r.solutions.Sublist full.solutions
  unknowns : r.unknowns.Sublist full.unknowns
  failures : r.failures.Sublist full.failures
  stats : r.stats.AtMost full.stats

theorem PartOf.refl (r : CheckResult) : r.PartOf r := ⟨.refl _, .refl _, .refl _, .refl _⟩

end CheckResult

/-- The same but for the number of the terminal state and the identities of events. -/
structure Solution.Alike (s t : Solution) : Prop where
  assignment : s.assignment = t.assignment
  shape : s.execution.graph.shape = t.execution.graph.shape
  execution : s.execution = { t.execution with graph := s.execution.graph }

inductive QueryResult.Alike : QueryResult → QueryResult → Prop
  | sat {s t : Solution} (h : s.Alike t) : Alike (.sat s) (.sat t)
  | unsat : Alike .unsat .unsat
  | unknown {u v : UnknownQuery} (description : u.description = v.description)
      (reason : u.reason = v.reason) : Alike (.unknown u) (.unknown v)
  | failed (e f : CheckError) : Alike (.failed e) (.failed f)

def QueryResult.Same (q q' : QueryResult) : Prop :=
  q = q' ∨ ∃ s t, q = .sat s ∧ q' = .sat t ∧ s.terminal = t.terminal ∧ s.Alike t

structure CheckResult.Alike (r r' : CheckResult) : Prop where
  solutions : List.Forall₂ (fun s t : Solution => s.terminal = t.terminal ∧ s.Alike t)
    r.solutions r'.solutions
  unknowns : r.unknowns = r'.unknowns
  failures : r.failures = r'.failures
  stats : r.stats = r'.stats

theorem CheckResult.Alike.refl (r : CheckResult) : r.Alike r :=
  ⟨List.forall₂_same.2 fun _ _ => ⟨rfl, rfl, rfl, rfl⟩, rfl, rfl, rfl⟩

theorem CheckResult.Alike.allowed {r r' : CheckResult} (h : r.Alike r') :
    r.verdict = .allowed ↔ r'.verdict = .allowed := by
  rw [verdict_eq_allowed, verdict_eq_allowed, ← List.length_pos_iff, ← List.length_pos_iff,
    h.solutions.length_eq]

namespace Check
variable {c : Composition} {m : MemoryModel} {o : Outcome} {p : Precision} {config : CheckConfig}
  {backend : Backend} {ask : TerminalGraph → QueryResult} {t u : TerminalGraph}
  {found found' : List TerminalGraph} {stats : Stats} {r : CheckResult}

theorem encoded_ok {g : EventGraph} {script : Script}
    (h : (encode g m o).toOption = some script) : encode g m o = .ok script := by
  cases hx : encode g m o with
  | error e => simp [hx, Except.toOption] at h
  | ok s => simpa [hx, Except.toOption] using h

/-- All that the query about a graph can lead to. -/
theorem query_cases (backend : Backend) {script : Script}
    (hscript : encode t.graph m o = .ok script) :
    (∃ found, backend script = .ok (.sat found) ∧
      query backend m o t = witness t o (found.getD ⟨[]⟩)) ∨
    (backend script = .ok .unsat ∧ query backend m o t = .unsat) ∨
    (∃ reason, backend script = .ok (.unknown reason) ∧
      query backend m o t = .unknown ⟨t.index, t.graph.render, reason⟩) ∨
    ∃ e, backend script = .error e ∧
      query backend m o t = .failed (.solver t.index t.graph.render e) := by
  rcases hb : backend script with e | found | _ | reason
  · exact .inr (.inr (.inr ⟨e, rfl, by simp only [query, hscript, hb]⟩))
  · exact .inl ⟨found, rfl, by simp only [query, hscript, hb]⟩
  · exact .inr (.inl ⟨rfl, by simp only [query, hscript, hb]⟩)
  · exact .inr (.inr (.inl ⟨reason, rfl, by simp only [query, hscript, hb]⟩))

theorem witness_cases (t : TerminalGraph) (o : Outcome) (w : Assignment) :
    witness t o w = .sat ⟨t.index, .ofAssignment t.graph w, w⟩ ∨
      witness t o w = .unknown ⟨t.index, t.graph.render, "witness does not exhibit the outcome"⟩ := by
  unfold witness
  simp only
  split
  · exact .inl rfl
  · exact .inr rfl

theorem script_of_unsat (h : query backend m o t = .unsat) :
    ∃ script, encode t.graph m o = .ok script ∧ backend script = .ok .unsat := by
  cases hscript : encode t.graph m o with
  | error e => exact absurd h (by simp [query, hscript])
  | ok script =>
    refine ⟨script, rfl, ?_⟩
    rcases query_cases backend hscript with
      ⟨found, -, hquery⟩ | ⟨hunsat, -⟩ | ⟨reason, -, hquery⟩ | ⟨e, -, hquery⟩
    · rcases witness_cases t o (found.getD ⟨[]⟩) with hw | hw
      · exact absurd (h.symm.trans (hquery.trans hw)) (by simp)
      · exact absurd (h.symm.trans (hquery.trans hw)) (by simp)
    · exact hunsat
    · exact absurd (h.symm.trans hquery) (by simp)
    · exact absurd (h.symm.trans hquery) (by simp)

theorem script_of_sat {s : Solution} (h : query backend m o t = .sat s) : ∃ script found,
    encode t.graph m o = .ok script ∧ backend script = .ok (.sat found) ∧
      s = ⟨t.index, .ofAssignment t.graph (found.getD ⟨[]⟩), found.getD ⟨[]⟩⟩ := by
  cases hscript : encode t.graph m o with
  | error e => exact absurd h (by simp [query, hscript])
  | ok script =>
    rcases query_cases backend hscript with
      ⟨found, hfound, hquery⟩ | ⟨-, hquery⟩ | ⟨reason, -, hquery⟩ | ⟨e, -, hquery⟩
    · refine ⟨script, found, rfl, hfound, ?_⟩
      rcases witness_cases t o (found.getD ⟨[]⟩) with hw | hw
      · exact QueryResult.sat.inj (h.symm.trans (hquery.trans hw))
      · exact absurd (h.symm.trans (hquery.trans hw)) (by simp)
    · exact absurd (h.symm.trans hquery) (by simp)
    · exact absurd (h.symm.trans hquery) (by simp)
    · exact absurd (h.symm.trans hquery) (by simp)

theorem holdsIn_graph (o : Outcome) (x : Execution) (g : EventGraph) :
    o.holdsIn { x with graph := g } = o.holdsIn x := by
  refine congrArg (List.all o.atoms) (funext fun a => ?_)
  cases a <;> rfl

/-- Graphs of one shape get one answer. -/
theorem query_alike (backend : Backend) (m : MemoryModel) (o : Outcome)
    (h : t.graph.shape = u.graph.shape) :
    (query backend m o t).Alike (query backend m o u) := by
  have hrender : t.graph.render = u.graph.render :=
    EventGraph.render_eq (congrArg GraphShape.events h) (congrArg GraphShape.threadNames h)
  unfold query
  rw [encode_eq h]
  cases encode u.graph m o with
  | error e => exact .failed _ _
  | ok script =>
    simp only
    cases backend script with
    | error e => exact .failed _ _
    | ok answer =>
      cases answer with
      | unsat => exact .unsat
      | unknown reason => exact .unknown hrender rfl
      | sat found =>
        have hexecution := Execution.ofAssignment_eq h (found.getD ⟨[]⟩)
        simp only [witness, hexecution, holdsIn_graph]
        split
        · exact .sat ⟨rfl, h, rfl⟩
        · exact .unknown hrender rfl

theorem query_same (backend : Backend) (m : MemoryModel) (o : Outcome)
    (h : t.graph.shape = u.graph.shape) (hindex : t.index = u.index) :
    (query backend m o t).Same (query backend m o u) := by
  have hrender : t.graph.render = u.graph.render :=
    EventGraph.render_eq (congrArg GraphShape.events h) (congrArg GraphShape.threadNames h)
  have hencode : encode t.graph m o = encode u.graph m o := encode_eq h m o
  cases hscript : encode u.graph m o with
  | error e => exact .inl (by simp only [query, hencode, hscript])
  | ok script =>
    rw [hscript] at hencode
    have hexecution := fun w => Execution.ofAssignment_eq h w
    unfold query
    simp only [hencode, hscript, hrender, hindex]
    split
    · simp only [witness, hexecution, holdsIn_graph, hrender, hindex]
      split
      · exact .inr ⟨_, _, rfl, rfl, rfl, rfl, h, rfl⟩
      · exact .inl rfl
    · exact .inl rfl
    · exact .inl rfl
    · exact .inl rfl

/-- All graphs that an exploration finds are asked about and all answers recorded. -/
def whole (ask : TerminalGraph → QueryResult) (found : List TerminalGraph) (stats : Stats) :
    CheckResult :=
  let r := CheckResult.ofAnswers (found.map ask)
  { r with stats := { stats with queried := r.stats.queried } }

theorem mem_solutions_whole {s : Solution} :
    s ∈ (whole ask found stats).solutions ↔ ∃ t ∈ found, ask t = .sat s := by
  rw [whole, CheckResult.solutions_ofAnswers, List.filterMap_map]
  simp [List.mem_filterMap, QueryResult.solution?_eq_some]

theorem mem_unknowns_whole {q : UnknownQuery} :
    q ∈ (whole ask found stats).unknowns ↔ ∃ t ∈ found, ask t = .unknown q := by
  rw [whole, CheckResult.unknowns_ofAnswers, List.filterMap_map]
  simp [List.mem_filterMap, QueryResult.unknown?_eq_some]

theorem mem_failures_whole {e : CheckError} :
    e ∈ (whole ask found stats).failures ↔ ∃ t ∈ found, ask t = .failed e := by
  rw [whole, CheckResult.failures_ofAnswers, List.filterMap_map]
  simp [List.mem_filterMap, QueryResult.failure?_eq_some]

theorem forall₂_filterMap {α β : Type} {R : α → α → Prop} {S : β → β → Prop} {f : α → Option β}
    (h : ∀ a b, R a b → Option.Rel S (f a) (f b)) {as bs : List α} (hall : List.Forall₂ R as bs) :
    List.Forall₂ S (as.filterMap f) (bs.filterMap f) := by
  induction hall with
  | nil => exact .nil
  | @cons a b as bs hab _ ih =>
    have hrel := h a b hab
    generalize hx : f a = x, hy : f b = y at hrel
    cases hrel with
    | none => rwa [List.filterMap_cons_none hx, List.filterMap_cons_none hy]
    | some hst =>
      rw [List.filterMap_cons_some hx, List.filterMap_cons_some hy]
      exact .cons hst ih

theorem filterMap_of_same {β : Type} {f : QueryResult → Option β} (hf : ∀ s, f (.sat s) = none)
    {as bs : List QueryResult} (h : List.Forall₂ QueryResult.Same as bs) :
    as.filterMap f = bs.filterMap f := by
  refine List.forall₂_eq_eq_eq ▸ forall₂_filterMap (fun a b hab => ?_) h
  rcases hab with rfl | ⟨s, t, rfl, rfl, -, -⟩
  · cases f a with
    | none => exact .none
    | some x => exact .some rfl
  · rw [hf, hf]
    exact .none

/-- Graphs of the same shapes under the same numbers get the same results. -/
theorem whole_alike (backend : Backend) (m : MemoryModel) (o : Outcome) (stats : Stats)
    (h : (found.map fun t => (t.graph.shape, t.index)) =
      found'.map fun t => (t.graph.shape, t.index)) :
    (whole (query backend m o) found stats).Alike (whole (query backend m o) found' stats) := by
  have hsame : List.Forall₂ QueryResult.Same (found.map (query backend m o))
      (found'.map (query backend m o)) := by
    rw [List.forall₂_map_left_iff, List.forall₂_map_right_iff]
    rw [← List.forall₂_eq_eq_eq, List.forall₂_map_left_iff, List.forall₂_map_right_iff] at h
    refine h.imp fun t u htu => ?_
    obtain ⟨hshape, hindex⟩ := Prod.mk.inj htu
    exact query_same backend m o hshape hindex
  constructor
  · rw [whole, whole, CheckResult.solutions_ofAnswers, CheckResult.solutions_ofAnswers]
    refine forall₂_filterMap (fun q q' hq => ?_) hsame
    rcases hq with rfl | ⟨s, t, rfl, rfl, hterminal, halike⟩
    · cases q with
      | sat s => exact .some ⟨rfl, rfl, rfl, rfl⟩
      | unsat => exact .none
      | unknown u => exact .none
      | failed e => exact .none
    · exact .some ⟨hterminal, halike⟩
  · rw [whole, whole, CheckResult.unknowns_ofAnswers, CheckResult.unknowns_ofAnswers]
    exact filterMap_of_same (fun _ => rfl) hsame
  · rw [whole, whole, CheckResult.failures_ofAnswers, CheckResult.failures_ofAnswers]
    exact filterMap_of_same (fun _ => rfl) hsame
  · have hlength := hsame.length_eq
    simp only [whole, CheckResult.queried_ofAnswers, hlength]

structure Clear (r : CheckResult) : Prop where
  solutions : r.solutions = []
  unknowns : r.unknowns = []
  failures : r.failures = []

theorem clear_of_forbidden (h : r.verdict = .forbidden) : Clear r := by
  obtain ⟨hsolutions, hunknowns, hfailures⟩ := CheckResult.verdict_eq_forbidden.1 h
  exact ⟨hsolutions, hunknowns, hfailures⟩

theorem record_clear {q : QueryResult} {after : CheckResult} {stop : Bool}
    (h : record config r q = .ok (after, stop)) (hc : Clear after) :
    Clear r ∧ stop = false ∧ q = .unsat := by
  cases q with
  | sat s =>
    obtain ⟨rfl, -⟩ := Prod.mk.inj (Except.ok.inj h)
    exact absurd hc.solutions (by simp)
  | unsat =>
    obtain ⟨rfl, rfl⟩ := Prod.mk.inj (Except.ok.inj h)
    exact ⟨⟨hc.solutions, hc.unknowns, hc.failures⟩, rfl, rfl⟩
  | unknown u =>
    obtain ⟨rfl, -⟩ := Prod.mk.inj (Except.ok.inj h)
    exact absurd hc.unknowns (by simp)
  | failed e =>
    simp only [record] at h
    split at h
    · exact absurd h (by simp)
    · obtain ⟨rfl, -⟩ := Prod.mk.inj (Except.ok.inj h)
      exact absurd hc.failures (by simp)

end Check

structure CheckConfig.Exhaustive (config : CheckConfig) : Prop where
  first : config.first = false
  eager : config.eager = false

namespace Check
variable {c : Composition} {p : Precision} {config : CheckConfig}
  {ask : TerminalGraph → QueryResult} {found : List TerminalGraph} {stats : Stats}

def thorough : CheckConfig := ⟨false, false, false, 1, .builtin, 0⟩

theorem thorough_exhaustive : thorough.Exhaustive := ⟨rfl, rfl⟩

theorem record_exhaustive (hx : config.Exhaustive) (r : CheckResult) (q : QueryResult) :
    record config r q = .ok (r.add q, false) := by
  cases q with
  | sat s => rw [record, hx.first, CheckResult.add]
  | unsat => rfl
  | unknown u => rfl
  | failed e =>
    simp only [record, hx.eager]
    rfl

theorem level_exhaustive (hx : config.Exhaustive) (ask : TerminalGraph → QueryResult)
    (r : CheckResult) (found : List TerminalGraph) :
    level config ask r found = .ok ((found.map ask).foldl CheckResult.add r, false) := by
  induction found generalizing r with
  | nil => rfl
  | cons t ts ih =>
    rw [level, record_exhaustive hx, List.map_cons, List.foldl_cons, ← ih]
    rfl

/-- By induction on the levels: a check that does not stop records all that a run collects. -/
theorem run_exhaustive (hx : config.Exhaustive) (ask : TerminalGraph → QueryResult)
    {subsumption : Bool} {fuel : Nat} {x : Exploration} {ts : List TerminalGraph}
    (h : Exploration.run c p subsumption Exploration.collect fuel x ts =
      .ok (some (found, stats))) :
    Exploration.run c p subsumption (level config ask) fuel x (.ofAnswers (ts.map ask)) =
      .ok (some (.ofAnswers (found.map ask), stats)) := by
  induction fuel generalizing x ts with
  | zero => exact absurd h (by simp [Exploration.run])
  | succ fuel ih =>
    by_cases hempty : x.frontier = []
    · rw [Exploration.run_end hempty] at h
      obtain ⟨rfl, rfl⟩ := Prod.mk.inj (Option.some.inj (Except.ok.inj h))
      exact Exploration.run_end hempty fuel
    · have hmore := List.isEmpty_eq_false_iff.2 hempty
      rw [Exploration.run_level hmore rfl] at h
      rw [Exploration.run_level hmore (level_exhaustive hx ask _ _),
        ← CheckResult.ofAnswers_append, ← List.map_append]
      exact ih h

theorem explore_exhaustive (hx : config.Exhaustive) (ask : TerminalGraph → QueryResult)
    (h : Exploration.run c p config.subsumption Exploration.collect Exploration.levelLimit
      (Exploration.start c) [] = .ok (some (found, stats))) :
    explore c p config ask = .ok (some (whole ask found stats)) := by
  have hrun := run_exhaustive hx ask h
  rw [explore]
  show (Exploration.run c p config.subsumption (level config ask) Exploration.levelLimit
    (Exploration.start c) (.ofAnswers ([].map ask)) >>= _) = _
  rw [hrun]
  rfl

end Check
end Consistency
