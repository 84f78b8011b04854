import Mathlib.Data.Set.Card
import Consistency.Proofs.Exploration.Canonical
import Consistency.Proofs.Exploration.PrunedRun

/-!
# Nothing is lost to subsumption

Whatever order the workers of a level take turns in, an exploration with
subsumption comes to an end, all graphs that it finds are found without it, and
each graph that is found without it is found with it, with the same events and
registers and perhaps fewer constraints.
-/

set_option autoImplicit false

namespace Consistency

structure GraphShape.Relaxes (g h : GraphShape) : Prop where
  events : g.events = h.events
  threadNames : g.threadNames = h.threadNames
  registers : g.registers = h.registers
  constraints : g.constraints ⊆ h.constraints

namespace GlobalState
variable {c : Composition} {p : Precision} {s u : GlobalState}

/-- A state that lies under another ends like it. -/
theorem Under.proper (h : s.Under u) (hs : c.Tidy s) (hu : c.Tidy u) :
    Exploration.proper c s = Exploration.proper c u := by
  have hlen := Under.length hs hu
  have hfinal : ∀ v : GlobalState, Exploration.endsInFinal c v =
      (c.threads.zip (v.locals.map LocalState.location)).all
        fun q => q.1.automaton.isFinal q.2 := by
    intro v
    rw [Exploration.endsInFinal, List.zip_map_right, List.all_map]
    rfl
  rw [Exploration.proper, Exploration.proper, h.isTerminal hs hu, hfinal, hfinal,
    h.map_locals hlen fun l m hlm => hlm.location]

theorem Under.relaxes (hn : c.Numbered) (hs : c.Reachable p s) (hu : c.Reachable p u)
    (h : s.Under u) : (EventGraph.ofState c u).shape.Relaxes (EventGraph.ofState c s).shape where
  events := (EventGraph.shapes_of_perm hn hu h.shapes).symm
  threadNames := rfl
  registers := by
    have hlen := Under.length (Composition.tidy_of_reachable hn hs)
      (Composition.tidy_of_reachable hn hu)
    exact (h.map_locals hlen fun l m hlm => hlm.valuation).symm
  constraints := h.constraints

end GlobalState

namespace Exploration
variable {c : Composition} {p : Precision} {s t : GlobalState}

namespace Pruner
variable {w w' : Pruner} {x x' : Exploration}

theorem exists_turn (x : Exploration) (h : ¬ w.Done) : ∃ w' x', w.Turn c p x w' x' := by
  cases hcandidate : w.candidate with
  | some t =>
    cases hsubsume : x.visited.subsume t with
    | mk covered v =>
      cases covered with
      | true => exact ⟨_, _, .prune hcandidate hsubsume⟩
      | false => exact ⟨_, _, .keep hcandidate hsubsume⟩
  | none =>
    have hworker : ¬ w.toWorker.Done := fun hdone => h ⟨hdone, hcandidate⟩
    cases hpending : w.pending with
    | nil =>
      cases hactions : w.actions with
      | nil => exact absurd ⟨hactions, hpending⟩ hworker
      | cons a as => exact ⟨_, _, .act hactions hpending hcandidate⟩
    | cons t ts =>
      cases hvisit : x.visited.visit t.key with
      | mk isNew v =>
        cases isNew with
        | false => exact ⟨_, _, .meet hpending hcandidate hvisit⟩
        | true => exact ⟨_, _, .discover hpending hcandidate hvisit⟩

def work (c : Composition) (p : Precision) (w : Pruner) : Nat :=
  2 * w.toWorker.work c p + w.candidate.toList.length

theorem Turn.work (h : w.Turn c p x w' x') : w'.work c p < w.work c p := by
  cases h with
  | act hactions hpending hnone =>
    have hwork := (Worker.Turn.act (c := c) (p := p) (x := x) hactions hpending).work
    simp only [Pruner.work, hnone, Option.toList_none, List.length_nil]
    omega
  | meet hpending hnone hvisit =>
    have hwork := (Worker.Turn.meet (c := c) (p := p) hpending hvisit).work
    simp only [Pruner.work, hnone, Option.toList_none, List.length_nil]
    omega
  | discover hpending hnone hvisit =>
    have hwork := (Worker.Turn.discover (c := c) (p := p) hpending hvisit).work
    simp only [Pruner.work, Option.toList_some, List.length_singleton]
    omega
  | prune hsome hsubsume => simp [Pruner.work, hsome]
  | keep hsome hsubsume => simp [Pruner.work, hsome]

end Pruner

namespace Sweep
variable {r r' : Sweep}

theorem exists_step (h : ¬ r.Done) : ∃ r', Step c p r r' := by
  cases r with
  | between x g => exact ⟨_, .enter h⟩
  | within x team g =>
    by_cases hall : ∀ w ∈ team, w.Done
    · exact ⟨_, .leave hall⟩
    · obtain ⟨w, hw, hnot⟩ : ∃ w ∈ team, ¬ w.Done := by simpa using hall
      obtain ⟨before, after, rfl⟩ := List.append_of_mem hw
      obtain ⟨w', x', hturn⟩ := Pruner.exists_turn (c := c) (p := p) x hnot
      exact ⟨_, .turn hturn⟩

def work (c : Composition) (p : Precision) : Sweep → Nat
  | .between _ _ => 0
  | .within _ team _ => (team.map (Pruner.work c p)).sum + 1

def rest (c : Composition) (p : Precision) (total : Nat) (r : Sweep) : Nat × Nat :=
  (total - r.history.explored.length, r.work c p)

theorem explored_subset (r : Sweep) : r.history.explored ⊆ r.held := by
  cases r with
  | between x g => exact List.subset_append_left _ _
  | within x team g => exact List.subset_append_left _ _

theorem length_explored (hfin : (reachableKeys c p).Finite) (h : Reached c p r) :
    r.history.explored.length ≤ hfin.toFinset.card := by
  have hsound := sound_of_reached h
  apply length_le_card hfin
  · have hnodup := hsound.nodup
    cases r with
    | between x g =>
      rw [held, List.map_append] at hnodup
      exact hnodup.of_append_left
    | within x team g =>
      rw [held, List.map_append] at hnodup
      exact hnodup.of_append_left
  · exact fun s hs => hsound.reachable s (explored_subset r hs)

theorem step_rest {total : Nat} (hle : r'.history.explored.length ≤ total) (h : Step c p r r') :
    Prod.Lex (· < ·) (· < ·) (r'.rest c p total) (r.rest c p total) := by
  cases h with
  | @enter x g hne =>
    apply Prod.Lex.left
    have hpos := List.length_pos_iff.2 hne
    simp only [history, List.length_append] at hle ⊢
    omega
  | @turn x x' before after w w' g hturn =>
    apply Prod.Lex.right
    have hwork := hturn.work
    simp only [work, List.map_append, List.map_cons, List.sum_append, List.sum_cons]
    omega
  | leave hdone => exact .right _ (Nat.succ_pos _)

theorem not_infinite (hfin : (reachableKeys c p).Finite) :
    ¬ ∃ f : Nat → Sweep, f 0 = start c ∧ ∀ i, Step c p (f i) (f (i + 1)) := by
  rintro ⟨f, hstart, hf⟩
  have hacc : Acc (fun r' r => Step c p r r') (start c) :=
    acc_of_rest (I := Reached c p) (rest c p hfin.toFinset.card)
      (fun _ _ hs hr => Relation.ReflTransGen.tail hr hs)
      (fun _ _ hs hr => step_rest (length_explored hfin hr) hs) .refl
  exact not_acc_iff_exists_descending_chain.2 ⟨f, hstart, hf⟩ hacc

/-- By induction on the levels that are allowed: more than there are keys are enough. -/
theorem run_reached (hfin : (reachableKeys c p).Finite) {fuel : Nat} {x : Exploration}
    {g : History} (h : Reached c p (.between x g))
    (hfuel : hfin.toFinset.card < fuel + g.explored.length) :
    ∃ r, Reached c p r ∧ r.Done ∧
      run c p true collect fuel x g.found = .ok (some (r.history.found, r.exploration.stats)) := by
  induction fuel generalizing x g with
  | zero =>
    have hlength : g.explored.length ≤ hfin.toFinset.card := length_explored hfin h
    omega
  | succ fuel ih =>
    by_cases hempty : x.frontier = []
    · exact ⟨.between x g, h, hempty, run_end hempty fuel⟩
    · obtain ⟨number, hsteps⟩ := level_steps (c := c) (p := p) (g := g) hempty
      have hpos := List.length_pos_iff.2 hempty
      have hlength : hfin.toFinset.card < fuel + (g.explored ++ x.frontier).length := by
        rw [List.length_append]
        omega
      obtain ⟨r, hr, hdone, hrun⟩ := ih (h.trans hsteps) hlength
      refine ⟨r, hr, hdone, ?_⟩
      rw [run_level (List.isEmpty_eq_false_iff.2 hempty) rfl]
      exact hrun

/-- By induction on the steps to the state: when an exploration is done, every state that can be
reached lies under an explored one. -/
theorem under_explored (hn : c.Numbered) (h : Reached c p r) (hr : r.Done)
    (hs : c.Reachable p s) : ∃ u ∈ r.history.explored, s.Under u := by
  have hsound := sound_of_reached h
  have hclosed := closed_of_reached h
  cases r with
  | within => exact hr.elim
  | between x g =>
    have hempty : x.frontier = [] := hr
    have hmet : (between x g).met = g.explored := by rw [met, hempty, List.append_nil]
    have hheld : (between x g).held = g.explored := by rw [held, hempty, List.append_nil]
    have hvisited : ∀ t : GlobalState, x.visited.keys.contains t.key = true →
        ∃ u ∈ g.explored, t.Under u := by
      intro t ht
      exact hheld ▸ hsound.under t ht
    induction hs with
    | init number =>
      exact ⟨_, hmet ▸ hsound.origin, GlobalState.under_of_key (Composition.init_key c number 0)⟩
    | @step s t a number hs ht ih =>
      obtain ⟨u, hu, hsu⟩ := ih
      have hreach := hsound.reachable u (hheld ▸ hu)
      have htidy := Composition.tidy_of_reachable hn hs
      have hutidy := Composition.tidy_of_reachable hn hreach
      -- The explored state has a successor by this action too, so that it is enabled.
      obtain ⟨t', ht', -⟩ := hsu.exists_trans htidy hutidy ht number
      obtain ⟨hlive, ha⟩ := Composition.mem_enabled_of_trans hutidy ht'
      rcases hclosed u hu hlive a ha with ⟨w, hw, -⟩ | ⟨number', hnumber'⟩
      · exact absurd hw List.not_mem_nil
      · obtain ⟨t'', ht'', htt''⟩ := hsu.exists_trans htidy hutidy ht number'
        rcases hnumber' t'' ht'' with ⟨w, hw, -⟩ | hv
        · exact absurd hw List.not_mem_nil
        · obtain ⟨d, hd, htd⟩ := hvisited t'' hv
          exact ⟨d, hd, htt''.trans htd⟩

structure Listed (c : Composition) (r : Sweep) : Prop where
  terminals : r.exploration.stats.terminals = r.history.explored.countP (proper c)
  found : r.history.found = (r.history.explored.filter (proper c)).zipIdx.map fun (s, i) =>
    ⟨i, .ofState c s⟩

theorem listed_of_reached (h : Reached c p r) : Listed c r := by
  refine h.invariant (I := Listed c) ⟨rfl, rfl⟩ fun r r' hs hr => ?_
  cases hs with
  | @enter x g hne =>
    have hterminals : x.stats.terminals = g.explored.countP (proper c) := hr.terminals
    constructor
    · show x.stats.terminals + (x.terminalStates.filter (endsInFinal c)).length =
        (g.explored ++ x.frontier).countP (proper c)
      rw [List.countP_append, Tour.countP_proper x.frontier, hterminals]
      rfl
    · exact Tour.found_append x hr.found hterminals
  | leave hdone => exact ⟨hr.terminals, hr.found⟩
  | turn hturn => exact ⟨(congrArg Stats.terminals hturn.stats).trans hr.terminals, hr.found⟩

theorem mem_found {found : List TerminalGraph} {explored : List GlobalState}
    (h : found = (explored.filter (proper c)).zipIdx.map fun (s, i) => ⟨i, .ofState c s⟩)
    (g : EventGraph) : (∃ t ∈ found, t.graph = g) ↔
      ∃ s ∈ explored, proper c s = true ∧ .ofState c s = g := by
  subst h
  constructor
  · rintro ⟨t, ht, rfl⟩
    obtain ⟨⟨s, i⟩, hs, rfl⟩ := List.mem_map.1 ht
    obtain ⟨hs, hproper⟩ := List.mem_filter.1 (List.fst_mem_of_mem_zipIdx hs)
    exact ⟨s, hs, hproper, rfl⟩
  · rintro ⟨s, hs, hproper, rfl⟩
    obtain ⟨i, hi⟩ := List.mem_iff_getElem?.1 (List.mem_filter.2 ⟨hs, hproper⟩)
    exact ⟨⟨i, .ofState c s⟩,
      List.mem_map.2 ⟨(s, i), List.mem_zipIdx_iff_getElem?.2 hi, rfl⟩, rfl⟩

/-- What was recorded is what was met, but for the initial state. -/
theorem records_of_reached (h : Reached c p r) : ∃ log, r.exploration.visited.Records log ∧
    r.met.Perm ((c.init 0).1 :: log) := by
  refine h.invariant (I := fun r => ∃ log, r.exploration.visited.Records log ∧
    r.met.Perm ((c.init 0).1 :: log)) ⟨[], .visit .empty rfl, .refl _⟩ fun r r' hs hr => ?_
  obtain ⟨log, hlog, hmet⟩ := hr
  cases hs with
  | @enter x g hne =>
    refine ⟨log, hlog, ?_⟩
    show (g.explored ++ x.frontier ++ (x.liveStates.map (Pruner.start c)).flatMap _).Perm _
    rw [flatMap_start fun _ => rfl, List.append_nil]
    exact hmet
  | @leave x team g hdone =>
    exact ⟨log, hlog, ((Tour.sortByKey_perm _).append_left g.explored).trans hmet⟩
  | @turn x x' before after w w' g hturn =>
    have hsame : w'.kept = w.kept →
        (within x' (before ++ w' :: after) g).met.Perm ((c.init 0).1 :: log) := fun hw =>
      (List.Perm.of_eq (met_turn hw)).trans hmet
    cases hturn with
    | act => exact ⟨log, hlog, hsame rfl⟩
    | meet hpending hnone hvisit => exact ⟨log, hlog.visit hvisit, hsame rfl⟩
    | discover hpending hnone hvisit => exact ⟨log, hlog.visit hvisit, hsame rfl⟩
    | prune hsome hsubsume => exact ⟨log, hlog.covered hsubsume, hsame rfl⟩
    | keep hsome hsubsume =>
      refine ⟨_ :: log, hlog.added hsubsume, ?_⟩
      exact (met_concat _ _ _ _ _ rfl).trans ((hmet.cons _).trans (.swap _ _ _))

/-- Each graph that is found is that of a proper end that can be reached. -/
theorem exists_end (h : Reached c p r) {t : TerminalGraph} (ht : t ∈ r.history.found) :
    ∃ s, c.Reachable p s ∧ proper c s = true ∧ Tour.endShape c s = t.graph.shape := by
  obtain ⟨s, hs, hproper, hgraph⟩ := (mem_found (listed_of_reached h).found _).1 ⟨t, ht, rfl⟩
  exact ⟨s, (sound_of_reached h).reachable s (explored_subset r hs), hproper,
    congrArg EventGraph.shape hgraph⟩

/-- For each proper end that can be reached, one that demands no more is found. -/
theorem exists_relaxing (hn : c.Numbered) (h : Reached c p r) (hr : r.Done)
    (hs : c.Reachable p s) (hproper : proper c s = true) :
    ∃ t ∈ r.history.found, t.graph.shape.Relaxes (Tour.endShape c s) := by
  obtain ⟨u, hu, hsu⟩ := under_explored hn h hr hs
  have hreach := (sound_of_reached h).reachable u (explored_subset r hu)
  have hend := hsu.proper (Composition.tidy_of_reachable hn hs)
    (Composition.tidy_of_reachable hn hreach)
  obtain ⟨t, ht, hgraph⟩ := (mem_found (listed_of_reached h).found _).2
    ⟨u, hu, hend.symm.trans hproper, rfl⟩
  refine ⟨t, ht, ?_⟩
  rw [hgraph]
  exact hsu.relaxes hn hs hreach

/-- Each graph that is found is found without subsumption. -/
theorem exists_found (hn : c.Numbered) (h : Reached c p r) {q : Tour} (h' : Tour.Reached c p q)
    (hq : q.Done) {t : TerminalGraph} (ht : t ∈ r.history.found) :
    ∃ u ∈ q.history.found, t.graph.shape = u.graph.shape := by
  obtain ⟨s, hreach, hproper, hshape⟩ := exists_end h ht
  obtain ⟨u, hu, hkey⟩ := Tour.explored_of_reachable hn h' hq hreach
  obtain ⟨t', ht', hgraph⟩ := (mem_found (Tour.counted_of_reached hn h').found _).2
    ⟨u, hu, (proper_of_key hkey).trans hproper, rfl⟩
  refine ⟨t', ht', ?_⟩
  rw [← hshape, hgraph]
  exact (EventGraph.shape_of_key hn hreach hkey).symm

/-- What explorations with subsumption find, compared with those without it. -/
structure Lossless (c : Composition) (p : Precision) : Prop where
  progress : ∀ r, Reached c p r → ¬ r.Done → ∃ r', Step c p r r'
  ends : ¬ ∃ f : Nat → Sweep, f 0 = start c ∧ ∀ i, Step c p (f i) (f (i + 1))
  /-- Nothing else is found. -/
  sound : ∀ (r : Sweep) (q : Tour), Reached c p r → r.Done → Tour.Reached c p q → q.Done →
    ∀ t ∈ r.history.found, ∃ u ∈ q.history.found, t.graph.shape = u.graph.shape
  /-- Nothing is missed. -/
  complete : ∀ (r : Sweep) (q : Tour), Reached c p r → r.Done → Tour.Reached c p q → q.Done →
    ∀ u ∈ q.history.found, ∃ t ∈ r.history.found, t.graph.shape.Relaxes u.graph.shape
  /-- The explorations that expand one state after the other are among them. -/
  sequential : ∀ fuel, (reachableKeys c p).ncard < fuel →
    (∃ r, Reached c p r ∧ r.Done ∧ run c p true collect fuel (Exploration.start c) [] =
      .ok (some (r.history.found, r.exploration.stats))) ∧
    ∃ q, Tour.Reached c p q ∧ q.Done ∧ run c p false collect fuel (Exploration.start c) [] =
      .ok (some (q.history.found, q.exploration.stats))
  /-- All that is met is recorded, but for the initial state. -/
  records : ∀ r, Reached c p r → ∃ log, r.exploration.visited.Records log ∧
    r.met.Perm ((c.init 0).1 :: log)
  /-- A state is left out exactly if one that was recorded covers it. -/
  subsumes : ∀ (v : Visited) (log : List GlobalState), v.Records log →
    ∀ s, (v.subsume s).1 = true ↔ ∃ t ∈ log, s.coveredBy t = true

/-- Subsumption loses no execution. -/
theorem lossless_of_finite (automata : List Automaton) (initial : List (String × Int))
    (p : Precision) (hfin : (reachableKeys (.ofAutomata automata initial) p).Finite) :
    Lossless (.ofAutomata automata initial) p := by
  have hn := Composition.ofAutomata_numbered automata initial
  constructor
  · exact fun r _ hr => exists_step hr
  · exact not_infinite hfin
  · exact fun r q h _ h' hr' t ht => exists_found hn h h' hr' ht
  · intro r q h hr h' _ t ht
    obtain ⟨s, hs, hproper, hgraph⟩ :=
      (mem_found (Tour.counted_of_reached hn h').found _).1 ⟨t, ht, rfl⟩
    have hreach := (Tour.once_of_reached h').reachable s (List.mem_append_left _ hs)
    rw [← hgraph]
    exact exists_relaxing hn h hr hreach hproper
  · intro fuel hfuel
    rw [Set.ncard_eq_toFinset_card _ hfin] at hfuel
    exact ⟨run_reached hfin .refl hfuel, Tour.run_reached hfin .refl hfuel⟩
  · exact fun r h => records_of_reached h
  · exact fun v log hlog => hlog.subsume_iff

def detour : Automaton :=
  (Automaton.straightLine "P" [.load "r" "x", .assume (.eq (.const "r") (.int 0))]).connect 1 2 .skip

theorem lossless_of_finite_detour :
    (reachableKeys (.ofAutomata [detour] []) ⟨.empty, some 2⟩).Finite ∧
      Lossless (.ofAutomata [detour] []) ⟨.empty, some 2⟩ := by
  have hfin : (reachableKeys (.ofAutomata [detour] []) ⟨.empty, some 2⟩).Finite :=
    finite_of_stepBound (Composition.ofAutomata_numbered [detour] []) rfl
  exact ⟨hfin, lossless_of_finite [detour] [] ⟨.empty, some 2⟩ hfin⟩

end Sweep
end Exploration
end Consistency
