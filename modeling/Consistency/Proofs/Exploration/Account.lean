import Consistency.Proofs.Exploration.Schedule

/-!
# What is counted

Whatever order the workers take turns in, the numbers that an exploration ends
with are those of the states that it explored and of their successors.
-/

set_option autoImplicit false

namespace Consistency.Exploration
variable {c : Composition} {p : Precision} {s t : GlobalState}

def proper (c : Composition) (s : GlobalState) : Bool := s.isTerminal && endsInFinal c s

def successors (c : Composition) (p : Precision) (s : GlobalState) : Nat :=
  ((c.enabled s).map fun a => (c.trans p s a 0).1.length).sum

def stuck (c : Composition) (p : Precision) (s : GlobalState) : Bool :=
  if s.isTerminal then !endsInFinal c s else successors c p s == 0

/-- A terminal state has no successors. -/
theorem successors_terminal (hs : c.Tidy s) (h : s.isTerminal = true) : successors c p s = 0 := by
  apply List.sum_eq_zero
  intro n hn
  obtain ⟨a, -, rfl⟩ := List.mem_map.1 hn
  rw [List.length_eq_zero_iff, List.eq_nil_iff_forall_not_mem]
  intro t ht
  have hlive := (Composition.mem_enabled_of_trans hs ht).1
  rw [h] at hlive
  exact absurd hlive (by decide)

theorem endsInFinal_of_key (h : s.key = t.key) : endsInFinal c s = endsInFinal c t := by
  rw [endsInFinal, endsInFinal, (GlobalState.key_eq_iff.1 h).1]

theorem proper_of_key (h : s.key = t.key) : proper c s = proper c t := by
  rw [proper, proper, GlobalState.isTerminal_of_key h, endsInFinal_of_key h]

theorem successors_of_key (h : s.key = t.key) : successors c p s = successors c p t := by
  rw [successors, successors, Composition.enabled_of_key h]
  exact congrArg List.sum (List.map_congr_left fun a _ => Composition.length_trans p h a 0 0)

theorem stuck_of_key (h : s.key = t.key) : stuck c p s = stuck c p t := by
  rw [stuck, stuck, GlobalState.isTerminal_of_key h, endsInFinal_of_key h, successors_of_key h]

/-- A state is a proper end, or it is stuck, or it has successors. -/
theorem fate (hs : c.Tidy s) :
    (proper c s = true ∧ stuck c p s = false ∧ successors c p s = 0) ∨
    (proper c s = false ∧ stuck c p s = true ∧ successors c p s = 0) ∨
    (proper c s = false ∧ stuck c p s = false ∧ 0 < successors c p s) := by
  by_cases hterm : s.isTerminal = true
  · have hnone := successors_terminal (p := p) hs hterm
    by_cases hfinal : endsInFinal c s = true
    · exact .inl (by simp [proper, stuck, hterm, hfinal, hnone])
    · exact .inr (.inl (by simp [proper, stuck, hterm, hfinal, hnone]))
  · by_cases hnone : successors c p s = 0
    · exact .inr (.inl (by simp [proper, stuck, hterm, hnone]))
    · exact .inr (.inr (by simp [proper, stuck, hterm, hnone, Nat.pos_of_ne_zero hnone]))

/-- The successors that were looked up, wait to be looked up or are to be generated are all there
are, and each that was looked up was met before or is new. -/
structure Worker.Accounts (c : Composition) (p : Precision) (w : Worker) : Prop where
  total : w.generated + w.pending.length +
    (w.actions.map fun a => (c.trans p w.state a 0).1.length).sum = successors c p w.state
  split : w.generated = w.duplicates + w.fresh.length

theorem Worker.start_accounts (c : Composition) (p : Precision) (s : GlobalState) :
    (Worker.start c s).Accounts c p := ⟨by simp [Worker.start, successors], rfl⟩

theorem Worker.Accounts.turn {x x' : Exploration} {w w' : Worker} (hturn : w.Turn c p x w' x')
    (h : w.Accounts c p) : w'.Accounts c p := by
  obtain ⟨htotal, hsplit⟩ := h
  cases hturn with
  | @act a as hactions hpending =>
    have hlength := Composition.length_trans (c := c) (s := w.state) p rfl a x.allocated 0
    rw [hactions, hpending, List.map_cons, List.sum_cons, List.length_nil] at htotal
    refine ⟨?_, hsplit⟩
    simp only
    omega
  | meet hpending hvisit =>
    rw [hpending, List.length_cons] at htotal
    refine ⟨?_, ?_⟩
    · simp only
      omega
    · simp only
      omega
  | discover hpending hvisit =>
    rw [hpending, List.length_cons] at htotal
    refine ⟨?_, ?_⟩
    · simp only
      omega
    · simp only [List.length_append, List.length_singleton]
      omega

theorem Worker.Accounts.generated_eq {w : Worker} (h : w.Accounts c p) (hdone : w.Done) :
    w.generated = successors c p w.state := by
  have htotal := h.total
  rw [hdone.1, hdone.2] at htotal
  simpa using htotal

namespace Tour

def busy (r : Tour) : List GlobalState := r.team.map Worker.state

structure Counted (c : Composition) (p : Precision) (r : Tour) : Prop where
  workers : ∀ w ∈ r.team, w.Accounts c p
  states : r.exploration.stats.states = r.history.explored.length
  terminals : r.exploration.stats.terminals = r.history.explored.countP (proper c)
  blocked : r.exploration.stats.blocked + r.busy.countP (fun s => successors c p s == 0) =
    r.history.explored.countP (stuck c p)
  duplicates : r.exploration.stats.duplicates + (r.team.map Worker.duplicates).sum +
    r.met.length = r.history.generated + (r.team.map Worker.generated).sum + 1
  generated : r.history.generated + (r.busy.map (successors c p)).sum =
    (r.history.explored.map (successors c p)).sum
  found : r.history.found = (r.history.explored.filter (proper c)).zipIdx.map fun (s, i) =>
    ⟨i, .ofState c s⟩
  queried : r.exploration.stats.queried = 0
  subsumed : r.exploration.stats.subsumed = 0

theorem start_counted (c : Composition) (p : Precision) : Counted c p (start c) where
  workers := by simp [start, team]
  states := rfl
  terminals := rfl
  blocked := rfl
  duplicates := rfl
  generated := rfl
  found := rfl
  queried := rfl
  subsumed := rfl

/-- Each successor that was looked up is a duplicate or waits. -/
theorem duplicates_add_fresh {team : List Worker} (h : ∀ w ∈ team, w.Accounts c p) :
    (team.map Worker.duplicates).sum + (team.flatMap Worker.fresh).length =
      (team.map Worker.generated).sum := by
  induction team with
  | nil => rfl
  | cons w team ih =>
    rw [List.forall_mem_cons] at h
    have hrest := ih h.2
    have hsplit := h.1.split
    simp only [List.map_cons, List.sum_cons, List.flatMap_cons, List.length_append]
    omega

theorem Counted.turn {x x' : Exploration} {before after : List Worker} {w w' : Worker} {g : History}
    (hturn : Worker.Turn c p w x w' x') (h : Counted c p (.within x (before ++ w :: after) g)) :
    Counted c p (.within x' (before ++ w' :: after) g) := by
  have hworkers := forall_mem_turn h.workers (Worker.Accounts.turn hturn)
  obtain ⟨hstats, hstate⟩ := hturn.frame
  have hbusy : busy (.within x' (before ++ w' :: after) g) =
      busy (.within x (before ++ w :: after) g) := by
    simp only [busy, team, List.map_append, List.map_cons, hstate]
  obtain ⟨hold, hstates, hterminals, hblocked, hduplicates, hgenerated, hfound, hqueried,
    hsubsumed⟩ := h
  refine ⟨hworkers, ?_, ?_, ?_, ?_, ?_, hfound, ?_, ?_⟩
  · exact (congrArg Stats.states hstats).trans hstates
  · exact (congrArg Stats.terminals hstats).trans hterminals
  · rw [hbusy]
    exact (congrArg (Stats.blocked · + _) hstats).trans hblocked
  · have hafter := duplicates_add_fresh hworkers
    have hbefore := duplicates_add_fresh hold
    simp only [exploration, team, met, waiting, history, List.length_append] at *
    rw [hstats]
    omega
  · rw [hbusy]
    exact hgenerated
  · exact (congrArg Stats.queried hstats).trans hqueried
  · exact (congrArg Stats.subsumed hstats).trans hsubsumed

/-- Terminal states are stuck at once, others when they turn out to have no successors. -/
theorem countP_stuck (states : List GlobalState) : states.countP (stuck c p) =
    ((states.filter GlobalState.isTerminal).length -
      ((states.filter GlobalState.isTerminal).filter (endsInFinal c)).length) +
        (states.filter fun s => !s.isTerminal).countP fun s => successors c p s == 0 := by
  induction states with
  | nil => rfl
  | cons s states ih =>
    have hle := List.length_filter_le (endsInFinal c) (states.filter GlobalState.isTerminal)
    rw [List.countP_cons, ih]
    cases hterm : s.isTerminal with
    | false =>
      simp only [List.filter_cons, List.countP_cons, hterm, stuck, Bool.false_eq_true, if_false,
        Bool.not_false, if_true]
      omega
    | true =>
      cases hfinal : endsInFinal c s with
      | false =>
        simp only [List.filter_cons, hterm, hfinal, stuck, Bool.not_true, Bool.not_false,
          Bool.false_eq_true, if_true, if_false, List.length_cons]
        omega
      | true =>
        simp only [List.filter_cons, hterm, hfinal, stuck, Bool.not_true, Bool.false_eq_true,
          if_true, if_false, List.length_cons]
        omega

/-- The numbers of terminal graphs go on from level to level. -/
theorem terminals_eq (c : Composition) (x : Exploration) : x.terminals c =
    ((x.frontier.filter (proper c)).zipIdx x.stats.terminals).map fun (s, i) =>
      ⟨i, .ofState c s⟩ := by
  have hfilter : x.terminalStates.filter (endsInFinal c) = x.frontier.filter (proper c) := by
    rw [terminalStates, List.filter_filter]
    exact List.filter_congr fun s _ => Bool.and_comm _ _
  rw [terminals, hfilter, List.zipIdx_eq_map_add (i := x.stats.terminals), List.map_map]
  rfl

/-- The graphs of a level come after those of the states that were explored before. -/
theorem found_append {found : List TerminalGraph} {explored : List GlobalState} (x : Exploration)
    (hfound : found = (explored.filter (proper c)).zipIdx.map fun (s, i) => ⟨i, .ofState c s⟩)
    (hterminals : x.stats.terminals = explored.countP (proper c)) :
    found ++ x.terminals c = ((explored ++ x.frontier).filter (proper c)).zipIdx.map fun (s, i) =>
      ⟨i, .ofState c s⟩ := by
  have hlength : x.stats.terminals = 0 + (explored.filter (proper c)).length := by
    rw [Nat.zero_add, ← List.countP_eq_length_filter]
    exact hterminals
  rw [List.filter_append, List.zipIdx_append, List.map_append, hfound, terminals_eq, hlength]

theorem countP_proper (states : List GlobalState) : states.countP (proper c) =
    ((states.filter GlobalState.isTerminal).filter (endsInFinal c)).length := by
  rw [List.filter_filter, List.countP_eq_length_filter]
  exact congrArg List.length (List.filter_congr fun s _ => Bool.and_comm _ _)

/-- Only states that are not terminal have successors. -/
theorem sum_successors_live {states : List GlobalState} (h : ∀ s ∈ states, c.Tidy s) :
    ((states.filter fun s => !s.isTerminal).map (successors c p)).sum =
      (states.map (successors c p)).sum := by
  induction states with
  | nil => rfl
  | cons s states ih =>
    rw [List.forall_mem_cons] at h
    cases hterm : s.isTerminal with
    | false => simp [hterm, ih h.2]
    | true => simp [hterm, ih h.2, successors_terminal h.1 hterm]

theorem busy_start (c : Composition) (states : List GlobalState) :
    (states.map (Worker.start c)).map Worker.state = states := by
  rw [List.map_map]
  exact List.map_id _

theorem sum_start (c : Composition) (states : List GlobalState) {f : Worker → Nat}
    (hf : ∀ s, f (Worker.start c s) = 0) : ((states.map (Worker.start c)).map f).sum = 0 := by
  apply List.sum_eq_zero
  intro n hn
  obtain ⟨s, -, rfl⟩ := List.mem_map.1 (List.map_map ▸ hn)
  exact hf s

theorem Counted.enter {x : Exploration} {g : History} (htidy : ∀ s ∈ x.frontier, c.Tidy s)
    (h : Counted c p (.between x g)) :
    Counted c p (.within (x.enter c) (x.liveStates.map (Worker.start c))
      { g with explored := g.explored ++ x.frontier, found := g.found ++ x.terminals c }) where
  workers := by
    intro w hw
    obtain ⟨s, -, rfl⟩ := List.mem_map.1 hw
    exact Worker.start_accounts c p s
  states := by
    show x.stats.states + x.frontier.length = (g.explored ++ x.frontier).length
    have hstates : x.stats.states = g.explored.length := h.states
    rw [List.length_append, hstates]
  terminals := by
    show x.stats.terminals + (x.terminalStates.filter (endsInFinal c)).length =
      (g.explored ++ x.frontier).countP (proper c)
    have hterminals : x.stats.terminals = g.explored.countP (proper c) := h.terminals
    rw [List.countP_append, countP_proper x.frontier, hterminals]
    rfl
  blocked := by
    have hblocked : x.stats.blocked + 0 = g.explored.countP (stuck c p) := h.blocked
    show x.stats.blocked + (x.terminalStates.length -
      (x.terminalStates.filter (endsInFinal c)).length) +
        ((x.liveStates.map (Worker.start c)).map Worker.state).countP _ =
          (g.explored ++ x.frontier).countP (stuck c p)
    rw [busy_start, List.countP_append, countP_stuck x.frontier, ← hblocked, Nat.add_assoc]
    rfl
  duplicates := by
    have hduplicates : x.stats.duplicates + 0 + (g.explored ++ x.frontier).length =
        g.generated + 0 + 1 := h.duplicates
    have hmet : ((x.liveStates.map (Worker.start c)).flatMap Worker.fresh) = [] :=
      flatMap_fresh_start c x.liveStates
    show x.stats.duplicates + ((x.liveStates.map (Worker.start c)).map Worker.duplicates).sum +
      ((g.explored ++ x.frontier) ++
        (x.liveStates.map (Worker.start c)).flatMap Worker.fresh).length =
          g.generated + ((x.liveStates.map (Worker.start c)).map Worker.generated).sum + 1
    rw [hmet, List.append_nil, sum_start c x.liveStates fun _ => rfl,
      sum_start c x.liveStates fun _ => rfl]
    exact hduplicates
  generated := by
    have hgenerated : g.generated + 0 = (g.explored.map (successors c p)).sum := h.generated
    show g.generated + (((x.liveStates.map (Worker.start c)).map Worker.state).map _).sum =
      ((g.explored ++ x.frontier).map (successors c p)).sum
    rw [busy_start, List.map_append, List.sum_append, ← hgenerated, ← sum_successors_live htidy]
    rfl
  found := by
    have hterminals : x.stats.terminals = g.explored.countP (proper c) := h.terminals
    exact found_append x h.found hterminals
  queried := h.queried
  subsumed := h.subsumed

theorem Counted.leave {x : Exploration} {team : List Worker} {g : History}
    (hdone : ∀ w ∈ team, w.Done) (h : Counted c p (.within x team g)) :
    Counted c p (.between (gather x team)
      { g with generated := g.generated + (team.map Worker.generated).sum }) := by
  have hall : ∀ w ∈ team, w.generated = successors c p w.state := fun w hw =>
    (h.workers w hw).generated_eq (hdone w hw)
  refine ⟨fun w hw => absurd hw List.not_mem_nil, h.states, h.terminals, ?_, ?_, ?_, h.found,
    h.queried, h.subsumed⟩
  · have hcount : team.countP (fun w => w.generated == 0) =
        (team.map Worker.state).countP fun s => successors c p s == 0 := by
      rw [List.countP_map]
      exact List.countP_congr fun w hw => by rw [Function.comp, hall w hw]
    show x.stats.blocked + team.countP (fun w => w.generated == 0) + 0 = _
    rw [hcount]
    exact h.blocked
  · have hlength := ((sortByKey_perm (team.flatMap Worker.fresh)).append_left g.explored).length_eq
    show x.stats.duplicates + (team.map Worker.duplicates).sum + 0 +
      (g.explored ++ sortByKey (team.flatMap Worker.fresh)).length = _
    rw [hlength]
    exact h.duplicates
  · have hsum : (team.map Worker.generated).sum =
        ((team.map Worker.state).map (successors c p)).sum := by
      rw [List.map_map]
      exact congrArg List.sum (List.map_congr_left hall)
    show g.generated + (team.map Worker.generated).sum + 0 = _
    rw [hsum]
    exact h.generated

theorem Counted.step (hn : c.Numbered) {r r' : Tour} (hs : Step c p r r') (ho : Once c p r)
    (h : Counted c p r) : Counted c p r' := by
  cases hs with
  | turn hturn => exact h.turn hturn
  | @enter x g hne =>
    exact h.enter fun s hs =>
      Composition.tidy_of_reachable hn (ho.reachable s (List.mem_append_right _ hs))
  | leave hdone => exact h.leave hdone

theorem counted_of_reached (hn : c.Numbered) {r : Tour} (h : Reached c p r) : Counted c p r := by
  refine (h.invariant (I := fun r => Once c p r ∧ Counted c p r)
    ⟨start_once c p, start_counted c p⟩ fun r r' hs hr => ?_).2
  exact ⟨hr.1.step hs, hr.2.step hn hs hr.1⟩

end Tour
end Consistency.Exploration
