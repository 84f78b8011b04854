import Consistency.Proofs.Check.Accounted

/-!
# Checks that stop early

A check may stop at the first execution found or at the first query that fails.
Until it stops it does what the check that never stops does over the same
exploration: the graphs it came to are the first of those found, its counters are
no further, and the answers it recorded are answers of the other check. If no
answer is one to stop at, both return the same.

With subsumption and several jobs two checks may explore a program differently.
Otherwise whatever they explore comes to the same, so that they can be compared
one by one.
-/

set_option autoImplicit false

namespace Consistency

def CheckConfig.inMode (config : CheckConfig) (first eager : Bool) : CheckConfig :=
  { config with first := first, eager := eager }

namespace Check
open Exploration (Journey)
variable {c : Composition} {p : Precision} {config : CheckConfig}
  {ask : TerminalGraph → QueryResult} {j j' : Journey} {r r' : CheckResult} {stats : Stats}
  {history inquiries : List Inquiry} {raised : Bool} {found ts : List TerminalGraph}
  {e : CheckError}

def Inquiry.answer? (i : Inquiry) : Option QueryResult :=
  match i.progress with
  | .answered q => some q
  | .waiting | .asked | .skipped => none

def replies (history : List Inquiry) : List QueryResult := history.filterMap Inquiry.answer?

theorem replies_append (is js : List Inquiry) : replies (is ++ js) = replies is ++ replies js :=
  List.filterMap_append

theorem replies_eq (h : ∀ i ∈ history, i.progress = .answered (ask i.terminal)) :
    replies history = (history.map Inquiry.terminal).map ask := by
  rw [List.map_map, replies, ← List.filterMap_eq_map]
  refine List.filterMap_congr fun i hi => ?_
  rw [Inquiry.answer?, h i hi]
  rfl

theorem replies_sublist
    (h : ∀ i ∈ history, i.progress = .answered (ask i.terminal) ∨ i.progress = .skipped) :
    (replies history).Sublist ((history.map Inquiry.terminal).map ask) := by
  rw [List.map_map]
  refine filterMap_sublist_map fun i hi => ?_
  rw [Inquiry.answer?]
  rcases h i hi with hp | hp
  · rw [hp]
    exact .inr rfl
  · rw [hp]
    exact .inl rfl

theorem failure?_of_record {q : QueryResult} {stop : Bool}
    (h : record config r q = .ok (r', stop)) (heager : config.eager = true) :
    q.failure? = none := by
  cases q with
  | sat s => rfl
  | unsat => rfl
  | unknown u => rfl
  | failed e' => exact absurd h (by simp [record, heager])

/-- The answers are recorded in the order of the graphs, and none of them is an error. -/
theorem tally_ok (h : tally config r inquiries = .ok r') :
    r' = (replies inquiries).foldl CheckResult.add r ∧
      (config.eager = true → ∀ q ∈ replies inquiries, q.failure? = none) := by
  induction inquiries generalizing r with
  | nil => exact ⟨(Except.ok.inj h).symm, fun _ q hq => absurd hq List.not_mem_nil⟩
  | cons i is ih =>
    rw [tally_cons] at h
    obtain ⟨mid, hnote, hrest⟩ := bind_eq_ok.1 h
    obtain ⟨hresult, hquiet⟩ := ih hrest
    have hskip : i.answer? = none → mid = r → r' = (replies (i :: is)).foldl CheckResult.add r ∧
        (config.eager = true → ∀ q ∈ replies (i :: is), q.failure? = none) := by
      rintro hnone rfl
      rw [replies, List.filterMap_cons_none hnone]
      exact ⟨hresult, hquiet⟩
    obtain ⟨t, progress⟩ := i
    cases progress with
    | waiting => exact hskip rfl (Except.ok.inj hnote).symm
    | asked => exact hskip rfl (Except.ok.inj hnote).symm
    | skipped => exact hskip rfl (Except.ok.inj hnote).symm
    | answered q =>
      rw [note_answered] at hnote
      cases hrecord : record config r q with
      | error e =>
        rw [hrecord] at hnote
        exact absurd hnote (by simp [Except.map])
      | ok after =>
        rw [hrecord] at hnote
        obtain rfl := Except.ok.inj hnote
        refine ⟨?_, fun heager => ?_⟩
        · rw [hresult, (added_of_record hrecord).1]
          rfl
        · exact List.forall_mem_cons.2 ⟨failure?_of_record hrecord heager, hquiet heager⟩

namespace Course

structure Finished (config : CheckConfig) (ask : TerminalGraph → QueryResult) (j : Journey)
    (r : CheckResult) : Prop where
  done : j.Done
  result : r = .ofAnswers (j.history.found.map ask)
  quiet : ∀ t ∈ j.history.found, config.stopsAt (ask t) = false

structure Stopped (config : CheckConfig) (ask : TerminalGraph → QueryResult) (r : CheckResult)
    (history : List Inquiry) : Prop where
  result : r = .ofAnswers (replies history)
  cause : ∃ i ∈ history, i.Stops config ask
  noError : config.eager = true → ∀ q ∈ replies history, q.failure? = none

def Follows (config : CheckConfig) (ask : TerminalGraph → QueryResult) : Course → Prop
  | .exploring _ r history | .asking _ r history _ _ => r = .ofAnswers (replies history) ∧
      (∀ i ∈ history, config.stopsAt (ask i.terminal) = false) ∧
        (config.eager = true → ∀ q ∈ replies history, q.failure? = none)
  | .done j r history => Finished config ask j r ∨ Stopped config ask r history
  | .failed _ _ => True

/-- Answers added to those recorded before. -/
theorem recorded {after : CheckResult} (hr : r = .ofAnswers (replies history))
    (hquiet : config.eager = true → ∀ q ∈ replies history, q.failure? = none)
    (htally : tally config r inquiries = .ok after) :
    after = .ofAnswers (replies (history ++ inquiries)) ∧
      (config.eager = true → ∀ q ∈ replies (history ++ inquiries), q.failure? = none) := by
  obtain ⟨hafter, hrest⟩ := tally_ok htally
  rw [replies_append, CheckResult.ofAnswers_append, ← hr]
  exact ⟨hafter, fun heager => List.forall_mem_append.2 ⟨hquiet heager, hrest heager⟩⟩

theorem Follows.step {s s' : Course} (hs : Step c p config ask s s')
    (hsound : Sound c p config ask s) (h : s.Follows config ask) : s'.Follows config ask := by
  cases hs with
  | @finish j r history hdone =>
    obtain ⟨hr, hquiet, -⟩ := h
    have hbetween : Between c p config ask j r history := hsound
    rw [replies_eq hbetween.answered, hbetween.found] at hr
    refine .inl ⟨hdone, hr, ?_⟩
    rw [← hbetween.found]
    exact List.forall_mem_map.2 hquiet
  | enter => exact h
  | work => exact h
  | turn => exact h
  | @proceed j r after history inquiries hsettled htally =>
    obtain ⟨hr, hquiet, hno⟩ := h
    have hasking : Asking c p config ask j r history inquiries false := hsound
    obtain ⟨hafter, hnone⟩ := recorded hr hno htally
    refine ⟨hafter, List.forall_mem_append.2 ⟨hquiet, fun i hi => ?_⟩, hnone⟩
    have hfair := hasking.shared.fair i hi
    rcases hfair.settled (hsettled i hi) with hanswered | ⟨-, hraised⟩
    · rw [Inquiry.Fair, hanswered] at hfair
      exact Bool.eq_false_iff.2 fun hstops => Bool.noConfusion (hfair.2 hstops)
    · exact Bool.noConfusion hraised
  | @stop j r after history inquiries hsettled htally =>
    obtain ⟨hr, -, hno⟩ := h
    have hasking : Asking c p config ask j r history inquiries true := hsound
    obtain ⟨hafter, hnone⟩ := recorded hr hno htally
    obtain ⟨i, hi, hstops⟩ := hasking.shared.cause rfl
    exact .inr ⟨hafter, ⟨i, List.mem_append_right _ hi, hstops⟩, hnone⟩
  | fail => trivial

theorem follows_of_reached {s : Course} (h : Reached c p config ask s) :
    s.Follows config ask := by
  induction h with
  | refl => exact ⟨rfl, by simp, by simp [replies]⟩
  | tail hreached hs ih => exact ih.step hs (sound_of_reached hreached)

theorem Finished.conclude_eq (h : Finished config ask j r) :
    conclude j r = whole ask j.history.found j.exploration.stats := by
  obtain ⟨-, rfl, -⟩ := h
  rfl

/-- What was recorded when the check stopped is recorded by the whole check too. -/
theorem Stopped.partOf (h : Stopped config ask r history) (hdone : Done c p config ask j r history)
    (hfound : j.history.found <+: found) (hstats : j.exploration.stats.AtMost stats) :
    (conclude j r).PartOf (whole ask found stats) := by
  have hsub : (replies history).Sublist (found.map ask) := by
    refine (replies_sublist hdone.settled).trans ?_
    rw [hdone.found]
    exact hfound.sublist.map ask
  have hqueried : (conclude j r).stats.queried ≤ (whole ask found stats).stats.queried := by
    show r.stats.queried ≤ (CheckResult.ofAnswers (found.map ask)).stats.queried
    rw [h.result, CheckResult.queried_ofAnswers, CheckResult.queried_ofAnswers]
    exact hsub.length_le
  refine ⟨?_, ?_, ?_, { hstats with queried := hqueried }⟩
  · show r.solutions.Sublist (CheckResult.ofAnswers (found.map ask)).solutions
    rw [h.result, CheckResult.solutions_ofAnswers, CheckResult.solutions_ofAnswers]
    exact hsub.filterMap _
  · show r.unknowns.Sublist (CheckResult.ofAnswers (found.map ask)).unknowns
    rw [h.result, CheckResult.unknowns_ofAnswers, CheckResult.unknowns_ofAnswers]
    exact hsub.filterMap _
  · show r.failures.Sublist (CheckResult.ofAnswers (found.map ask)).failures
    rw [h.result, CheckResult.failures_ofAnswers, CheckResult.failures_ofAnswers]
    exact hsub.filterMap _

/-- An answer that the check stopped at is recorded. -/
theorem Stopped.cause_mem (h : Stopped config ask r history) :
    ∃ q ∈ replies history, config.stopsAt q = true := by
  obtain ⟨i, hi, hanswered, hstops⟩ := h.cause
  refine ⟨_, List.mem_filterMap.2 ⟨i, hi, ?_⟩, hstops⟩
  rw [Inquiry.answer?, hanswered]

end Course

/-- A check over the journey, or over as much of it as it takes until it stops, returns this. -/
def ReturnsOver (c : Composition) (p : Precision) (config : CheckConfig)
    (ask : TerminalGraph → QueryResult) (j : Journey) (a : Except CheckError CheckResult) : Prop :=
  ∃ s, Course.Reached c p config ask s ∧ s.result? = some a ∧
    Relation.ReflTransGen (Journey.Step c p config.jobs) s.journey j

theorem eq_of_steps (h : j.Done)
    (hsteps : Relation.ReflTransGen (Journey.Step c p config.jobs) j j') : j' = j := by
  rcases Relation.ReflTransGen.cases_head hsteps with heq | ⟨_, hstep, -⟩
  · exact heq.symm
  · exact absurd h hstep.not_done

variable {a : Except CheckError CheckResult} {full : CheckResult}

/-- All that a check over a journey that is done may return: it finished, it stopped or it
failed. -/
theorem returnsOver_cases (h : ReturnsOver c p config ask j a) :
    (a = .ok (whole ask j.history.found j.exploration.stats) ∧
      ∀ t ∈ j.history.found, config.stopsAt (ask t) = false) ∨
    (∃ i r history, a = .ok (conclude i r) ∧ Course.Stopped config ask r history ∧
      (conclude i r).PartOf (whole ask j.history.found j.exploration.stats)) ∨
    ∃ e ∈ (whole ask j.history.found j.exploration.stats).failures,
      a = .error e ∧ config.eager = true := by
  obtain ⟨s, hreached, hresult, hsteps⟩ := h
  have hsound := Course.sound_of_reached hreached
  obtain ⟨hfound, hstats⟩ := Journey.onward_of_steps hsteps
  cases s with
  | exploring => exact absurd hresult (by simp [Course.result?])
  | asking => exact absurd hresult (by simp [Course.result?])
  | done i r history =>
    obtain rfl := Option.some.inj hresult
    rcases Course.follows_of_reached hreached with hfinished | hstopped
    · obtain rfl : j = i := eq_of_steps hfinished.done hsteps
      exact .inl ⟨congrArg _ hfinished.conclude_eq, hfinished.quiet⟩
    · exact .inr (.inl ⟨i, r, history, rfl, hstopped, hstopped.partOf hsound hfound hstats⟩)
  | failed i e =>
    obtain rfl := Option.some.inj hresult
    obtain ⟨-, heager, t, ht, hfailed⟩ := hsound
    exact .inr (.inr ⟨e, mem_failures_whole.2 ⟨t, hfound.subset ht, hfailed⟩, rfl, heager⟩)

theorem exists_returnsOver (config : CheckConfig) (ask : TerminalGraph → QueryResult)
    (h : Journey.Reached c p config.jobs config.subsumption j) (hdone : j.Done) :
    ∃ a, ReturnsOver c p config ask j a := by
  rcases inOrder_cases config ask h with ⟨r, hr⟩ | ⟨i, hsteps, ⟨r, hstops⟩ | ⟨e, hfails⟩⟩
  · obtain ⟨history, hreached⟩ := Course.reached_of_inOrder hr
    exact ⟨_, _, hreached.tail (.finish hdone), rfl, .refl⟩
  · obtain ⟨history, hreached⟩ := Course.reached_of_stops hstops
    exact ⟨_, _, hreached, rfl, hsteps⟩
  · exact ⟨_, _, Course.reached_of_fails hfails, rfl, hsteps⟩

theorem reached_journey {s : Course} (h : Course.Reached c p config ask s) :
    Journey.Reached c p config.jobs config.subsumption s.journey := by
  have hsound := Course.sound_of_reached h
  cases s with
  | exploring => exact hsound.reached
  | asking => exact hsound.reached
  | done => exact hsound.reached
  | failed => exact hsound.1

theorem Returns.over (hfin : (Exploration.reachableKeys c p).Finite)
    (h : Returns c p config ask a) : ∃ j, Journey.Reached c p config.jobs config.subsumption j ∧
      j.Done ∧ ReturnsOver c p config ask j a := by
  obtain ⟨s, hreached, hresult⟩ := h
  obtain ⟨j, hsteps, hdone⟩ := Journey.exists_done hfin (reached_journey hreached)
  exact ⟨j, (reached_journey hreached).trans hsteps, hdone, s, hreached, hresult, hsteps⟩

theorem ReturnsOver.returns (h : ReturnsOver c p config ask j a) : Returns c p config ask a := by
  obtain ⟨s, hreached, hresult, -⟩ := h
  exact ⟨s, hreached, hresult⟩

/-- A check that never stops returns the answers about all graphs. -/
theorem batch_returns (hx : config.Exhaustive) (h : ReturnsOver c p config ask j a) :
    a = .ok (whole ask j.history.found j.exploration.stats) := by
  rcases returnsOver_cases h with ⟨ha, -⟩ | ⟨i, r, history, -, hstopped, -⟩ | ⟨e, -, -, heager⟩
  · exact ha
  · obtain ⟨q, -, hstops⟩ := hstopped.cause_mem
    exact absurd hstops (by cases q <;> simp [CheckConfig.stopsAt, hx.first, hx.eager])
  · exact absurd (hx.eager.symm.trans heager) (by decide)

theorem whole_of_returns (hfin : (Exploration.reachableKeys c p).Finite) (hx : config.Exhaustive)
    (h : Returns c p config ask a) :
    ∃ j, Journey.Reached c p config.jobs config.subsumption j ∧ j.Done ∧
      a = .ok (whole ask j.history.found j.exploration.stats) := by
  obtain ⟨j, hj, hdone, hover⟩ := h.over hfin
  exact ⟨j, hj, hdone, batch_returns hx hover⟩

structure FirstAgrees (r full : CheckResult) : Prop where
  allowed : r.verdict = .allowed ↔ full.verdict = .allowed
  unknowns : full.verdict ≠ .allowed → r.unknowns = full.unknowns
  failures : full.verdict ≠ .allowed → r.failures = full.failures
  stats : full.verdict ≠ .allowed → r.stats = full.stats
  atMost : r.stats.AtMost full.stats

structure EagerAgrees (a : Except CheckError CheckResult) (full : CheckResult) : Prop where
  fails : (∃ e, a = .error e) ↔ full.failures ≠ []
  mem : ∀ e, a = .error e → e ∈ full.failures
  same : full.failures = [] → ∃ r, a = .ok r ∧ r.Alike full

theorem FirstAgrees.of_alike (h : FirstAgrees r full) {full' : CheckResult}
    (halike : full.Alike full') : FirstAgrees r full' := by
  have hnot : full'.verdict ≠ .allowed → full.verdict ≠ .allowed := fun hne h =>
    hne (halike.allowed.1 h)
  refine ⟨h.allowed.trans halike.allowed, fun hne => ?_, fun hne => ?_, fun hne => ?_, ?_⟩
  · exact (h.unknowns (hnot hne)).trans halike.unknowns
  · exact (h.failures (hnot hne)).trans halike.failures
  · exact (h.stats (hnot hne)).trans halike.stats
  · exact halike.stats ▸ h.atMost

/-- Stopping at the first execution found returns what not stopping does, or stops at one. -/
theorem first_returns (h : ReturnsOver c p (config.inMode true false) ask j a) :
    ∃ r, a = .ok r ∧ r.PartOf (whole ask j.history.found j.exploration.stats) ∧
      FirstAgrees r (whole ask j.history.found j.exploration.stats) := by
  rcases returnsOver_cases h with ⟨rfl, -⟩ | ⟨i, r, history, rfl, hstopped, hpart⟩ |
    ⟨e, -, -, heager⟩
  · exact ⟨_, rfl, .refl _, Iff.rfl, fun _ => rfl, fun _ => rfl, fun _ => rfl, .refl _⟩
  · obtain ⟨q, hq, hstops⟩ := hstopped.cause_mem
    have hsolved : (conclude i r).solutions ≠ [] := by
      show r.solutions ≠ []
      rw [hstopped.result, CheckResult.solutions_ofAnswers]
      cases q with
      | sat s => exact List.ne_nil_of_mem (List.mem_filterMap.2 ⟨_, hq, rfl⟩)
      | unsat => exact absurd hstops (by simp [CheckConfig.stopsAt])
      | unknown u => exact absurd hstops (by simp [CheckConfig.stopsAt])
      | failed e => exact absurd hstops (by simp [CheckConfig.stopsAt, CheckConfig.inMode])
    have hallowed : (whole ask j.history.found j.exploration.stats).verdict = .allowed :=
      CheckResult.verdict_eq_allowed.2 fun hnone =>
        hsolved (List.sublist_nil.1 (hnone ▸ hpart.solutions))
    refine ⟨_, rfl, hpart, iff_of_true (CheckResult.verdict_eq_allowed.2 hsolved) hallowed, ?_, ?_,
      ?_, hpart.stats⟩
    · exact fun hne => absurd hallowed hne
    · exact fun hne => absurd hallowed hne
    · exact fun hne => absurd hallowed hne
  · exact absurd heager (by simp [CheckConfig.inMode])

/-- Stopping at the first failure returns one, or what not stopping does if there is none. -/
theorem eager_returns (h : ReturnsOver c p (config.inMode false true) ask j a) :
    EagerAgrees a (whole ask j.history.found j.exploration.stats) ∧
      ((whole ask j.history.found j.exploration.stats).failures = [] →
        a = .ok (whole ask j.history.found j.exploration.stats)) := by
  rcases returnsOver_cases h with ⟨rfl, hquiet⟩ | ⟨i, r, history, -, hstopped, -⟩ |
    ⟨e, he, rfl, -⟩
  · have hnone : (whole ask j.history.found j.exploration.stats).failures = [] := by
      refine List.eq_nil_iff_forall_not_mem.2 fun e he => ?_
      obtain ⟨t, ht, hask⟩ := mem_failures_whole.1 he
      have hstops := hquiet t ht
      rw [hask] at hstops
      exact absurd hstops (by simp [CheckConfig.stopsAt, CheckConfig.inMode])
    exact ⟨⟨by simp [hnone], fun e he => absurd he (by simp),
      fun _ => ⟨_, rfl, .refl _⟩⟩, fun _ => rfl⟩
  · -- The only answers to stop at are failures, which are not recorded but returned.
    obtain ⟨q, hq, hstops⟩ := hstopped.cause_mem
    have hnone := hstopped.noError rfl q hq
    cases q with
    | sat s => exact absurd hstops (by simp [CheckConfig.stopsAt, CheckConfig.inMode])
    | unsat => exact absurd hstops (by simp [CheckConfig.stopsAt])
    | unknown u => exact absurd hstops (by simp [CheckConfig.stopsAt])
    | failed e => exact absurd hnone (by simp [QueryResult.failure?])
  · have hne := List.ne_nil_of_mem he
    exact ⟨⟨iff_of_true ⟨e, rfl⟩ hne, fun e' he' => Except.error.inj he' ▸ he,
      fun hnone => absurd hnone hne⟩, fun hnone => absurd hnone hne⟩

theorem EagerAgrees.of_alike (h : EagerAgrees a full) {full' : CheckResult}
    (hsame : full.failures = [] → a = .ok full) (halike : full.Alike full') :
    EagerAgrees a full' := by
  rw [show full.failures = full'.failures from halike.failures] at hsame
  refine ⟨halike.failures ▸ h.fails, halike.failures ▸ h.mem, fun hnone => ?_⟩
  exact ⟨full, hsame hnone, halike⟩

section InOrder
variable (heager : config.eager = true)
include heager

theorem level_quiet (h : level config ask r ts = .ok (r', false)) :
    ∀ t ∈ ts, (ask t).failure? = none := by
  induction ts generalizing r with
  | nil => simp
  | cons t ts ih =>
    rw [level] at h
    obtain ⟨⟨next, halt⟩, hrecord, h⟩ := bind_eq_ok.1 h
    cases halt with
    | true => exact Bool.noConfusion (Prod.mk.inj (Except.ok.inj h)).2
    | false => exact List.forall_mem_cons.2 ⟨failure?_of_record hrecord heager, ih h⟩

theorem first_of_level (h : level config ask r ts = .error e) : ∃ before t after,
    ts = before ++ t :: after ∧ ask t = .failed e ∧ ∀ u ∈ before, (ask u).failure? = none := by
  induction ts generalizing r with
  | nil => exact absurd h (by simp [level])
  | cons t ts ih =>
    rw [level] at h
    cases hrecord : record config r (ask t) with
    | error e' =>
      rw [hrecord] at h
      obtain rfl := Except.error.inj h
      exact ⟨[], t, ts, rfl, (failed_of_record hrecord).1, by simp⟩
    | ok next =>
      obtain ⟨next, stop⟩ := next
      rw [hrecord] at h
      cases stop with
      | true => exact absurd h (by simp [bind, Except.bind, pure, Except.pure])
      | false =>
        obtain ⟨before, u, after, rfl, hask, hbefore⟩ := ih h
        exact ⟨t :: before, u, after, rfl, hask,
          List.forall_mem_cons.2 ⟨failure?_of_record hrecord heager, hbefore⟩⟩

/-- By induction on the levels, no query has failed so far. -/
theorem InOrder.quiet (h : InOrder c p config ask j r) :
    ∀ t ∈ j.history.found, (ask t).failure? = none := by
  induction h with
  | start =>
    rw [Journey.start_eq]
    cases config.subsumption <;> exact List.forall_mem_nil _
  | work _ hworks ih => rwa [hworks.found]
  | enter _ henters hlevel ih =>
    rw [henters.found]
    exact List.forall_mem_append.2 ⟨ih, level_quiet heager hlevel⟩

/-- If queries wait for each other, the error is that of the first graph whose query fails. -/
theorem FailsInOrder.head? (h : FailsInOrder c p config ask j e)
    (hfound : j.history.found <+: found) : (whole ask found stats).failures.head? = some e := by
  obtain ⟨i, r, hi, henters, hlevel⟩ := h
  obtain ⟨before, t, after, hterminals, hask, hbefore⟩ := first_of_level heager hlevel
  obtain ⟨later, rfl⟩ := hfound
  have hnone : ((i.history.found ++ before).map ask).filterMap QueryResult.failure? = [] :=
    List.filterMap_eq_nil_iff.2 (List.forall_mem_map.2
      (List.forall_mem_append.2 ⟨hi.quiet heager, hbefore⟩))
  have hsplit : j.history.found ++ later = (i.history.found ++ before) ++ t :: (after ++ later) := by
    rw [henters.found, hterminals]
    simp
  show (CheckResult.ofAnswers _).failures.head? = _
  rw [CheckResult.failures_ofAnswers, hsplit, List.map_append, List.filterMap_append, hnone,
    List.nil_append, List.map_cons, hask]
  rfl

end InOrder

structure Settled (c : Composition) (p : Precision) (config : CheckConfig)
    (ask : TerminalGraph → QueryResult) : Prop where
  batch : ∀ full full', Returns c p (config.inMode false false) ask (.ok full) →
    Returns c p (config.inMode false false) ask (.ok full') → full.Alike full'
  first : ∀ a full, Returns c p (config.inMode true false) ask a →
    Returns c p (config.inMode false false) ask (.ok full) → ∃ r, a = .ok r ∧ FirstAgrees r full
  eager : ∀ a full, Returns c p (config.inMode false true) ask a →
    Returns c p (config.inMode false false) ask (.ok full) → EagerAgrees a full
  inOrder : ∀ j e full, FailsInOrder c p (config.inMode false true) ask j e →
    Returns c p (config.inMode false false) ask (.ok full) → full.failures.head? = some e

/-- How checks that stop early compare with the one that does not, however workers and queries
take turns. -/
structure EarlyExits (c : Composition) (p : Precision) (config : CheckConfig)
    (ask : TerminalGraph → QueryResult) : Prop where
  progress : ∀ first eager s, Course.Reached c p (config.inMode first eager) ask s →
    s.result? = none → ∃ s', Course.Step c p (config.inMode first eager) ask s s'
  ends : ∀ first eager, ¬ ∃ f : Nat → Course, f 0 = .start c (config.inMode first eager) ∧
    ∀ i, Course.Step c p (config.inMode first eager) ask (f i) (f (i + 1))
  /-- What a check returns it returns over an exploration, and over each it returns. -/
  explores : ∀ first eager, (∀ a, Returns c p (config.inMode first eager) ask a →
      ∃ j, Journey.Reached c p config.jobs config.subsumption j ∧ j.Done ∧
        ReturnsOver c p (config.inMode first eager) ask j a) ∧
    (∃ j, Journey.Reached c p config.jobs config.subsumption j ∧ j.Done) ∧
    ∀ j, Journey.Reached c p config.jobs config.subsumption j → j.Done →
      ∃ a, ReturnsOver c p (config.inMode first eager) ask j a
  batch : ∀ j a, ReturnsOver c p (config.inMode false false) ask j a →
    a = .ok (whole ask j.history.found j.exploration.stats)
  first : ∀ j a full, ReturnsOver c p (config.inMode true false) ask j a →
    ReturnsOver c p (config.inMode false false) ask j (.ok full) →
      ∃ r, a = .ok r ∧ r.PartOf full ∧ FirstAgrees r full
  eager : ∀ j a full, ReturnsOver c p (config.inMode false true) ask j a →
    ReturnsOver c p (config.inMode false false) ask j (.ok full) →
      EagerAgrees a full ∧ (full.failures = [] → a = .ok full)
  /-- If queries wait for each other, the first failure is the one that is returned. -/
  inOrder : ∀ i e, FailsInOrder c p (config.inMode false true) ask i e →
    Returns c p (config.inMode false true) ask (.error e) ∧
      ∀ j full, Relation.ReflTransGen (Journey.Step c p config.jobs) i j →
        ReturnsOver c p (config.inMode false false) ask j (.ok full) →
          full.failures.head? = some e
  /-- Without subsumption, or with a single job, any two checks can be compared. -/
  settled : config.subsumption = false ∨ config.jobs ≤ 1 → Settled c p config ask
  /-- One of the courses expands one state after the other, and its queries wait for each other. -/
  sequential : (∀ first eager,
      (∀ r, explore c p (config.inMode first eager) ask = .ok (some r) →
        Returns c p (config.inMode first eager) ask (.ok r)) ∧
      ∀ e, explore c p (config.inMode first eager) ask = .error e →
        Returns c p (config.inMode first eager) ask (.error e)) ∧
    ∀ e, explore c p (config.inMode false true) ask = .error e →
      ∃ j, FailsInOrder c p (config.inMode false true) ask j e

variable {m : MemoryModel} {o : Outcome} {backend : Backend}

theorem settled_of_free (hn : c.Numbered) (hfin : (Exploration.reachableKeys c p).Finite)
    (hfree : config.subsumption = false ∨ config.jobs ≤ 1) (m : MemoryModel) (o : Outcome)
    (backend : Backend) : Settled c p config (query backend m o) := by
  have halike : ∀ {j j' : Journey}, Journey.Reached c p config.jobs config.subsumption j →
      j.Done → Journey.Reached c p config.jobs config.subsumption j' → j'.Done →
        (whole (query backend m o) j.history.found j.exploration.stats).Alike
          (whole (query backend m o) j'.history.found j'.exploration.stats) := by
    intro j j' h hdone h' hdone'
    obtain ⟨hfound, hstats⟩ := Journey.found_settled hn hfree h hdone h' hdone'
    rw [← hstats]
    exact whole_alike backend m o _ hfound
  have hfull : ∀ {full}, Returns c p (config.inMode false false) (query backend m o) (.ok full) →
      ∃ j, Journey.Reached c p config.jobs config.subsumption j ∧ j.Done ∧
        full = whole (query backend m o) j.history.found j.exploration.stats := by
    intro full h
    obtain ⟨j, hj, hdone, heq⟩ := whole_of_returns hfin ⟨rfl, rfl⟩ h
    exact ⟨j, hj, hdone, Except.ok.inj heq⟩
  refine ⟨fun full full' h h' => ?_, fun a full h h' => ?_, fun a full h h' => ?_,
    fun i e full h h' => ?_⟩
  · obtain ⟨j, hj, hdone, rfl⟩ := hfull h
    obtain ⟨j', hj', hdone', rfl⟩ := hfull h'
    exact halike hj hdone hj' hdone'
  · obtain ⟨j, hj, hdone, hover⟩ := h.over hfin
    obtain ⟨j', hj', hdone', rfl⟩ := hfull h'
    obtain ⟨r, rfl, -, hagrees⟩ := first_returns hover
    exact ⟨r, rfl, hagrees.of_alike (halike hj hdone hj' hdone')⟩
  · obtain ⟨j, hj, hdone, hover⟩ := h.over hfin
    obtain ⟨j', hj', hdone', rfl⟩ := hfull h'
    obtain ⟨hagrees, hsame⟩ := eager_returns hover
    exact hagrees.of_alike hsame (halike hj hdone hj' hdone')
  · have hreached : Journey.Reached c p config.jobs config.subsumption i :=
      reached_journey (Course.reached_of_fails h)
    obtain ⟨j, hsteps, hdone⟩ := Journey.exists_done hfin hreached
    obtain ⟨j', hj', hdone', rfl⟩ := hfull h'
    rw [← (halike (hreached.trans hsteps) hdone hj' hdone').failures]
    exact h.head? rfl (Journey.onward_of_steps hsteps).1

/-- A check that stops early agrees with the one that does not, whatever solver is asked. -/
theorem earlyExits_of_finite (automata : List Automaton) (initial : List (String × Int))
    (p : Precision) (hfin : (Exploration.reachableKeys (.ofAutomata automata initial) p).Finite)
    (m : MemoryModel) (o : Outcome) (config : CheckConfig) (backend : Backend) :
    EarlyExits (.ofAutomata automata initial) p config (query backend m o) := by
  have hn := Composition.ofAutomata_numbered automata initial
  have hbatch : ∀ {j a}, ReturnsOver (.ofAutomata automata initial) p
      (config.inMode false false) (query backend m o) j a →
        a = .ok (whole (query backend m o) j.history.found j.exploration.stats) :=
    batch_returns ⟨rfl, rfl⟩
  refine ⟨fun _ _ s _ hs => Course.exists_step hs, fun first eager => ?_, fun first eager => ?_,
    fun j a => hbatch, fun j a full h h' => ?_, fun j a full h h' => ?_,
    fun i e h => ?_, fun hfree => settled_of_free hn hfin hfree m o backend,
    fun _ _ => returns_of_explore, fun e => explore_fails⟩
  · rintro ⟨f, hstart, hf⟩
    exact not_acc_iff_exists_descending_chain.2 ⟨f, hstart, hf⟩
      (Course.acc_start hfin (config.inMode first eager) (query backend m o))
  · refine ⟨fun a h => h.over hfin, ?_, fun j hj hdone => exists_returnsOver _ _ hj hdone⟩
    exact Journey.exists_whole hfin config.jobs config.subsumption
  · obtain rfl := Except.ok.inj (hbatch h')
    exact first_returns h
  · obtain rfl := Except.ok.inj (hbatch h')
    exact eager_returns h
  · refine ⟨⟨_, Course.reached_of_fails h, rfl⟩, fun j full hsteps h' => ?_⟩
    obtain rfl := Except.ok.inj (hbatch h')
    exact h.head? rfl (Journey.onward_of_steps hsteps).1

/-- Over one exploration the check that stops at the first execution finds the one that the whole
check finds, and the check that stops at the first failure ends with the only one. -/
theorem earlyExits_of_finite_drawing :
    (Exploration.reachableKeys (.ofAutomata drawing []) choosing).Finite ∧
    ∃ j full s u e,
      ReturnsOver (.ofAutomata drawing []) choosing (thorough.inMode false false)
        (query judging locally draws) j (.ok full) ∧
      full.solutions = [s] ∧ full.unknowns = [u] ∧ full.failures = [e] ∧
      (∃ r, ReturnsOver (.ofAutomata drawing []) choosing (thorough.inMode true false)
        (query judging locally draws) j (.ok r) ∧ r.solutions = [s] ∧ FirstAgrees r full) ∧
      ReturnsOver (.ofAutomata drawing []) choosing (thorough.inMode false true)
        (query judging locally draws) j (.error e) := by
  have hall := earlyExits_of_finite drawing [] choosing drawn_finite locally draws thorough judging
  obtain ⟨s, u, e, stats, -, hreturns⟩ := drawn_returns
  obtain ⟨j, hj, hdone, hover⟩ := (hall.explores false false).1 _ hreturns
  refine ⟨drawn_finite, j, _, s, u, e, hover, rfl, rfl, rfl, ?_, ?_⟩
  · obtain ⟨a, ha⟩ := (hall.explores true false).2.2 j hj hdone
    obtain ⟨r, rfl, hpart, hagrees⟩ := hall.first j a _ ha hover
    refine ⟨r, ha, ?_, hagrees⟩
    have hne := CheckResult.verdict_eq_allowed.1 (hagrees.allowed.2 rfl)
    exact (List.sublist_singleton.1 hpart.solutions).resolve_left hne
  · obtain ⟨a, ha⟩ := (hall.explores false true).2.2 j hj hdone
    obtain ⟨hagrees, -⟩ := hall.eager j a _ ha hover
    obtain ⟨e', rfl⟩ := hagrees.fails.2 (by simp)
    obtain rfl := List.mem_singleton.1 (hagrees.mem e' rfl)
    exact ha

/-- Unless an answer is one to stop at, a check goes on until its journey is done. -/
theorem finishes_of_quiet (hquiet : ∀ t, config.stopsAt (ask t) = false)
    (h : ReturnsOver c p config ask j a) : ∃ r history,
      Course.Reached c p config ask (.done j r history) ∧
        conclude j r = whole ask j.history.found j.exploration.stats := by
  obtain ⟨s, hreached, hresult, hsteps⟩ := h
  have hsound := Course.sound_of_reached hreached
  cases s with
  | exploring => exact absurd hresult (by simp [Course.result?])
  | asking => exact absurd hresult (by simp [Course.result?])
  | done i r history =>
    rcases Course.follows_of_reached hreached with hfinished | hstopped
    · obtain rfl : j = i := eq_of_steps hfinished.done hsteps
      exact ⟨r, history, hreached, hfinished.conclude_eq⟩
    · obtain ⟨k, -, -, hstops⟩ := hstopped.cause
      exact absurd (hstops.symm.trans (hquiet _)) (by decide)
  | failed i e =>
    obtain ⟨-, heager, t, -, hfailed⟩ := hsound
    have hstops := hquiet t
    rw [hfailed] at hstops
    exact absurd (heager.symm.trans hstops) (by decide)

/-- If all queries are denied, all graphs of the journey are asked about. -/
theorem forbidden_of_denied (config : CheckConfig) (hall : ∀ t, ask t = .unsat)
    (h : Journey.Reached c p config.jobs config.subsumption j) (hdone : j.Done) : ∃ r history,
      Course.Reached c p config ask (.done j r history) ∧
        (conclude j r).verdict = .forbidden ∧
          (conclude j r).stats.queried = j.history.found.length ∧
            history.map Inquiry.terminal = j.history.found := by
  obtain ⟨a, ha⟩ := exists_returnsOver config ask h hdone
  obtain ⟨r, history, hreached, hwhole⟩ :=
    finishes_of_quiet (fun t => by rw [hall t, CheckConfig.stopsAt]) ha
  have hsound : Course.Done c p config ask j r history := Course.sound_of_reached hreached
  refine ⟨r, history, hreached, ?_, ?_, hsound.found⟩
  · rw [hwhole, CheckResult.verdict_eq_forbidden]
    refine ⟨?_, ?_, ?_⟩
    · exact List.eq_nil_iff_forall_not_mem.2 fun s hs => by
        obtain ⟨t, -, hask⟩ := mem_solutions_whole.1 hs
        exact absurd ((hall t).symm.trans hask) (by simp)
    · exact List.eq_nil_iff_forall_not_mem.2 fun u hu => by
        obtain ⟨t, -, hask⟩ := mem_unknowns_whole.1 hu
        exact absurd ((hall t).symm.trans hask) (by simp)
    · exact List.eq_nil_iff_forall_not_mem.2 fun e he => by
        obtain ⟨t, -, hask⟩ := mem_failures_whole.1 he
        exact absurd ((hall t).symm.trans hask) (by simp)
  · rw [hwhole, whole, CheckResult.queried_ofAnswers, List.length_map]

def denying : Backend := fun _ => .ok .unsat

/-- With subsumption, two jobs and in any modes, one check that finds the outcome forbidden has asked
about one graph, and another about one more. -/
theorem forbidden_unsettled (first eager first' eager' : Bool) : ∃ j r history j' r' history',
    Course.Reached (.ofAutomata Journey.rejoining []) .default
      ⟨first, eager, true, 2, .builtin, 0⟩ (query denying locally (ends 7)) (.done j r history) ∧
    Course.Reached (.ofAutomata Journey.rejoining []) .default
      ⟨first', eager', true, 2, .builtin, 0⟩ (query denying locally (ends 7))
      (.done j' r' history') ∧
    (conclude j r).verdict = .forbidden ∧ (conclude j' r').verdict = .forbidden ∧
    (conclude j r).stats.queried = 1 ∧ (conclude j' r').stats.queried = 2 ∧
      ∃ i' ∈ history', ∀ i ∈ history, i.terminal.graph.shape ≠ i'.terminal.graph.shape := by
  have hall : ∀ t, query denying locally (ends 7) t = .unsat := by
    intro t
    obtain ⟨script, hscript⟩ := Query.exists_script locally_validate t.graph (ends 7)
    simp only [query, hscript, denying]
  obtain ⟨j, j', hj, hdone, hj', hdone', hplain, ⟨t, ht, hne⟩, hone, htwo⟩ :=
    Journey.found_unsettled
  obtain ⟨r, history, hreached, hr, hqueried, hfound⟩ :=
    forbidden_of_denied ⟨first, eager, true, 2, .builtin, 0⟩ hall hj hdone
  obtain ⟨r', history', hreached', hr', hqueried', hfound'⟩ :=
    forbidden_of_denied ⟨first', eager', true, 2, .builtin, 0⟩ hall hj' hdone'
  obtain ⟨i', hi', rfl⟩ := List.mem_map.1 (hfound' ▸ ht)
  refine ⟨j, r, history, j', r', history', hreached, hreached', hr, hr', hqueried.trans hone,
    hqueried'.trans htwo, i', hi', fun i hi hshape => hne ?_⟩
  rw [← hplain i.terminal (hfound ▸ List.mem_map_of_mem hi)]
  exact congrArg GraphShape.constraints hshape.symm

end Check
end Consistency
