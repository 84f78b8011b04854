import Consistency.Proofs.Check.Concurrent
import Consistency.Proofs.Check.Witness

/-!
# Accounts of a check

However the workers and the queries of a level take turns, a check that returns a
result has accounted for every terminal graph it came to: each was asked about and
is reported once or was found unsatisfiable, or was skipped because the flag was
up. The flag is raised only by an answer that is reported, so that nothing was
skipped if the outcome is found forbidden. With subsumption and several jobs
another exploration of the program may find other graphs, but only such that
demand more than one that was asked about.
-/

set_option autoImplicit false

namespace Consistency
open Query

def CheckError.terminal? : CheckError → Option Nat
  | .solver terminal _ _ => some terminal
  | .invalidModel _ | .invalidOutcome _ | .backend _ => none

def QueryResult.reported? : QueryResult → Option Nat
  | .sat s => some s.terminal
  | .unsat => none
  | .unknown u => some u.terminal
  | .failed e => e.terminal?

namespace CheckResult
variable {r : CheckResult}

def reported (r : CheckResult) : List Nat :=
  r.solutions.map Solution.terminal ++ r.unknowns.map UnknownQuery.terminal ++
    r.failures.filterMap CheckError.terminal?

def entries (r : CheckResult) : Nat := r.solutions.length + r.unknowns.length + r.failures.length

theorem reported_add (r : CheckResult) (q : QueryResult) :
    (r.add q).reported.Perm (r.reported ++ q.reported?.toList) := by
  cases q with
  | sat s =>
    have hswap : ([s.terminal] ++ (r.unknowns.map UnknownQuery.terminal ++
        r.failures.filterMap CheckError.terminal?)).Perm _ := List.perm_append_comm
    simpa [reported, add, QueryResult.reported?, List.append_assoc] using
      hswap.append_left (r.solutions.map Solution.terminal)
  | unsat => simp [reported, add, QueryResult.reported?]
  | unknown u =>
    have hswap : ([u.terminal] ++ r.failures.filterMap CheckError.terminal?).Perm _ :=
      List.perm_append_comm
    simpa [reported, add, QueryResult.reported?, List.append_assoc] using
      hswap.append_left (r.solutions.map Solution.terminal ++ r.unknowns.map UnknownQuery.terminal)
  | failed e =>
    cases he : e.terminal? <;> simp [reported, add, QueryResult.reported?, he]

theorem solutions_add (h : r.solutions ≠ []) (q : QueryResult) : (r.add q).solutions ≠ [] := by
  cases q with
  | sat s => exact List.append_ne_nil_of_left_ne_nil h [s]
  | unsat => exact h
  | unknown u => exact h
  | failed e => exact h

theorem mem_solutions_add {q : QueryResult} {s : Solution} (h : s ∈ (r.add q).solutions) :
    s ∈ r.solutions ∨ q = .sat s := by
  cases q with
  | sat s' =>
    rcases List.mem_append.1 h with h | h
    · exact .inl h
    · exact .inr (congrArg _ (List.mem_singleton.1 h).symm)
  | unsat => exact .inl h
  | unknown u => exact .inl h
  | failed e => exact .inl h

theorem mem_failures_add {q : QueryResult} {e : CheckError} (h : e ∈ (r.add q).failures) :
    e ∈ r.failures ∨ q = .failed e := by
  cases q with
  | sat s => exact .inl h
  | unsat => exact .inl h
  | unknown u => exact .inl h
  | failed e' =>
    rcases List.mem_append.1 h with h | h
    · exact .inl h
    · exact .inr (congrArg _ (List.mem_singleton.1 h).symm)

end CheckResult

namespace Check
open Exploration (Journey)
variable {c : Composition} {p : Precision} {config : CheckConfig}
  {ask : TerminalGraph → QueryResult} {j j' : Journey} {r after : CheckResult}
  {history inquiries : List Inquiry} {raised raised' : Bool} {i i' : Inquiry}

namespace Inquiry

def reported? (i : Inquiry) : Option Nat :=
  match i.progress with
  | .answered q => q.reported?
  | .waiting | .asked | .skipped => none

def unsat (i : Inquiry) : Bool :=
  match i.progress with
  | .answered .unsat => true
  | _ => false

end Inquiry

theorem failed_of_record {q : QueryResult} {e : CheckError} (h : record config r q = .error e) :
    q = .failed e ∧ config.eager = true := by
  cases q with
  | sat s => exact absurd h (by simp [record])
  | unsat => exact absurd h (by simp [record])
  | unknown u => exact absurd h (by simp [record])
  | failed e' =>
    simp only [record] at h
    split at h
    · next heager => exact ⟨congrArg _ (Except.error.inj h), heager⟩
    · exact absurd h (by simp)

theorem tally_error {e : CheckError} (h : tally config r inquiries = .error e) :
    config.eager = true ∧ ∃ i ∈ inquiries, i.progress = .answered (.failed e) := by
  induction inquiries generalizing r with
  | nil => exact absurd h (by simp [tally, pure, Except.pure])
  | cons i is ih =>
    rw [tally_cons] at h
    cases hnote : note config r i with
    | ok mid =>
      rw [hnote] at h
      obtain ⟨heager, j, hj, hfailed⟩ := ih h
      exact ⟨heager, j, List.mem_cons_of_mem i hj, hfailed⟩
    | error e' =>
      rw [hnote] at h
      obtain rfl := Except.error.inj h
      obtain ⟨t, progress⟩ := i
      cases progress with
      | waiting => exact absurd hnote (by simp [note])
      | asked => exact absurd hnote (by simp [note])
      | skipped => exact absurd hnote (by simp [note])
      | answered q =>
        rw [note_answered] at hnote
        cases hrecord : record config r q with
        | ok after =>
          rw [hrecord] at hnote
          exact absurd hnote (by simp [Except.map])
        | error e =>
          rw [hrecord] at hnote
          obtain rfl := Except.error.inj hnote
          obtain ⟨rfl, heager⟩ := failed_of_record hrecord
          exact ⟨heager, _, List.mem_cons_self, rfl⟩

structure Tallied (config : CheckConfig) (history : List Inquiry) (r : CheckResult) : Prop where
  reported : r.reported.Perm (history.filterMap Inquiry.reported?)
  balance : r.stats.queried = r.entries + history.countP Inquiry.unsat
  solutions : ∀ s ∈ r.solutions, ∃ i ∈ history, i.progress = .answered (.sat s)
  failures : ∀ e ∈ r.failures, ∃ i ∈ history, i.progress = .answered (.failed e)
  clear : Clear r → ∀ i ∈ history, ∀ q, i.progress = .answered q → q = .unsat
  /-- An answer that stops the check and is no error is a solution. -/
  stops : ∀ i ∈ history, ∀ q, i.progress = .answered q → config.stopsAt q = true →
    config.first = true ∧ r.solutions ≠ []

theorem tallied_empty (config : CheckConfig) : Tallied config [] .empty where
  reported := .refl _
  balance := rfl
  solutions := by simp [CheckResult.empty]
  failures := by simp [CheckResult.empty]
  clear := by simp
  stops := by simp

theorem Tallied.record {t : TerminalGraph} {q : QueryResult} {stop : Bool}
    (h : Tallied config history r) (hrecord : record config r q = .ok (after, stop)) :
    Tallied config (history ++ [⟨t, .answered q⟩]) after := by
  obtain ⟨hadd, hstop, hsolved⟩ := added_of_record hrecord
  have hlater : ∀ {q' : QueryResult}, q = q' ∨ (∃ i ∈ history, i.progress = .answered q') →
      ∃ i ∈ history ++ [⟨t, .answered q⟩], i.progress = .answered q' := by
    rintro q' (rfl | ⟨i, hi, hanswered⟩)
    · exact ⟨_, List.mem_append_right _ (List.mem_singleton_self _), rfl⟩
    · exact ⟨i, List.mem_append_left _ hi, hanswered⟩
  refine ⟨?_, ?_, fun s hs => hlater ?_, fun e he => hlater ?_, fun hclear => ?_, ?_⟩
  · rw [hadd, List.filterMap_append]
    have hlast : [Inquiry.mk t (.answered q)].filterMap Inquiry.reported? =
        q.reported?.toList := by
      cases hq : q.reported? <;> simp [Inquiry.reported?, hq]
    rw [hlast]
    exact (CheckResult.reported_add r q).trans (h.reported.append_right _)
  · have hbalance := h.balance
    rw [hadd, List.countP_append]
    cases q <;> simp [CheckResult.add, CheckResult.entries, Inquiry.unsat] at hbalance ⊢ <;> omega
  · exact (CheckResult.mem_solutions_add (hadd ▸ hs)).symm.imp_right (h.solutions s)
  · exact (CheckResult.mem_failures_add (hadd ▸ he)).symm.imp_right (h.failures e)
  · obtain ⟨hr, -, hunsat⟩ := record_clear hrecord hclear
    refine List.forall_mem_append.2 ⟨h.clear hr, List.forall_mem_singleton.2 fun q' hq' => ?_⟩
    exact (Progress.answered.inj hq').symm.trans hunsat
  · refine List.forall_mem_append.2 ⟨fun i hi q' hq' hstops => ?_,
      List.forall_mem_singleton.2 fun q' hq' hstops => ?_⟩
    · obtain ⟨hfirst, hsolutions⟩ := h.stops i hi q' hq' hstops
      exact ⟨hfirst, hadd ▸ CheckResult.solutions_add hsolutions q⟩
    · obtain rfl := Progress.answered.inj hq'
      exact hsolved (hstop.trans hstops)

/-- A query without an answer leaves the result as it is. -/
theorem Tallied.unanswered (h : Tallied config history r)
    (hi : ∀ q, i.progress ≠ .answered q) : Tallied config (history ++ [i]) r := by
  have hnone : i.reported? = none ∧ i.unsat = false := by
    unfold Inquiry.reported? Inquiry.unsat
    cases hp : i.progress with
    | answered q => exact absurd hp (hi q)
    | waiting => exact ⟨rfl, rfl⟩
    | asked => exact ⟨rfl, rfl⟩
    | skipped => exact ⟨rfl, rfl⟩
  have hlater : ∀ {q : QueryResult}, (∃ i ∈ history, i.progress = .answered q) →
      ∃ k ∈ history ++ [i], k.progress = .answered q := by
    rintro q ⟨k, hk, hanswered⟩
    exact ⟨k, List.mem_append_left _ hk, hanswered⟩
  refine ⟨?_, ?_, fun s hs => hlater (h.solutions s hs), fun e he => hlater (h.failures e he),
    fun hclear => ?_, ?_⟩
  · simpa [List.filterMap_append, hnone.1] using h.reported
  · simpa [List.countP_append, hnone.2] using h.balance
  · exact List.forall_mem_append.2 ⟨h.clear hclear,
      List.forall_mem_singleton.2 fun q hq => absurd hq (hi q)⟩
  · exact List.forall_mem_append.2 ⟨h.stops,
      List.forall_mem_singleton.2 fun q hq => absurd hq (hi q)⟩

theorem Tallied.note (h : Tallied config history r) (hnote : note config r i = .ok after) :
    Tallied config (history ++ [i]) after := by
  obtain ⟨t, progress⟩ := i
  cases progress with
  | answered q =>
    rw [note_answered] at hnote
    cases hrecord : Check.record config r q with
    | error e =>
      rw [hrecord] at hnote
      exact absurd hnote (by simp [Except.map])
    | ok result =>
      rw [hrecord] at hnote
      obtain rfl := Except.ok.inj hnote
      exact h.record hrecord
  | waiting =>
    obtain rfl := Except.ok.inj hnote
    exact h.unanswered (by simp)
  | asked =>
    obtain rfl := Except.ok.inj hnote
    exact h.unanswered (by simp)
  | skipped =>
    obtain rfl := Except.ok.inj hnote
    exact h.unanswered (by simp)

/-- By induction on the queries that are recorded. -/
theorem Tallied.tally (h : Tallied config history r)
    (htally : tally config r inquiries = .ok after) :
    Tallied config (history ++ inquiries) after := by
  induction inquiries generalizing history r with
  | nil =>
    obtain rfl := Except.ok.inj htally
    rwa [List.append_nil]
  | cons i is ih =>
    rw [tally_cons] at htally
    obtain ⟨mid, hnote, hrest⟩ := bind_eq_ok.1 htally
    have hall := ih (h.note hnote) hrest
    rwa [List.append_assoc, List.singleton_append] at hall

namespace Inquiry

def Stops (config : CheckConfig) (ask : TerminalGraph → QueryResult) (i : Inquiry) : Prop :=
  i.progress = .answered (ask i.terminal) ∧ config.stopsAt (ask i.terminal) = true

def Fair (config : CheckConfig) (ask : TerminalGraph → QueryResult) (raised : Bool) (i : Inquiry) :
    Prop :=
  match i.progress with
  | .waiting | .asked => True
  | .skipped => raised = true
  | .answered q => q = ask i.terminal ∧ (config.stopsAt q = true → raised = true)

theorem Turn.terminal (h : i.Turn config ask raised i' raised') : i'.terminal = i.terminal := by
  cases h <;> rfl

theorem Turn.raised_of_raised (h : i.Turn config ask raised i' raised') (hr : raised = true) :
    raised' = true := by
  cases h with
  | start => exact hr
  | skip => exact hr
  | answer => rw [hr, Bool.true_or]

theorem Turn.cause (h : i.Turn config ask raised i' raised') (hr : raised' = true) :
    raised = true ∨ i'.Stops config ask := by
  cases h with
  | start => exact .inl hr
  | skip => exact .inl hr
  | answer => exact (Bool.or_eq_true _ _ ▸ hr).imp_right fun hstops => ⟨rfl, hstops⟩

theorem Turn.not_stops (h : i.Turn config ask raised i' raised') : ¬ i.Stops config ask := by
  rintro ⟨hprogress, -⟩
  cases h <;> exact absurd hprogress (by simp)

theorem Turn.fair (h : i.Turn config ask raised i' raised') : i'.Fair config ask raised' := by
  cases h with
  | start => trivial
  | skip => rfl
  | answer => exact ⟨rfl, fun hstops => by rw [hstops, Bool.or_true]⟩

theorem Fair.mono (h : i.Fair config ask raised) (hr : raised = true → raised' = true) :
    i.Fair config ask raised' := by
  unfold Fair at h ⊢
  split at h
  · trivial
  · trivial
  · exact hr h
  · exact ⟨h.1, fun hstops => hr (h.2 hstops)⟩

theorem Fair.settled (h : i.Fair config ask raised) (hsettled : i.Settled) :
    i.progress = .answered (ask i.terminal) ∨ i.progress = .skipped ∧ raised = true := by
  obtain ⟨t, progress⟩ := i
  cases progress with
  | waiting => exact hsettled.elim
  | asked => exact hsettled.elim
  | answered q => exact .inl (congrArg _ h.1)
  | skipped => exact .inr ⟨rfl, h⟩

end Inquiry

/-- The flag is up exactly if an answer raised it, and nothing else keeps a query from its
answer. -/
structure Shared (config : CheckConfig) (ask : TerminalGraph → QueryResult)
    (inquiries : List Inquiry) (raised : Bool) : Prop where
  fair : ∀ i ∈ inquiries, i.Fair config ask raised
  cause : raised = true → ∃ i ∈ inquiries, i.Stops config ask

theorem Shared.turn {before rest : List Inquiry}
    (h : Shared config ask (before ++ i :: rest) raised)
    (hturn : i.Turn config ask raised i' raised') :
    Shared config ask (before ++ i' :: rest) raised' where
  fair := by
    have hfair := fun j hj => (h.fair j hj).mono hturn.raised_of_raised
    exact Exploration.Tour.forall_mem_turn hfair fun _ => hturn.fair
  cause := by
    intro hr
    rcases hturn.cause hr with hr | hstops
    · obtain ⟨j, hj, hstops⟩ := h.cause hr
      refine ⟨j, ?_, hstops⟩
      have hne : j ≠ i := by
        rintro rfl
        exact hturn.not_stops hstops
      exact (Exploration.Tour.mem_turn i' hj).resolve_left hne
    · exact ⟨i', by simp, hstops⟩

namespace Course

structure Between (c : Composition) (p : Precision) (config : CheckConfig)
    (ask : TerminalGraph → QueryResult) (j : Journey) (r : CheckResult) (history : List Inquiry) :
    Prop where
  reached : Journey.Reached c p config.jobs config.subsumption j
  found : history.map Inquiry.terminal = j.history.found
  answered : ∀ i ∈ history, i.progress = .answered (ask i.terminal)
  tallied : Tallied config history r

structure Asking (c : Composition) (p : Precision) (config : CheckConfig)
    (ask : TerminalGraph → QueryResult) (j : Journey) (r : CheckResult)
    (history inquiries : List Inquiry) (raised : Bool) : Prop where
  reached : Journey.Reached c p config.jobs config.subsumption j
  found : (history ++ inquiries).map Inquiry.terminal = j.history.found
  answered : ∀ i ∈ history, i.progress = .answered (ask i.terminal)
  tallied : Tallied config history r
  shared : Shared config ask inquiries raised

structure Done (c : Composition) (p : Precision) (config : CheckConfig)
    (ask : TerminalGraph → QueryResult) (j : Journey) (r : CheckResult) (history : List Inquiry) :
    Prop where
  reached : Journey.Reached c p config.jobs config.subsumption j
  found : history.map Inquiry.terminal = j.history.found
  settled : ∀ i ∈ history, i.progress = .answered (ask i.terminal) ∨ i.progress = .skipped
  tallied : Tallied config history r
  reason : (∃ i ∈ history, i.Stops config ask) ∨
    j.Done ∧ ∀ i ∈ history, i.progress = .answered (ask i.terminal)

def Sound (c : Composition) (p : Precision) (config : CheckConfig)
    (ask : TerminalGraph → QueryResult) : Course → Prop
  | .exploring j r history => Between c p config ask j r history
  | .asking j r history inquiries raised => Asking c p config ask j r history inquiries raised
  | .done j r history => Done c p config ask j r history
  | .failed j e => Journey.Reached c p config.jobs config.subsumption j ∧ config.eager = true ∧
      ∃ t ∈ j.history.found, ask t = .failed e

theorem start_sound (c : Composition) (p : Precision) (config : CheckConfig)
    (ask : TerminalGraph → QueryResult) : Sound c p config ask (start c config) := by
  refine ⟨.refl, ?_, by simp, tallied_empty config⟩
  rw [Journey.start_eq]
  cases config.subsumption <;> rfl

theorem Between.asking (h : Between c p config ask j r history) (henters : Journey.Enters c j j') :
    Asking c p config ask j' r history ((j.exploration.terminals c).map Inquiry.waiting) false where
  reached := h.reached.tail (.inl henters)
  found := by
    rw [List.map_append, h.found, henters.found, List.map_map]
    exact congrArg _ (List.map_id _)
  answered := h.answered
  tallied := h.tallied
  shared := by
    refine ⟨fun i hi => ?_, fun hr => absurd hr (by decide)⟩
    obtain ⟨t, -, rfl⟩ := List.mem_map.1 hi
    trivial

theorem Asking.turn {before rest : List Inquiry}
    (h : Asking c p config ask j r history (before ++ i :: rest) raised)
    (hturn : i.Turn config ask raised i' raised') :
    Asking c p config ask j r history (before ++ i' :: rest) raised' where
  reached := h.reached
  found := by
    rw [← h.found]
    simp only [List.map_append, List.map_cons, hturn.terminal]
  answered := h.answered
  tallied := h.tallied
  shared := h.shared.turn hturn

theorem Asking.proceed (h : Asking c p config ask j r history inquiries false)
    (hsettled : ∀ i ∈ inquiries, i.Settled) (htally : tally config r inquiries = .ok after) :
    Between c p config ask j after (history ++ inquiries) where
  reached := h.reached
  found := h.found
  answered := by
    refine List.forall_mem_append.2 ⟨h.answered, fun i hi => ?_⟩
    have hfair := (h.shared.fair i hi).settled (hsettled i hi)
    exact hfair.resolve_right fun h => absurd h.2 (by decide)
  tallied := h.tallied.tally htally

theorem Asking.done (h : Asking c p config ask j r history inquiries true)
    (hsettled : ∀ i ∈ inquiries, i.Settled) (htally : tally config r inquiries = .ok after) :
    Done c p config ask j after (history ++ inquiries) where
  reached := h.reached
  found := h.found
  settled := by
    refine List.forall_mem_append.2 ⟨fun i hi => .inl (h.answered i hi), fun i hi => ?_⟩
    exact ((h.shared.fair i hi).settled (hsettled i hi)).imp_right And.left
  tallied := h.tallied.tally htally
  reason := by
    obtain ⟨i, hi, hstops⟩ := h.shared.cause rfl
    exact .inl ⟨i, List.mem_append_right _ hi, hstops⟩

/-- An error is the answer to a query of the level. -/
theorem Asking.failed {e : CheckError} (h : Asking c p config ask j r history inquiries raised)
    (htally : tally config r inquiries = .error e) :
    config.eager = true ∧ ∃ t ∈ j.history.found, ask t = .failed e := by
  obtain ⟨heager, i, hi, hfailed⟩ := tally_error htally
  have hfair := h.shared.fair i hi
  rw [Inquiry.Fair, hfailed] at hfair
  refine ⟨heager, i.terminal, ?_, hfair.1.symm⟩
  rw [← h.found]
  exact List.mem_map_of_mem (List.mem_append_right _ hi)

theorem Sound.step {s s' : Course} (hs : Step c p config ask s s') (h : Sound c p config ask s) :
    Sound c p config ask s' := by
  cases hs with
  | finish hdone =>
    exact ⟨h.reached, h.found, fun i hi => .inl (h.answered i hi), h.tallied, .inr ⟨hdone, h.answered⟩⟩
  | enter henters => exact Between.asking h henters
  | work hworks => exact ⟨h.reached.tail (.inr hworks), h.found.trans hworks.found.symm, h.answered,
      h.tallied⟩
  | turn hturn => exact Asking.turn h hturn
  | proceed hsettled htally => exact Asking.proceed h hsettled htally
  | stop hsettled htally => exact Asking.done h hsettled htally
  | fail hsettled htally => exact ⟨h.reached, Asking.failed h htally⟩

theorem sound_of_reached {s : Course} (h : Reached c p config ask s) : Sound c p config ask s := by
  induction h with
  | refl => exact start_sound c p config ask
  | tail _ hs ih => exact ih.step hs

/-- With nothing reported no answer stopped the check. -/
theorem Done.unsat (h : Done c p config ask j r history) (hclear : Clear r) :
    j.Done ∧ ∀ i ∈ history, i.progress = .answered .unsat ∧ ask i.terminal = .unsat := by
  have hunsat := h.tallied.clear hclear
  rcases h.reason with ⟨i, hi, hanswered, hstops⟩ | ⟨hdone, hanswered⟩
  · rw [hunsat i hi _ hanswered] at hstops
    exact absurd hstops (by simp [CheckConfig.stopsAt])
  · refine ⟨hdone, fun i hi => ?_⟩
    have hask := hunsat i hi _ (hanswered i hi)
    exact ⟨hask ▸ hanswered i hi, hask⟩

/-- If nothing is reported, the exploration is done and all graphs that it found were asked about,
each without a solution. -/
theorem Done.all_unsat (h : Done c p config ask j r history) (hr : Clear r) : j.Done ∧
    history = j.history.found.map (fun t => ⟨t, .answered .unsat⟩) ∧
      ∀ t ∈ j.history.found, ask t = .unsat := by
  obtain ⟨hdone, hunsat⟩ := h.unsat hr
  rw [← h.found]
  refine ⟨hdone, ?_, List.forall_mem_map.2 fun i hi => (hunsat i hi).2⟩
  rw [List.map_map]
  refine (List.map_id _).symm.trans (List.map_congr_left fun i hi => ?_)
  show i = ⟨i.terminal, _⟩
  rw [← (hunsat i hi).1]

theorem Done.sat {s : Solution} (h : Done c p config ask j r history) (hs : s ∈ r.solutions) :
    ∃ t ∈ j.history.found, ask t = .sat s := by
  obtain ⟨i, hi, hsat⟩ := h.tallied.solutions s hs
  refine ⟨i.terminal, h.found ▸ List.mem_map_of_mem hi, ?_⟩
  rcases h.settled i hi with hp | hp
  · exact Progress.answered.inj (hp.symm.trans hsat)
  · exact absurd (hp.symm.trans hsat) (by simp)

theorem Done.asked {e : CheckError} (h : Done c p config ask j r history)
    (he : e ∈ r.failures) : ∃ t ∈ j.history.found, ask t = .failed e := by
  obtain ⟨i, hi, hfailed⟩ := h.tallied.failures e he
  refine ⟨i.terminal, h.found ▸ List.mem_map_of_mem hi, ?_⟩
  rcases h.settled i hi with hp | hp
  · exact Progress.answered.inj (hp.symm.trans hfailed)
  · exact absurd (hp.symm.trans hfailed) (by simp)

end Course

variable {backend : Backend} {m : MemoryModel} {o : Outcome} {t u : TerminalGraph}

def Denied (backend : Backend) (m : MemoryModel) (o : Outcome) (t : TerminalGraph) : Prop :=
  ∃ script, encode t.graph m o = .ok script ∧ backend script = .ok .unsat

theorem denied_iff : Denied backend m o t ↔ query backend m o t = .unsat := by
  constructor
  · rintro ⟨script, hscript, hunsat⟩
    simp only [query, hscript, hunsat]
  · exact script_of_unsat

theorem Denied.of_shape (h : Denied backend m o t) (hshape : u.graph.shape = t.graph.shape) :
    Denied backend m o u := by
  obtain ⟨script, hscript, hunsat⟩ := h
  exact ⟨script, (encode_eq hshape m o).trans hscript, hunsat⟩

/-- An answer is reported about the graph that was asked about. -/
theorem reported?_query (t : TerminalGraph) : (query backend m o t).reported? = none ∨
    (query backend m o t).reported? = some t.index := by
  unfold query
  split
  · exact .inl rfl
  · split
    · unfold witness
      simp only
      split <;> exact .inr rfl
    · exact .inl rfl
    · exact .inr rfl
    · exact .inr rfl

/-- A query has a script, so that it fails only with its solver. -/
theorem terminal?_of_failed (hm : m.validate = .ok ()) {t : TerminalGraph} {e : CheckError}
    (h : query backend m o t = .failed e) : e.terminal? = some t.index := by
  obtain ⟨script, hscript⟩ := exists_script hm t.graph o
  rcases query_cases backend hscript with
    ⟨found, -, hquery⟩ | ⟨-, hquery⟩ | ⟨reason, -, hquery⟩ | ⟨e', -, hquery⟩
  · rw [hquery, witness] at h
    split at h <;> exact absurd h (by simp)
  · exact absurd (hquery.symm.trans h) (by simp)
  · exact absurd (hquery.symm.trans h) (by simp)
  · obtain rfl := QueryResult.failed.inj (hquery.symm.trans h)
    rfl

theorem filterMap_sublist_map {α β : Type} {f : α → Option β} {g : α → β} {xs : List α}
    (h : ∀ a ∈ xs, f a = none ∨ f a = some (g a)) : (xs.filterMap f).Sublist (xs.map g) := by
  induction xs with
  | nil => exact .slnil
  | cons a xs ih =>
    rw [List.forall_mem_cons] at h
    rcases h.1 with ha | ha
    · rw [List.filterMap_cons_none ha]
      exact (ih h.2).cons _
    · rw [List.filterMap_cons_some ha]
      exact (ih h.2).cons_cons _

structure Accounted (config : CheckConfig) (m : MemoryModel) (o : Outcome) (backend : Backend)
    (j : Journey) (history : List Inquiry) (r : CheckResult) : Prop where
  indices : history.map (fun i => i.terminal.index) = List.range r.stats.terminals
  settled : ∀ i ∈ history,
    i.progress = .answered (query backend m o i.terminal) ∨ i.progress = .skipped
  once : r.reported.Nodup
  /-- There is no failure but those about terminal graphs. -/
  named : ∀ e ∈ r.failures, ∃ index, e.terminal? = some index
  queried : r.stats.queried = r.entries + history.countP Inquiry.unsat
  /-- What counts as unsatisfiable is what the backend found to be. -/
  denied : ∀ i ∈ history, i.unsat = true ↔ i.progress ≠ .skipped ∧ Denied backend m o i.terminal
  /-- The flag was up for a solution; a failure that raises it is an error of the check. -/
  skipped : (∃ i ∈ history, i.progress = .skipped) → config.first = true ∧ r.solutions ≠ []
  /-- All graphs that the exploration finds were asked about. -/
  forbidden : r.verdict = .forbidden → j.Done ∧
    history = j.history.found.map (fun t => ⟨t, .answered .unsat⟩) ∧
      (∀ t ∈ j.history.found, Denied backend m o t) ∧ r.stats.queried = r.stats.terminals

theorem Course.Done.indices (hn : c.Numbered) (h : Done c p config ask j r history) :
    history.map (fun i => i.terminal.index) = List.range j.exploration.stats.terminals := by
  rw [← Journey.indices_of_reached hn h.reached, ← h.found, List.map_map]
  rfl

/-- No graph is reported twice, as none is asked about twice. -/
theorem Course.Done.reported_nodup (hn : c.Numbered)
    (h : Done c p config (query backend m o) j r history) : r.reported.Nodup := by
  refine (h.tallied.reported.nodup_iff).2 ?_
  have hsub : (history.filterMap Inquiry.reported?).Sublist
      (history.map fun i => i.terminal.index) := by
    refine filterMap_sublist_map fun i hi => ?_
    unfold Inquiry.reported?
    rcases h.settled i hi with hp | hp
    · rw [hp]
      exact reported?_query i.terminal
    · rw [hp]
      exact .inl rfl
  rw [h.indices hn] at hsub
  exact hsub.nodup List.nodup_range

theorem Inquiry.unsat_iff (h : i.progress = .answered (query backend m o i.terminal) ∨
      i.progress = .skipped) :
    i.unsat = true ↔ i.progress ≠ .skipped ∧ Denied backend m o i.terminal := by
  rw [denied_iff, Inquiry.unsat]
  rcases h with hp | hp
  · rw [hp]
    cases query backend m o i.terminal <;> simp
  · rw [hp]
    simp

theorem Course.Done.accounted (hn : c.Numbered) (hm : m.validate = .ok ())
    (h : Done c p config (query backend m o) j r history) :
    Accounted config m o backend j history (conclude j r) where
  indices := h.indices hn
  settled := h.settled
  once := show r.reported.Nodup from h.reported_nodup hn
  named := by
    intro e he
    obtain ⟨t, -, hask⟩ := h.asked he
    exact ⟨_, terminal?_of_failed hm hask⟩
  queried := h.tallied.balance
  denied := fun i hi => Inquiry.unsat_iff (h.settled i hi)
  skipped := by
    rintro ⟨k, hk, hskipped⟩
    rcases h.reason with ⟨i, hi, hanswered, hstops⟩ | ⟨-, hanswered⟩
    · exact h.tallied.stops i hi _ hanswered hstops
    · exact absurd ((hanswered k hk).symm.trans hskipped) (by simp)
  forbidden := by
    intro hforbidden
    have hclear : Clear r := by
      obtain ⟨hsolutions, hunknowns, hfailures⟩ := clear_of_forbidden hforbidden
      exact ⟨hsolutions, hunknowns, hfailures⟩
    obtain ⟨hdone, hhistory, hunsat⟩ := h.all_unsat hclear
    refine ⟨hdone, hhistory, fun t ht => denied_iff.2 (hunsat t ht), ?_⟩
    have hlength := congrArg List.length (h.indices hn)
    have hcount : history.countP Inquiry.unsat = history.length := by
      rw [List.countP_eq_length, hhistory]
      simp [Inquiry.unsat]
    show r.stats.queried = j.exploration.stats.terminals
    rw [h.tallied.balance, hcount, CheckResult.entries, hclear.solutions, hclear.unknowns,
      hclear.failures]
    simpa using hlength

/-- What a check that finds the outcome forbidden tells of another exploration of the program. -/
structure Covers (backend : Backend) (m : MemoryModel) (o : Outcome) (config : CheckConfig)
    (r : CheckResult) (j j' : Journey) : Prop where
  /-- Each graph that it finds demands no less than one that was asked about. -/
  relaxed : ∀ t ∈ j'.history.found, ∃ u ∈ j.history.found,
    u.graph.shape.Relaxes t.graph.shape ∧ Denied backend m o u
  /-- Without subsumption, or with a single job, it finds nothing but what was asked about. -/
  same : config.subsumption = false ∨ config.jobs ≤ 1 →
    (j'.history.found.map fun t => (t.graph.shape, t.index)) =
      (j.history.found.map fun t => (t.graph.shape, t.index)) ∧
    (∀ t ∈ j'.history.found, Denied backend m o t) ∧
      r.stats.queried = j'.exploration.stats.terminals

/-- All courses end, and the results that they end with account for all graphs. -/
structure Accountable (c : Composition) (p : Precision) (config : CheckConfig) (m : MemoryModel)
    (o : Outcome) (backend : Backend) : Prop where
  progress : ∀ s, Course.Reached c p config (query backend m o) s → s.result? = none →
    ∃ s', Course.Step c p config (query backend m o) s s'
  ends : ¬ ∃ f : Nat → Course, f 0 = .start c config ∧
    ∀ i, Course.Step c p config (query backend m o) (f i) (f (i + 1))
  accounted : ∀ j r history, Course.Reached c p config (query backend m o) (.done j r history) →
    Accounted config m o backend j history (conclude j r)
  covers : ∀ j r history, Course.Reached c p config (query backend m o) (.done j r history) →
    (conclude j r).verdict = .forbidden →
      ∀ j', Journey.Reached c p config.jobs config.subsumption j' → j'.Done →
        Covers backend m o config (conclude j r) j j'
  /-- One of the courses expands one state after the other and has each query wait for the one
  before. -/
  sequential : (∀ r, explore c p config (query backend m o) = .ok (some r) →
      Returns c p config (query backend m o) (.ok r)) ∧
    ∀ e, explore c p config (query backend m o) = .error e →
      Returns c p config (query backend m o) (.error e)

theorem covers_of_accounted (hn : c.Numbered)
    (h : Course.Reached c p config (query backend m o) (.done j r history))
    (haccounted : Accounted config m o backend j history (conclude j r))
    (hr : (conclude j r).verdict = .forbidden)
    (hj' : Journey.Reached c p config.jobs config.subsumption j') (hdone' : j'.Done) :
    Covers backend m o config (conclude j r) j j' := by
  obtain ⟨hdone, -, hdenied, hqueried⟩ := haccounted.forbidden hr
  have hj := (Course.sound_of_reached h : Course.Done c p config _ j r history).reached
  refine ⟨fun t ht => ?_, fun hsettled => ?_⟩
  · obtain ⟨u, hu, hrelaxes⟩ := Journey.exists_relaxing hn hj hdone hj' ht
    exact ⟨u, hu, hrelaxes, hdenied u hu⟩
  · obtain ⟨hfound, hstats⟩ := Journey.found_settled hn hsettled hj' hdone' hj hdone
    refine ⟨hfound, fun t ht => ?_, hqueried.trans (congrArg Stats.terminals hstats).symm⟩
    have hmem : (t.graph.shape, t.index) ∈ j.history.found.map fun t => (t.graph.shape, t.index) :=
      hfound ▸ List.mem_map_of_mem ht
    obtain ⟨u, hu, hsame⟩ := List.mem_map.1 hmem
    exact (hdenied u hu).of_shape (Prod.mk.inj hsame).1.symm

/-- Whatever solver is asked, whenever the check stops and however its workers and queries take
turns, no query counts as unsatisfiable that was not found to be. -/
theorem accountable_of_finite (automata : List Automaton) (initial : List (String × Int))
    (p : Precision) (hfin : (Exploration.reachableKeys (.ofAutomata automata initial) p).Finite)
    (m : MemoryModel) (hm : m.validate = .ok ()) (o : Outcome) (config : CheckConfig)
    (backend : Backend) : Accountable (.ofAutomata automata initial) p config m o backend := by
  have hn := Composition.ofAutomata_numbered automata initial
  have haccounted : ∀ j r history, Course.Reached (.ofAutomata automata initial) p config
      (query backend m o) (.done j r history) →
        Accounted config m o backend j history (conclude j r) := fun j r history h =>
    Course.Done.accounted hn hm (Course.sound_of_reached h)
  refine ⟨fun s _ hs => Course.exists_step hs, ?_, haccounted, fun j r history h hr j' hj' hdone' =>
    covers_of_accounted hn h (haccounted j r history h) hr hj' hdone', returns_of_explore⟩
  rintro ⟨f, hstart, hf⟩
  exact not_acc_iff_exists_descending_chain.2 ⟨f, hstart, hf⟩
    (Course.acc_start hfin config (query backend m o))

def drawing : List Automaton :=
  [.straightLine "P" [.store "x" (.int 1), .load "r" "x", .nondet "n" [0, 1, 2, 3]]]

def choosing : Precision := ⟨⟨["n"]⟩, some 3⟩

def draws : Outcome := ⟨[.register 0 "n" 2]⟩

def drawnGraph (k : Int) : EventGraph := { updatedGraph with
  registers := [⟨[("n", .int k), ("r", .const "rv_t0_1")]⟩] }

def drawnScript (k : Int) : Script :=
  ⟨(updatedScript 0).commands.dropLast.dropLast ++
    [.comment "outcome 0:n=2", .assert (.eq (.int k) (.int 2))]⟩

def drawnGraphs : List TerminalGraph :=
  [⟨0, drawnGraph 0⟩, ⟨1, drawnGraph 1⟩, ⟨2, drawnGraph 2⟩, ⟨3, drawnGraph 3⟩]

def judging : Backend := fun s =>
  match s.assertions.getLast? with
  | some (.eq (.int 1) _) => .ok (.unknown "timeout")
  | some (.eq (.int 2) _) => .ok (.sat none)
  | some (.eq (.int 3) _) => .error (.library "out of memory")
  | _ => .ok .unsat

set_option maxRecDepth 20000 in
theorem drawn_encoded (k : Int) : encode (drawnGraph k) locally draws = .ok (drawnScript k) := by
  have hsymbols : intSymbols (drawnGraph k) draws = ⟨["rv_t0_1"]⟩ := by
    show intSymbols (drawnGraph 0) draws = _
    exact OrderedSet.ofList_eq (by decide) (by decide) (by decide)
  apply encoded_ok
  simp only [encode, build, declare, hsymbols]
  cbv

set_option maxRecDepth 20000 in
theorem drawn_found : Exploration.run (.ofAutomata drawing []) choosing false Exploration.collect 6
    (Exploration.start (.ofAutomata drawing [])) [] =
      .ok (some (drawnGraphs, ⟨7, 4, 0, 0, 0, 0, 4⟩)) := by
  cbv

theorem drawn_answers : ∃ s u e,
    drawnGraphs.map (query judging locally draws) = [.unsat, .unknown u, .sat s, .failed e] := by
  have hdenied : query judging locally draws ⟨0, drawnGraph 0⟩ = .unsat := by
    simp only [query, drawn_encoded]
    rfl
  have hunknown : query judging locally draws ⟨1, drawnGraph 1⟩ =
      .unknown ⟨1, (drawnGraph 1).render, "timeout"⟩ := by
    simp only [query, drawn_encoded]
    rfl
  have hsat : query judging locally draws ⟨2, drawnGraph 2⟩ =
      .sat ⟨2, .ofAssignment (drawnGraph 2) ⟨[]⟩, ⟨[]⟩⟩ := by
    have hholds : draws.holdsIn (.ofAssignment (drawnGraph 2) ⟨[]⟩) = true := by cbv
    simp only [query, drawn_encoded]
    show witness ⟨2, drawnGraph 2⟩ draws ⟨[]⟩ = _
    rw [witness, if_pos hholds]
  have hfailed : query judging locally draws ⟨3, drawnGraph 3⟩ =
      .failed (.solver 3 (drawnGraph 3).render (.library "out of memory")) := by
    simp only [query, drawn_encoded]
    rfl
  exact ⟨_, _, _, by
    rw [drawnGraphs, List.map_cons, List.map_cons, List.map_cons, List.map_cons, hdenied, hunknown,
      hsat, hfailed, List.map_nil]⟩

theorem drawn_finite : (Exploration.reachableKeys (.ofAutomata drawing []) choosing).Finite :=
  Exploration.finite_of_stepBound (Composition.ofAutomata_numbered drawing []) rfl

/-- What the check of the thread returns: a solution, a query without an answer and a failure, of
four. -/
theorem drawn_returns : ∃ s u e stats, stats.queried = 4 ∧
    Returns (.ofAutomata drawing []) choosing thorough (query judging locally draws)
      (.ok ⟨[s], [u], [e], stats⟩) := by
  obtain ⟨s, u, e, hanswers⟩ := drawn_answers
  have h := returns_whole thorough_exhaustive (query judging locally draws) (by decide) drawn_found
  rw [whole, hanswers] at h
  exact ⟨s, u, e, _, rfl, h⟩

theorem updated_found : Exploration.run (.ofAutomata updating []) choosing false
    Exploration.collect 6 (Exploration.start (.ofAutomata updating [])) [] =
      .ok (some ([⟨0, updatedGraph⟩], ⟨3, 1, 0, 0, 0, 0, 3⟩)) := by
  cbv

theorem updated_finite : (Exploration.reachableKeys (.ofAutomata updating []) choosing).Finite :=
  Exploration.finite_of_stepBound (Composition.ofAutomata_numbered updating []) rfl

/-- The thread does not read what was there before. -/
theorem updated_forbidden : ∃ r, Returns (.ofAutomata updating []) choosing thorough
    (query (Script.decide .engine) locally (ends 0)) (.ok r) ∧ r.verdict = .forbidden := by
  have h := returns_whole thorough_exhaustive (query (Script.decide .engine) locally (ends 0))
    (by decide) updated_found
  have hunsat : query (Script.decide .engine) locally (ends 0) ⟨0, updatedGraph⟩ = .unsat := by
    simp only [query, updated_encoded, updatedScript_unsat]
  rw [whole, List.map_cons, List.map_nil, hunsat] at h
  exact ⟨_, h, rfl⟩

/-- The check of the one thread ends with answers of all kinds, and that of the other with an
outcome that is forbidden. -/
theorem accountable_of_finite_drawing :
    (Exploration.reachableKeys (.ofAutomata drawing []) choosing).Finite ∧
    (Exploration.reachableKeys (.ofAutomata updating []) choosing).Finite ∧
      locally.validate = .ok () ∧
    (∃ j r history s u e,
      Course.Reached (.ofAutomata drawing []) choosing thorough (query judging locally draws)
        (.done j r history) ∧
      r.solutions = [s] ∧ r.unknowns = [u] ∧ r.failures = [e] ∧ r.stats.queried = 4 ∧
        Accounted thorough locally draws judging j history (conclude j r)) ∧
    ∃ j r history,
      Course.Reached (.ofAutomata updating []) choosing thorough
        (query (Script.decide .engine) locally (ends 0)) (.done j r history) ∧
      (conclude j r).verdict = .forbidden ∧
        Covers (Script.decide .engine) locally (ends 0) thorough (conclude j r) j j := by
  have hdrawing := accountable_of_finite drawing [] choosing drawn_finite locally locally_validate
    draws thorough judging
  have hupdating := accountable_of_finite updating [] choosing updated_finite locally
    locally_validate (ends 0) thorough (Script.decide .engine)
  refine ⟨drawn_finite, updated_finite, locally_validate, ?_, ?_⟩
  · obtain ⟨s, u, e, stats, hqueried, hreturns⟩ := drawn_returns
    rcases returns_cases hreturns with ⟨j, r, history, hreached, heq⟩ | ⟨_, _, -, heq⟩
    · obtain ⟨hsolutions, hunknowns, hfailures, hstats⟩ := CheckResult.mk.inj (Except.ok.inj heq)
      subst hstats
      exact ⟨j, r, history, s, u, e, hreached, hsolutions.symm, hunknowns.symm, hfailures.symm,
        hqueried, hdrawing.accounted j r history hreached⟩
    · exact absurd heq (by simp)
  · obtain ⟨r, hreturns, hforbidden⟩ := updated_forbidden
    rcases returns_cases hreturns with ⟨j, last, history, hreached, heq⟩ | ⟨_, _, -, heq⟩
    · obtain rfl := Except.ok.inj heq
      obtain ⟨hdone, -⟩ := (hupdating.accounted j last history hreached).forbidden hforbidden
      have hj : Course.Done _ _ _ _ j last history := Course.sound_of_reached hreached
      exact ⟨j, last, history, hreached, hforbidden,
        hupdating.covers j last history hreached hforbidden j hj.reached hdone⟩
    · exact absurd heq (by simp)

end Check
end Consistency
