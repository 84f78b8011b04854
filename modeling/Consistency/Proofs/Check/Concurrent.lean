import Consistency.Proofs.Check.Answer

/-!
# Checks on their way

An exploration goes from level to level, with workers that take turns as its
number of jobs allows. The queries about the terminal graphs of a level run at
once and in any order. They share a flag: one that comes to an answer after
which the check is to stop raises it, and one that has not begun when it is up
is skipped. Once all are answered or skipped, what they came to is recorded in
the order of the graphs.
-/

set_option autoImplicit false

namespace Consistency

def CheckConfig.stopsAt (config : CheckConfig) : QueryResult → Bool
  | .sat _ => config.first
  | .failed _ => config.eager
  | .unsat | .unknown _ => false

namespace Check
open Exploration (Journey)

inductive Progress where
  | waiting
  | asked
  | answered (answer : QueryResult)
  | skipped

structure Inquiry where
  terminal : TerminalGraph
  progress : Progress

namespace Inquiry

def waiting (t : TerminalGraph) : Inquiry := ⟨t, .waiting⟩

def Settled (i : Inquiry) : Prop :=
  match i.progress with
  | .waiting | .asked => False
  | .answered _ | .skipped => True

inductive Turn (config : CheckConfig) (ask : TerminalGraph → QueryResult) :
    Inquiry → Bool → Inquiry → Bool → Prop where
  | start {t : TerminalGraph} : Turn config ask ⟨t, .waiting⟩ false ⟨t, .asked⟩ false
  | skip {t : TerminalGraph} : Turn config ask ⟨t, .waiting⟩ true ⟨t, .skipped⟩ true
  | answer {t : TerminalGraph} {raised : Bool} : Turn config ask ⟨t, .asked⟩ raised
      ⟨t, .answered (ask t)⟩ (raised || config.stopsAt (ask t))

end Inquiry

def note (config : CheckConfig) (r : CheckResult) (i : Inquiry) : Except CheckError CheckResult :=
  match i.progress with
  | .answered q => (record config r q).map Prod.fst
  | .waiting | .asked | .skipped => .ok r

def tally (config : CheckConfig) (r : CheckResult) (inquiries : List Inquiry) :
    Except CheckError CheckResult :=
  inquiries.foldlM (note config) r

def conclude (j : Journey) (r : CheckResult) : CheckResult :=
  { r with stats := { j.exploration.stats with queried := r.stats.queried } }

/-- A check on its way, with the queries that were recorded. -/
inductive Course where
  | exploring (j : Journey) (r : CheckResult) (history : List Inquiry)
  | asking (j : Journey) (r : CheckResult) (history inquiries : List Inquiry) (raised : Bool)
  | done (j : Journey) (r : CheckResult) (history : List Inquiry)
  | failed (j : Journey) (error : CheckError)

namespace Course

def start (c : Composition) (config : CheckConfig) : Course :=
  .exploring (.start c config.subsumption) .empty []

def journey : Course → Journey
  | .exploring j _ _ | .asking j _ _ _ _ | .done j _ _ | .failed j _ => j

def result? : Course → Option (Except CheckError CheckResult)
  | .exploring _ _ _ | .asking _ _ _ _ _ => none
  | .done j r _ => some (.ok (conclude j r))
  | .failed _ e => some (.error e)

/-- The graphs of a level are asked about before its other states are expanded. -/
inductive Step (c : Composition) (p : Precision) (config : CheckConfig)
    (ask : TerminalGraph → QueryResult) : Course → Course → Prop where
  | finish {j : Journey} {r : CheckResult} {history : List Inquiry} (hdone : j.Done) :
      Step c p config ask (.exploring j r history) (.done j r history)
  | enter {j j' : Journey} {r : CheckResult} {history : List Inquiry}
      (henters : Journey.Enters c j j') :
      Step c p config ask (.exploring j r history)
        (.asking j' r history ((j.exploration.terminals c).map Inquiry.waiting) false)
  | work {j j' : Journey} {r : CheckResult} {history : List Inquiry}
      (hworks : Journey.Works c p config.jobs j j') :
      Step c p config ask (.exploring j r history) (.exploring j' r history)
  | turn {j : Journey} {r : CheckResult} {history before after : List Inquiry}
      {i i' : Inquiry} {raised raised' : Bool} (hturn : i.Turn config ask raised i' raised') :
      Step c p config ask (.asking j r history (before ++ i :: after) raised)
        (.asking j r history (before ++ i' :: after) raised')
  | proceed {j : Journey} {r r' : CheckResult} {history inquiries : List Inquiry}
      (hsettled : ∀ i ∈ inquiries, i.Settled) (htally : tally config r inquiries = .ok r') :
      Step c p config ask (.asking j r history inquiries false)
        (.exploring j r' (history ++ inquiries))
  | stop {j : Journey} {r r' : CheckResult} {history inquiries : List Inquiry}
      (hsettled : ∀ i ∈ inquiries, i.Settled) (htally : tally config r inquiries = .ok r') :
      Step c p config ask (.asking j r history inquiries true)
        (.done j r' (history ++ inquiries))
  | fail {j : Journey} {r : CheckResult} {history inquiries : List Inquiry} {raised : Bool}
      {e : CheckError} (hsettled : ∀ i ∈ inquiries, i.Settled)
      (htally : tally config r inquiries = .error e) :
      Step c p config ask (.asking j r history inquiries raised) (.failed j e)

def Leads (c : Composition) (p : Precision) (config : CheckConfig)
    (ask : TerminalGraph → QueryResult) : Course → Course → Prop :=
  Relation.ReflTransGen (Step c p config ask)

def Reached (c : Composition) (p : Precision) (config : CheckConfig)
    (ask : TerminalGraph → QueryResult) : Course → Prop :=
  Leads c p config ask (start c config)

end Course

def Returns (c : Composition) (p : Precision) (config : CheckConfig)
    (ask : TerminalGraph → QueryResult) (a : Except CheckError CheckResult) : Prop :=
  ∃ s, Course.Reached c p config ask s ∧ s.result? = some a

/-- Whatever a check may come to; the model and the outcome are looked at first. -/
inductive Runs (solve : SatSolver) (c : Composition) (m : MemoryModel) (o : Outcome)
    (p : Precision) (config : CheckConfig) : Except CheckError CheckResult → Prop where
  | invalidModel {e : ModelError} (hm : m.validate = .error e) :
      Runs solve c m o p config (.error (.invalidModel e))
  | invalidOutcome {e : OutcomeError} (hm : m.validate = .ok ()) (ho : o.validate c = .error e) :
      Runs solve c m o p config (.error (.invalidOutcome e))
  | noBackend {e : SolverError} (hm : m.validate = .ok ()) (ho : o.validate c = .ok ())
      (hbackend : config.backend.start solve = .error e) :
      Runs solve c m o p config (.error (.backend e))
  | explored {backend : Backend} {a : Except CheckError CheckResult} (hm : m.validate = .ok ())
      (ho : o.validate c = .ok ()) (hbackend : config.backend.start solve = .ok backend)
      (hreturns : Returns c p config (query backend m o) a) : Runs solve c m o p config a

variable {c : Composition} {p : Precision} {config : CheckConfig}
  {ask : TerminalGraph → QueryResult} {j j' : Journey} {r r' : CheckResult}
  {history inquiries : List Inquiry} {raised raised' : Bool} {i i' : Inquiry}
  {a : Except CheckError CheckResult}

/-- What a check returns are the ends of its courses. -/
theorem returns_cases (h : Returns c p config ask a) :
    (∃ j r history, Course.Reached c p config ask (.done j r history) ∧ a = .ok (conclude j r)) ∨
      ∃ j e, Course.Reached c p config ask (.failed j e) ∧ a = .error e := by
  obtain ⟨s, hreached, hresult⟩ := h
  cases s with
  | exploring => exact absurd hresult (by simp [Course.result?])
  | asking => exact absurd hresult (by simp [Course.result?])
  | done j r history => exact .inl ⟨j, r, history, hreached, (Option.some.inj hresult).symm⟩
  | failed j e => exact .inr ⟨j, e, hreached, (Option.some.inj hresult).symm⟩

namespace Inquiry

def work (i : Inquiry) : Nat :=
  match i.progress with
  | .waiting => 2
  | .asked => 1
  | .answered _ | .skipped => 0

theorem Turn.work_lt (h : i.Turn config ask raised i' raised') : i'.work < i.work := by
  cases h <;> simp [work]

theorem exists_turn (config : CheckConfig) (ask : TerminalGraph → QueryResult) (h : ¬ i.Settled)
    (raised : Bool) : ∃ i' raised', i.Turn config ask raised i' raised' := by
  obtain ⟨t, progress⟩ := i
  cases progress with
  | waiting =>
    cases raised with
    | false => exact ⟨_, _, .start⟩
    | true => exact ⟨_, _, .skip⟩
  | asked => exact ⟨_, _, .answer⟩
  | answered q => exact absurd trivial h
  | skipped => exact absurd trivial h

end Inquiry

namespace Course
variable {s s' : Course}

theorem exists_step (h : s.result? = none) : ∃ s', Step c p config ask s s' := by
  cases s with
  | exploring j r history =>
    by_cases hdone : j.Done
    · exact ⟨_, .finish hdone⟩
    · obtain ⟨j', henters | hworks⟩ : ∃ j', Journey.Step c p config.jobs j j' :=
        Journey.exists_step hdone
      · exact ⟨_, .enter henters⟩
      · exact ⟨_, .work hworks⟩
  | asking j r history inquiries raised =>
    by_cases hall : ∀ i ∈ inquiries, i.Settled
    · cases htally : tally config r inquiries with
      | error e => exact ⟨_, .fail hall htally⟩
      | ok r' =>
        cases raised with
        | false => exact ⟨_, .proceed hall htally⟩
        | true => exact ⟨_, .stop hall htally⟩
    · obtain ⟨i, hi, hnot⟩ : ∃ i ∈ inquiries, ¬ i.Settled := by simpa using hall
      obtain ⟨before, after, rfl⟩ := List.append_of_mem hi
      obtain ⟨i', raised', hturn⟩ := Inquiry.exists_turn config ask hnot raised
      exact ⟨_, .turn hturn⟩
  | done => exact absurd h (by simp [result?])
  | failed => exact absurd h (by simp [result?])

theorem acc_of_result (h : s.result? ≠ none) : Acc (fun s' s => Step c p config ask s s') s := by
  refine Acc.intro s fun s' hs => ?_
  cases hs <;> exact absurd rfl h

/-- By induction on the turns that are left: a level ends if all that comes after it does. -/
theorem acc_of_asking (hrest : ∀ r' history', Acc (fun s' s => Step c p config ask s s')
      (.exploring j r' history'))
    (r : CheckResult) (history inquiries : List Inquiry) (raised : Bool) :
    Acc (fun s' s => Step c p config ask s s') (.asking j r history inquiries raised) := by
  induction hn : (inquiries.map Inquiry.work).sum using Nat.strong_induction_on
    generalizing inquiries raised with
  | _ n ih =>
    refine Acc.intro _ fun s' hs => ?_
    cases hs with
    | turn hturn =>
      have hwork := hturn.work_lt
      refine ih _ ?_ _ _ rfl
      simp only [List.map_append, List.map_cons, List.sum_append, List.sum_cons] at hn ⊢
      omega
    | proceed => exact hrest _ _
    | stop => exact acc_of_result (by simp [result?])
    | fail => exact acc_of_result (by simp [result?])

/-- By induction on what is left of the journey. -/
theorem acc_of_exploring (ask : TerminalGraph → QueryResult)
    (hacc : Acc (fun j' j => Journey.Step c p config.jobs j j') j) (r : CheckResult)
    (history : List Inquiry) :
    Acc (fun s' s => Step c p config ask s s') (.exploring j r history) := by
  induction hacc generalizing r history with
  | intro j _ ih =>
    refine Acc.intro _ fun s' hs => ?_
    cases hs with
    | finish => exact acc_of_result (by simp [result?])
    | enter henters =>
      exact acc_of_asking (fun r' history' => ih _ (.inl henters) r' history') _ _ _ _
    | work hworks => exact ih _ (.inr hworks) _ _

theorem acc_start (hfin : (Exploration.reachableKeys c p).Finite) (config : CheckConfig)
    (ask : TerminalGraph → QueryResult) :
    Acc (fun s' s => Step c p config ask s s') (start c config) :=
  acc_of_exploring ask (Journey.acc_of_start hfin config.jobs config.subsumption) _ _

end Course

/-- What is recorded is added to the result, and the check stops only for a solution. -/
theorem added_of_record {q : QueryResult} {stop : Bool} (h : record config r q = .ok (r', stop)) :
    r' = r.add q ∧ stop = config.stopsAt q ∧
      (stop = true → config.first = true ∧ r'.solutions ≠ []) := by
  cases q with
  | sat s =>
    obtain ⟨rfl, rfl⟩ := Prod.mk.inj (Except.ok.inj h)
    exact ⟨rfl, rfl, fun hstop => ⟨hstop, by simp⟩⟩
  | unsat =>
    obtain ⟨rfl, rfl⟩ := Prod.mk.inj (Except.ok.inj h)
    exact ⟨rfl, rfl, fun hstop => absurd hstop (by decide)⟩
  | unknown u =>
    obtain ⟨rfl, rfl⟩ := Prod.mk.inj (Except.ok.inj h)
    exact ⟨rfl, rfl, fun hstop => absurd hstop (by decide)⟩
  | failed e =>
    simp only [record] at h
    split at h
    · exact absurd h (by simp)
    · next heager =>
      obtain ⟨rfl, rfl⟩ := Prod.mk.inj (Except.ok.inj h)
      exact ⟨rfl, (Bool.eq_false_iff.2 heager).symm, fun hstop => absurd hstop (by decide)⟩

theorem stopsAt_of_error {q : QueryResult} {e : CheckError} (h : record config r q = .error e) :
    config.stopsAt q = true := by
  cases q with
  | sat s => exact absurd h (by simp [record])
  | unsat => exact absurd h (by simp [record])
  | unknown u => exact absurd h (by simp [record])
  | failed e' =>
    simp only [record] at h
    split at h
    · next heager => exact heager
    · exact absurd h (by simp)

/-- After an answer that stops the check the level is over. -/
theorem level_of_stops {t : TerminalGraph} (h : config.stopsAt (ask t) = true) (r : CheckResult)
    (ts : List TerminalGraph) : level config ask r (t :: ts) = record config r (ask t) := by
  rw [level]
  cases hrecord : record config r (ask t) with
  | error e => rfl
  | ok after =>
    obtain ⟨after, stop⟩ := after
    obtain rfl := (added_of_record hrecord).2.1.trans h
    rfl

theorem exists_record {q : QueryResult} (h : config.stopsAt q = false) (r : CheckResult) :
    ∃ after, record config r q = .ok (after, false) := by
  cases hrecord : record config r q with
  | error e =>
    rw [stopsAt_of_error hrecord] at h
    exact absurd h (by decide)
  | ok after =>
    obtain ⟨after, stop⟩ := after
    obtain rfl := (added_of_record hrecord).2.1.trans h
    exact ⟨after, rfl⟩

theorem note_answered (r : CheckResult) (t : TerminalGraph) (q : QueryResult) :
    note config r ⟨t, .answered q⟩ = (record config r q).map Prod.fst := rfl

theorem tally_cons (r : CheckResult) (i : Inquiry) (is : List Inquiry) :
    tally config r (i :: is) = note config r i >>= fun mid => tally config mid is := rfl

theorem tally_append (r : CheckResult) (is js : List Inquiry) :
    tally config r (is ++ js) = tally config r is >>= fun mid => tally config mid js :=
  List.foldlM_append

theorem tally_skipped (r : CheckResult) (ts : List TerminalGraph) :
    tally config r (ts.map (Inquiry.mk · .skipped)) = .ok r := by
  induction ts with
  | nil => rfl
  | cons t ts ih => exact ih

/-- The next answer is recorded after those before it. -/
theorem tally_concat {mid : CheckResult} {before : List Inquiry}
    (h : tally config r before = .ok mid) (t : TerminalGraph) (q : QueryResult) :
    tally config r (before ++ [⟨t, .answered q⟩]) = (record config mid q).map Prod.fst := by
  rw [tally_append, h]
  show tally config mid [⟨t, .answered q⟩] = _
  rw [tally_cons, note_answered]
  cases record config mid q <;> rfl

namespace Course

/-- Once the flag is up, what has not begun is skipped. -/
theorem skips (before : List Inquiry) (ts : List TerminalGraph) : Leads c p config ask
    (.asking j r history (before ++ ts.map Inquiry.waiting) true)
    (.asking j r history (before ++ ts.map (Inquiry.mk · .skipped)) true) := by
  induction ts generalizing before with
  | nil => exact .refl
  | cons t ts ih =>
    have hrest := ih (before ++ [⟨t, .skipped⟩])
    rw [List.append_assoc, List.append_assoc] at hrest
    exact .head (.turn .skip) hrest

theorem answers (before after : List Inquiry) (t : TerminalGraph) : Leads c p config ask
    (.asking j r history (before ++ .waiting t :: after) false)
    (.asking j r history (before ++ [⟨t, .answered (ask t)⟩] ++ after)
      (config.stopsAt (ask t))) := by
  rw [List.append_assoc, List.singleton_append]
  exact .tail (.single (.turn .start)) (.turn .answer)

/-- After an answer to stop at, all queries that wait are skipped, as the level does. -/
theorem stopped_leads (history : List Inquiry) {t : TerminalGraph} (ts : List TerminalGraph)
    (hstops : config.stopsAt (ask t) = true) {before : List Inquiry} {mid : CheckResult}
    (hbefore : ∀ i ∈ before, i.Settled) (hmid : tally config r before = .ok mid) :
    ∃ inquiries, Leads c p config ask
      (.asking j r history (before ++ (t :: ts).map Inquiry.waiting) false)
      (.asking j r history inquiries true) ∧ (∀ i ∈ inquiries, i.Settled) ∧
        tally config r inquiries = (level config ask mid (t :: ts)).map Prod.fst := by
  have hanswer : Leads c p config ask
      (.asking j r history (before ++ (t :: ts).map Inquiry.waiting) false) _ :=
    answers before (ts.map Inquiry.waiting) t
  rw [hstops] at hanswer
  refine ⟨_, hanswer.trans (skips _ ts), List.forall_mem_append.2
    ⟨List.forall_mem_append.2 ⟨hbefore, List.forall_mem_singleton.2 trivial⟩, fun i hi => ?_⟩, ?_⟩
  · obtain ⟨u, -, rfl⟩ := List.mem_map.1 hi
    trivial
  · rw [level_of_stops hstops, tally_append, tally_concat hmid t (ask t)]
    cases record config mid (ask t) with
    | error e => rfl
    | ok after => exact tally_skipped _ ts

/-- By induction on the graphs that are left: queries that wait for each other come to what the
level does. -/
theorem level_leads (ask : TerminalGraph → QueryResult) (history : List Inquiry)
    (ts : List TerminalGraph) {before : List Inquiry} {mid : CheckResult}
    (hbefore : ∀ i ∈ before, i.Settled) (hmid : tally config r before = .ok mid) :
    ∃ inquiries raised, Leads c p config ask
      (.asking j r history (before ++ ts.map Inquiry.waiting) false)
      (.asking j r history inquiries raised) ∧ (∀ i ∈ inquiries, i.Settled) ∧
        tally config r inquiries = (level config ask mid ts).map Prod.fst ∧
          ∀ after stop, level config ask mid ts = .ok (after, stop) → raised = stop := by
  induction ts generalizing before mid with
  | nil =>
    refine ⟨before, false, ?_, hbefore, hmid, fun after stop h => (Prod.mk.inj (Except.ok.inj h)).2⟩
    rw [List.map_nil, List.append_nil]
    exact .refl
  | cons t ts ih =>
    cases hstops : config.stopsAt (ask t) with
    | true =>
      obtain ⟨inquiries, hleads, hsettled, htally⟩ :=
        stopped_leads (c := c) (p := p) (j := j) history ts hstops hbefore hmid
      refine ⟨inquiries, true, hleads, hsettled, htally, fun after stop h => ?_⟩
      rw [level_of_stops hstops] at h
      exact hstops.symm.trans (added_of_record h).2.1.symm
    | false =>
      have hanswer : Leads c p config ask
          (.asking j r history (before ++ (t :: ts).map Inquiry.waiting) false) _ :=
        answers before (ts.map Inquiry.waiting) t
      have hconcat := tally_concat hmid t (ask t)
      have hsettled : ∀ i ∈ before ++ [⟨t, .answered (ask t)⟩], i.Settled :=
        List.forall_mem_append.2 ⟨hbefore, List.forall_mem_singleton.2 trivial⟩
      obtain ⟨next, hnext⟩ := exists_record hstops mid
      rw [hstops] at hanswer
      rw [hnext] at hconcat
      obtain ⟨inquiries, raised, hleads, hrest⟩ := ih hsettled hconcat
      have hlevel : level config ask mid (t :: ts) = level config ask next ts := by
        rw [level, hnext]
        rfl
      rw [hlevel]
      exact ⟨inquiries, raised, hanswer.trans hleads, hrest⟩

end Course

inductive InOrder (c : Composition) (p : Precision) (config : CheckConfig)
    (ask : TerminalGraph → QueryResult) : Journey → CheckResult → Prop where
  | start : InOrder c p config ask (.start c config.subsumption) .empty
  | work {j j' : Journey} {r : CheckResult} (h : InOrder c p config ask j r)
      (hworks : Journey.Works c p config.jobs j j') : InOrder c p config ask j' r
  | enter {j j' : Journey} {r r' : CheckResult} (h : InOrder c p config ask j r)
      (henters : Journey.Enters c j j')
      (hlevel : level config ask r (j.exploration.terminals c) = .ok (r', false)) :
      InOrder c p config ask j' r'

def StopsInOrder (c : Composition) (p : Precision) (config : CheckConfig)
    (ask : TerminalGraph → QueryResult) (j : Journey) (r : CheckResult) : Prop :=
  ∃ i r₀, InOrder c p config ask i r₀ ∧ Journey.Enters c i j ∧
    level config ask r₀ (i.exploration.terminals c) = .ok (r, true)

def FailsInOrder (c : Composition) (p : Precision) (config : CheckConfig)
    (ask : TerminalGraph → QueryResult) (j : Journey) (e : CheckError) : Prop :=
  ∃ i r₀, InOrder c p config ask i r₀ ∧ Journey.Enters c i j ∧
    level config ask r₀ (i.exploration.terminals c) = .error e

namespace Course

/-- Queries that wait for each other leave the level with what they came to. -/
theorem asking_leads (config : CheckConfig) (ask : TerminalGraph → QueryResult) (r : CheckResult)
    (history : List Inquiry) (henters : Journey.Enters c j j') : ∃ inquiries raised,
      Leads c p config ask (.exploring j r history) (.asking j' r history inquiries raised) ∧
        (∀ i ∈ inquiries, i.Settled) ∧
          tally config r inquiries =
            (level config ask r (j.exploration.terminals c)).map Prod.fst ∧
          ∀ after stop, level config ask r (j.exploration.terminals c) = .ok (after, stop) →
            raised = stop := by
  obtain ⟨inquiries, raised, hleads, hrest⟩ :=
    level_leads (c := c) (p := p) (j := j') ask history (j.exploration.terminals c)
      (List.forall_mem_nil Inquiry.Settled) (show tally config r [] = .ok r from rfl)
  exact ⟨inquiries, raised, .head (.enter henters) hleads, hrest⟩

theorem reached_of_inOrder (h : InOrder c p config ask j r) :
    ∃ history, Reached c p config ask (.exploring j r history) := by
  induction h with
  | start => exact ⟨[], .refl⟩
  | work _ hworks ih =>
    obtain ⟨history, hreached⟩ := ih
    exact ⟨history, hreached.tail (.work hworks)⟩
  | @enter j j' r r' _ henters hlevel ih =>
    obtain ⟨history, hreached⟩ := ih
    obtain ⟨inquiries, raised, hleads, hsettled, htally, hraised⟩ :=
      asking_leads (p := p) config ask r history henters
    obtain rfl := hraised _ _ hlevel
    rw [hlevel] at htally
    exact ⟨history ++ inquiries, (hreached.trans hleads).tail (.proceed hsettled htally)⟩

theorem reached_of_stops (h : StopsInOrder c p config ask j r) :
    ∃ history, Reached c p config ask (.done j r history) := by
  obtain ⟨i, r₀, hi, henters, hlevel⟩ := h
  obtain ⟨history, hreached⟩ := reached_of_inOrder hi
  obtain ⟨inquiries, raised, hleads, hsettled, htally, hraised⟩ :=
    asking_leads (p := p) config ask r₀ history henters
  obtain rfl := hraised _ _ hlevel
  rw [hlevel] at htally
  exact ⟨history ++ inquiries, (hreached.trans hleads).tail (.stop hsettled htally)⟩

theorem reached_of_fails {e : CheckError} (h : FailsInOrder c p config ask j e) :
    Reached c p config ask (.failed j e) := by
  obtain ⟨i, r₀, hi, henters, hlevel⟩ := h
  obtain ⟨history, hreached⟩ := reached_of_inOrder hi
  obtain ⟨inquiries, raised, hleads, hsettled, htally, -⟩ :=
    asking_leads (p := p) config ask r₀ history henters
  rw [hlevel] at htally
  exact (hreached.trans hleads).tail (.fail hsettled htally)

end Course

theorem InOrder.works (h : InOrder c p config ask j r)
    (hworks : Relation.ReflTransGen (Journey.Works c p config.jobs) j j') :
    InOrder c p config ask j' r := by
  induction hworks with
  | refl => exact h
  | tail _ hs ih => exact ih.work hs

/-- By induction on the steps of a journey: a check that asks in order comes along, unless it ends
before. -/
theorem inOrder_cases (config : CheckConfig) (ask : TerminalGraph → QueryResult)
    (h : Journey.Reached c p config.jobs config.subsumption j) :
    (∃ r, InOrder c p config ask j r) ∨ ∃ i,
      Relation.ReflTransGen (Journey.Step c p config.jobs) i j ∧
        ((∃ r, StopsInOrder c p config ask i r) ∨ ∃ e, FailsInOrder c p config ask i e) := by
  induction h with
  | refl => exact .inl ⟨_, .start⟩
  | @tail j j' _ hs ih =>
    rcases ih with ⟨r, hr⟩ | ⟨i, hsteps, hends⟩
    · rcases hs with henters | hworks
      · rcases hlevel : level config ask r (j.exploration.terminals c) with e | ⟨after, _ | _⟩
        · exact .inr ⟨j', .refl, .inr ⟨e, j, r, hr, henters, hlevel⟩⟩
        · exact .inl ⟨after, hr.enter henters hlevel⟩
        · exact .inr ⟨j', .refl, .inl ⟨after, j, r, hr, henters, hlevel⟩⟩
      · exact .inl ⟨r, hr.work hworks⟩
    · exact .inr ⟨i, hsteps.tail hs, hends⟩

/-- By induction on the levels: a check that also expands one state after the other asks in
order. -/
theorem run_inOrder (config : CheckConfig) (ask : TerminalGraph → QueryResult) (fuel : Nat)
    {x : Exploration} {g : Exploration.History}
    (h : InOrder c p config ask (.between x g config.subsumption) r) :
    (∀ last stats, Exploration.run c p config.subsumption (level config ask) fuel x r =
      .ok (some (last, stats)) → ∃ j, j.exploration.stats = stats ∧
        (j.Done ∧ InOrder c p config ask j last ∨ StopsInOrder c p config ask j last)) ∧
    ∀ e, Exploration.run c p config.subsumption (level config ask) fuel x r = .error e →
      ∃ j, FailsInOrder c p config ask j e := by
  induction fuel generalizing x r g with
  | zero => simp [Exploration.run]
  | succ fuel ih =>
    by_cases hempty : x.frontier = []
    · rw [Exploration.run_end hempty]
      refine ⟨fun last stats hrun => ?_, fun e hrun => absurd hrun (by simp)⟩
      obtain ⟨rfl, rfl⟩ := Prod.mk.inj (Option.some.inj (Except.ok.inj hrun))
      exact ⟨_, congrArg Exploration.stats Journey.exploration_between,
        .inl ⟨Journey.done_between.2 hempty, h⟩⟩
    · obtain ⟨j, g', henters, hworks⟩ :=
        Journey.level_leads (c := c) p config.jobs config.subsumption g hempty
      have hsame : (Journey.between x g config.subsumption).exploration = x :=
        Journey.exploration_between
      have hmore : x.frontier.isEmpty = false := List.isEmpty_eq_false_iff.2 hempty
      rcases hlevel : level config ask r (x.terminals c) with e | ⟨after, _ | _⟩
      · rw [Exploration.run_error hmore hlevel]
        refine ⟨fun _ _ hrun => absurd hrun (by simp), fun e' hrun => ?_⟩
        obtain rfl := Except.error.inj hrun
        exact ⟨j, _, r, h, henters, by rw [hsame]; exact hlevel⟩
      · rw [Exploration.run_level hmore hlevel]
        exact ih ((h.enter henters (by rw [hsame]; exact hlevel)).works hworks)
      · rw [Exploration.run_stop hmore hlevel]
        refine ⟨fun last stats hrun => ?_, fun e hrun => absurd hrun (by simp)⟩
        obtain ⟨rfl, rfl⟩ := Prod.mk.inj (Option.some.inj (Except.ok.inj hrun))
        refine ⟨j, ?_, .inr ⟨_, r, h, henters, by rw [hsame]; exact hlevel⟩⟩
        rw [henters.exploration, hsame]

theorem explore_fails {e : CheckError} (h : explore c p config ask = .error e) :
    ∃ j, FailsInOrder c p config ask j e := by
  rcases bind_eq_error.1 h with hrun | ⟨_, -, h⟩
  · refine (run_inOrder config ask _ (g := ⟨[], [], 0⟩) ?_).2 e hrun
    rw [← Journey.start_eq]
    exact .start
  · exact absurd h (by simp [pure, Except.pure])

theorem returns_of_explore :
    (∀ r, explore c p config ask = .ok (some r) → Returns c p config ask (.ok r)) ∧
      ∀ e, explore c p config ask = .error e → Returns c p config ask (.error e) := by
  refine ⟨fun r h => ?_, fun e h => ?_⟩
  · obtain ⟨found, hrun, h⟩ := bind_eq_ok.1 h
    obtain ⟨⟨last, stats⟩, rfl, rfl⟩ := Option.map_eq_some_iff.1 (Except.ok.inj h)
    have hstart : InOrder c p config ask
        (.between (.start c) ⟨[], [], 0⟩ config.subsumption) .empty := by
      rw [← Journey.start_eq]
      exact .start
    obtain ⟨j, rfl, ⟨hdone, hlast⟩ | hstops⟩ := (run_inOrder config ask _ hstart).1 last stats hrun
    · obtain ⟨history, hreached⟩ := Course.reached_of_inOrder hlast
      exact ⟨_, hreached.tail (.finish hdone), rfl⟩
    · obtain ⟨history, hreached⟩ := Course.reached_of_stops hstops
      exact ⟨_, hreached, rfl⟩
  · obtain ⟨j, hfails⟩ := explore_fails h
    exact ⟨_, Course.reached_of_fails hfails, rfl⟩

/-- A check that never stops returns what the graphs come to that a run collects. -/
theorem returns_whole {k : Nat} {found : List TerminalGraph} {stats : Stats}
    (hx : config.Exhaustive) (ask : TerminalGraph → QueryResult)
    (hlevels : k ≤ Exploration.levelLimit)
    (h : Exploration.run c p config.subsumption Exploration.collect k (Exploration.start c) [] =
      .ok (some (found, stats))) : Returns c p config ask (.ok (whole ask found stats)) :=
  returns_of_explore.1 _ (explore_exhaustive hx ask (Exploration.run_mono hlevels h))

/-- A check that expands one state and asks one query after the other is one of those that are
considered. -/
theorem runs_of_run {solve : SatSolver} {m : MemoryModel} {o : Outcome} :
    (∀ r, run solve c m o p config = .ok (some r) → Runs solve c m o p config (.ok r)) ∧
      ∀ e, run solve c m o p config = .error e → Runs solve c m o p config (.error e) := by
  unfold run
  cases hm : m.validate with
  | error e =>
    refine ⟨fun r h => absurd h (by simp [validated, bind, Except.bind]), fun e' h => ?_⟩
    obtain rfl := Except.error.inj h
    exact .invalidModel hm
  | ok _ =>
    cases ho : o.validate c with
    | error e =>
      refine ⟨fun r h => absurd h (by simp [validated, bind, Except.bind]), fun e' h => ?_⟩
      obtain rfl := Except.error.inj h
      exact .invalidOutcome hm ho
    | ok _ =>
      cases hbackend : config.backend.start solve with
      | error e =>
        refine ⟨fun r h => absurd h (by
          simp [validated, bind, Except.bind, throw, throwThe, MonadExceptOf.throw]),
          fun e' h => ?_⟩
        obtain rfl := Except.error.inj h
        exact .noBackend hm ho hbackend
      | ok backend =>
        exact ⟨fun r h => .explored hm ho hbackend (returns_of_explore.1 r h),
          fun e h => .explored hm ho hbackend (returns_of_explore.2 e h)⟩

end Check
end Consistency
