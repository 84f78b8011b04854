import Consistency.Graph
import Consistency.Proofs.Ordered.Map
import Consistency.Proofs.Ordered.Set
import Consistency.Proofs.Term.Order

/-!
# Reachable states

The states that steps lead to from the initial one. A step is told once and for
all; what is said of reachable states goes by induction on the steps.
-/

set_option autoImplicit false

namespace Consistency

namespace Thread
variable {t : Thread} {p : Precision} {s next : LocalState} {edge : Nat}

theorem mem_step (h : next ∈ t.step p s edge) : ∃ e, t.automaton.edge? edge = some e ∧
    e.source = s.location ∧ p.exhausted s.steps = false ∧ next ∈ t.follow p s e := by
  unfold step at h
  split at h
  · exact absurd h (by simp)
  · next e he =>
    split at h
    · exact absurd h (by simp)
    · next hn =>
      rw [not_or, not_not, Bool.not_eq_true] at hn
      exact ⟨e, he, hn.1, hn.2, h⟩

def emit (t : Thread) (s : LocalState) (edge number : Nat) : List Event :=
  ((t.access s edge).map fun x =>
    Event.make number (.thread t.id) x.var x.kind s.accesses x.value).toList

end Thread

theorem GlobalState.mem_constraints {s : GlobalState} {t : Term} :
    t ∈ s.constraints.toList ↔ ∃ l ∈ s.locals, t ∈ l.constraints.toList :=
  OrderedSet.mem_ofList.trans List.mem_flatMap

namespace Composition
variable {c : Composition} {p : Precision} {s t : GlobalState}

inductive Reachable (c : Composition) (p : Precision) : GlobalState → Prop where
  | init (number : Nat) : Reachable c p (c.init number).1
  | step {s t : GlobalState} (a : Action) (number : Nat) :
      Reachable c p s → t ∈ (c.trans p s a number).1 → Reachable c p t

/-- All that a step can do. -/
theorem mem_trans {a : Action} {number : Nat} (h : t ∈ (c.trans p s a number).1) :
    ∃ th l next, c.threads[a.thread]? = some th ∧ s.locals[a.thread]? = some l ∧
      next ∈ th.step p l a.edge ∧ s.terminated.contains a.thread = false ∧
        t = settle s (th.emit l a.edge number ++ s.emitted) a.thread th next := by
  unfold trans at h
  split at h
  · next th l hth hl =>
    split at h
    · exact absurd h (by simp)
    · next hrun =>
      simp only at h
      split at h
      · exact absurd h (by simp)
      · split at h
        · next x hx =>
          obtain ⟨next, hnext, rfl⟩ := List.mem_map.1 h
          refine ⟨th, l, next, hth, hl, hnext, Bool.eq_false_iff.2 hrun, ?_⟩
          simp [Thread.emit, hx]
        · next hx =>
          obtain ⟨next, hnext, rfl⟩ := List.mem_map.1 h
          refine ⟨th, l, next, hth, hl, hnext, Bool.eq_false_iff.2 hrun, ?_⟩
          simp [Thread.emit, hx]
  · exact absurd h (by simp)

/-- What holds at the start and is kept by every step holds in all reachable states. -/
theorem Reachable.invariant {I : GlobalState → Prop} (start : ∀ number, I (c.init number).1)
    (keep : ∀ s a number, ∀ t ∈ (c.trans p s a number).1, I s → I t) (h : c.Reachable p s) :
    I s := by
  induction h with
  | init number => exact start number
  | step a number _ ht ih => exact keep _ a number _ ht ih

structure Initialized (c : Composition) : Prop where
  accessed : ∀ t ∈ c.threads, ∀ e ∈ t.automaton.edges, ∀ x, e.label.sharedVar? = some x →
    x ∈ c.initialWrites.keys
  once : c.initialWrites.keys.Nodup

theorem ofAutomata_initialized (automata : List Automaton) (initial : List (String × Int)) :
    (ofAutomata automata initial).Initialized where
  accessed := by
    intro t ht e he x hx
    obtain ⟨⟨a, i⟩, ha, rfl⟩ := List.mem_map.1 ht
    rw [ofAutomata, OrderedMap.mem_keys_ofList, List.map_append, List.map_map]
    refine List.mem_append_left _ (List.mem_map.2 ⟨x, ?_, rfl⟩)
    refine List.mem_flatMap.2 ⟨a, List.fst_mem_of_mem_zipIdx ha, ?_⟩
    exact OrderedSet.mem_ofList.2 (List.mem_filterMap.2 ⟨e, he, hx⟩)
  once := (OrderedMap.ofList_sorted _).nodup

theorem ofAutomata_thread_id {automata : List Automaton} {initial : List (String × Int)} {i : Nat}
    {t : Thread} (h : (ofAutomata automata initial).threads[i]? = some t) : t.id = i := by
  simp only [ofAutomata, List.getElem?_map, List.getElem?_zipIdx, Option.map_map,
    Option.map_eq_some_iff] at h
  obtain ⟨a, -, rfl⟩ := h
  simp

structure Regular (es : List Event) : Prop where
  writes : ∀ e ∈ es, e.isInit = true → e.isWrite = true
  initial : ∀ e ∈ es, ∃ d ∈ es, d.isInit = true ∧ d.var = e.var
  once : es.Pairwise fun d e => d.isInit = true → e.isInit = true → d.var ≠ e.var

theorem mem_initialEvents {number : Nat} {e : Event} (h : e ∈ c.initialEvents number) :
    ∃ x v i, (x, v) ∈ c.initialWrites.entries ∧
      e = .make (number + i) .init x .write i (some (.int v)) := by
  obtain ⟨⟨⟨x, v⟩, i⟩, hi, rfl⟩ := List.mem_map.1 h
  exact ⟨x, v, i, List.fst_mem_of_mem_zipIdx hi, rfl⟩

theorem vars_initialEvents (c : Composition) (number : Nat) :
    (c.initialEvents number).map Event.var = c.initialWrites.keys := by
  unfold initialEvents OrderedMap.keys
  conv_rhs => rw [← List.zipIdx_map_fst 0 c.initialWrites.entries, List.map_map]
  rw [List.map_map]
  rfl

theorem initialEvents_regular (hc : c.Initialized) (number : Nat) :
    Regular (c.initialEvents number) where
  writes := by
    intro e he _
    obtain ⟨x, v, i, -, rfl⟩ := mem_initialEvents he
    rfl
  initial := by
    intro e he
    refine ⟨e, he, ?_, rfl⟩
    obtain ⟨x, v, i, -, rfl⟩ := mem_initialEvents he
    rfl
  once := by
    have h := hc.once
    rw [← vars_initialEvents c number, List.Nodup, List.pairwise_map] at h
    exact h.imp fun hne _ _ => hne

theorem Regular.perm {es fs : List Event} (h : Regular es) (hp : es.Perm fs) : Regular fs where
  writes := fun e he => h.writes e (hp.mem_iff.2 he)
  initial := by
    intro e he
    obtain ⟨d, hd, hi⟩ := h.initial e (hp.mem_iff.2 he)
    exact ⟨d, hp.mem_iff.1 hd, hi⟩
  once := hp.pairwise h.once fun hne hi hj he => hne hj hi he.symm

/-- Events of threads use variables that have initial writes. -/
theorem Regular.append {es fs : List Event} (h : Regular es)
    (hf : ∀ e ∈ fs, e.isInit = false ∧ ∃ d ∈ es, d.isInit = true ∧ d.var = e.var) :
    Regular (fs ++ es) where
  writes := by
    intro e he hi
    rcases List.mem_append.1 he with he | he
    · rw [(hf e he).1] at hi
      exact absurd hi (by decide)
    · exact h.writes e he hi
  initial := by
    intro e he
    rcases List.mem_append.1 he with he | he
    · obtain ⟨d, hd, hi⟩ := (hf e he).2
      exact ⟨d, List.mem_append_right _ hd, hi⟩
    · obtain ⟨d, hd, hi⟩ := h.initial e he
      exact ⟨d, List.mem_append_right _ hd, hi⟩
  once := by
    refine List.pairwise_append.2 ⟨?_, h.once, fun d hd e _ hi => ?_⟩
    · refine List.pairwise_of_forall_mem_list fun d hd e _ hi => ?_
      rw [(hf d hd).1] at hi
      exact absurd hi (by decide)
    · rw [(hf d hd).1] at hi
      exact absurd hi (by decide)

theorem mem_emit {th : Thread} {l : LocalState} {edge number : Nat} {e : Event}
    (h : e ∈ th.emit l edge number) : ∃ d x, th.automaton.edge? edge = some d ∧
      Thread.accessOf l d.label = some x ∧
        e = .make number (.thread th.id) x.var x.kind l.accesses x.value := by
  rw [Thread.emit, Option.mem_toList, Option.map_eq_some_iff] at h
  obtain ⟨x, hx, rfl⟩ := h
  obtain ⟨d, hd, hx⟩ := Option.bind_eq_some_iff.1 hx
  exact ⟨d, x, hd, hx, rfl⟩

theorem sharedVar_of_access {l : LocalState} {label : Label} {x : Access}
    (h : Thread.accessOf l label = some x) : label.sharedVar? = some x.var := by
  unfold Thread.accessOf at h
  split at h
  · obtain rfl := Option.some.inj h
    rfl
  · obtain rfl := Option.some.inj h
    rfl
  · exact absurd h (by simp)

theorem regular_of_reachable (hc : c.Initialized) (h : c.Reachable p s) : Regular s.emitted := by
  have key : Regular s.emitted ∧
      ∀ x ∈ c.initialWrites.keys, ∃ d ∈ s.emitted, d.isInit = true ∧ d.var = x := by
    refine h.invariant (I := fun s => Regular s.emitted ∧
      ∀ x ∈ c.initialWrites.keys, ∃ d ∈ s.emitted, d.isInit = true ∧ d.var = x) ?_ ?_
    · intro number
      have hreg := initialEvents_regular hc number
      refine ⟨hreg.perm (List.reverse_perm _).symm, fun x hx => ?_⟩
      rw [← vars_initialEvents c number] at hx
      obtain ⟨d, hd, rfl⟩ := List.mem_map.1 hx
      obtain ⟨e, he, hi, hv⟩ := hreg.initial d hd
      exact ⟨e, List.mem_reverse.2 he, hi, hv⟩
    · rintro s a number t ht ⟨hreg, hcover⟩
      obtain ⟨th, l, next, hth, -, -, -, rfl⟩ := mem_trans ht
      refine ⟨hreg.append fun e he => ?_, fun x hx => ?_⟩
      · obtain ⟨d, x, hd, hx, rfl⟩ := mem_emit he
        refine ⟨rfl, hcover x.var ?_⟩
        exact hc.accessed th (List.mem_of_getElem? hth) d (List.mem_of_getElem? hd) x.var
          (sharedVar_of_access hx)
      · obtain ⟨d, hd, hi⟩ := hcover x hx
        exact ⟨d, List.mem_append_right _ hd, hi⟩
  exact key.1

/-- Initial writes store integers. -/
theorem initial_int (h : c.Reachable p s) :
    ∀ e ∈ s.emitted, e.isInit = true → ∃ n : Int, e.value = some (.int n) := by
  refine h.invariant (I := fun s => ∀ e ∈ s.emitted, e.isInit = true →
    ∃ n : Int, e.value = some (.int n)) ?_ ?_
  · intro number e he _
    obtain ⟨x, v, i, -, rfl⟩ := mem_initialEvents (List.mem_reverse.1 he)
    exact ⟨v, rfl⟩
  · rintro s a number t ht hs e he hinit
    obtain ⟨th, l, next, -, -, -, -, rfl⟩ := mem_trans ht
    rcases List.mem_append.1 he with he | he
    · obtain ⟨d, x, -, -, rfl⟩ := mem_emit he
      exact absurd hinit (by simp [Event.make, Event.isInit])
    · exact hs e he hinit

end Composition
end Consistency
