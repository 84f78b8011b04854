import Consistency.Proofs.Composition.Key

/-!
# Threads on their own

In a reachable state each thread is where it could have come to alone, and its
events are those it would have emitted alone, as threads do not look at one
another. Conversely whatever the threads can become alone they can become
together, one after the other.
-/

set_option autoImplicit false

namespace Consistency

@[ext]
structure Solo where
  state : LocalState
  events : List EventShape
  deriving DecidableEq

namespace Thread
variable {t : Thread} {p : Precision} {a : Solo}

inductive Alone (t : Thread) (p : Precision) : Solo → Prop where
  | start : Alone t p ⟨t.initialState, []⟩
  | step {a : Solo} {next : LocalState} (edge : Nat) : Alone t p a →
      next ∈ t.step p a.state edge →
        Alone t p ⟨next, a.events ++ (t.emit a.state edge 0).map Event.shape⟩

theorem length_emit_le (t : Thread) (l : LocalState) (edge number : Nat) :
    (t.emit l edge number).length ≤ 1 := by
  rw [emit]
  cases t.access l edge <;> simp

/-- Events of a thread are its own, numbered by its uses of memory. -/
theorem Alone.numbered (h : t.Alone p a) : (∀ e ∈ a.events, e.owner = .thread t.id) ∧
    a.events.map EventShape.index = List.range a.state.accesses := by
  induction h with
  | start => exact ⟨fun e he => absurd he List.not_mem_nil, rfl⟩
  | @step a next edge _ hs ih =>
    obtain ⟨howner, hindex⟩ := ih
    have hcount := (step_counts hs 0).2
    have hemit : ∀ e ∈ t.emit a.state edge 0,
        e.owner = .thread t.id ∧ e.index = a.state.accesses := by
      intro e he
      obtain ⟨d, x, -, -, rfl⟩ := Composition.mem_emit he
      exact ⟨rfl, rfl⟩
    have hle := length_emit_le t a.state edge 0
    constructor
    · intro e he
      rcases List.mem_append.1 he with he | he
      · exact howner e he
      · obtain ⟨d, hd, rfl⟩ := List.mem_map.1 he
        exact (hemit d hd).1
    · show (a.events ++ (t.emit a.state edge 0).map Event.shape).map _ = List.range next.accesses
      rw [List.map_append, hindex, hcount]
      generalize t.emit a.state edge 0 = es at hemit hle
      rcases es with _ | ⟨e, _ | ⟨d, es⟩⟩
      · simp
      · have hfirst := (hemit e List.mem_cons_self).2
        simp [List.range_succ, Event.shape, hfirst]
      · exact absurd hle (by simp)

/-- Events of a thread come one after the other. -/
theorem Alone.increasing (h : t.Alone p a) :
    a.events.Pairwise fun d e => d.index < e.index := by
  have hsorted : (a.events.map EventShape.index).Pairwise (· < ·) := by
    rw [h.numbered.2]
    exact List.pairwise_lt_range
  exact List.pairwise_map.1 hsorted

end Thread

namespace GlobalState

def own (s : GlobalState) (i : Nat) : List EventShape :=
  (s.events.filter fun e => e.owner == .thread i).map Event.shape

def solo (s : GlobalState) (i : Nat) : Solo := ⟨s.locals.getD i default, s.own i⟩

end GlobalState

namespace Composition
variable {c : Composition} {p : Precision} {s : GlobalState} {i : Nat} {th : Thread}
  {l next : LocalState}

theorem getD_locals (h : s.locals[i]? = some l) : s.locals.getD i default = l := by
  rw [List.getD_eq_getElem?_getD, h, Option.getD_some]

theorem Tidy.getElem? (hs : c.Tidy s) (ht : c.threads[i]? = some th) :
    s.locals[i]? = some (s.solo i).state := by
  have hlt : i < s.locals.length := hs.length ▸ (List.getElem?_eq_some_iff.1 ht).1
  have hl := List.getElem?_eq_getElem hlt
  show s.locals[i]? = some (s.locals.getD i default)
  rw [getD_locals hl, hl]

theorem events_settle (s : GlobalState) (i : Nat) (th : Thread) (l next : LocalState)
    (edge number : Nat) : (settle s (th.emit l edge number ++ s.emitted) i th next).events =
      s.events ++ th.emit l edge number := by
  have hreverse : (th.emit l edge number).reverse = th.emit l edge number := by
    rw [Thread.emit]
    cases th.access l edge <;> rfl
  rw [GlobalState.events, settle, List.reverse_append, hreverse]
  rfl

/-- A step leaves the events of other threads alone. -/
theorem own_settle (hid : th.id = i) (edge number j : Nat) :
    (settle s (th.emit l edge number ++ s.emitted) i th next).own j =
      if j = i then s.own i ++ (th.emit l edge 0).map Event.shape else s.own j := by
  have howner : ∀ e ∈ th.emit l edge number, e.owner = .thread i := by
    intro e he
    obtain ⟨d, x, -, -, rfl⟩ := mem_emit he
    exact congrArg Owner.thread hid
  rw [GlobalState.own, events_settle, List.filter_append, List.map_append]
  split
  · next hj =>
    subst hj
    have hall : (th.emit l edge number).filter (fun e => e.owner == .thread j) =
        th.emit l edge number := List.filter_eq_self.2 fun e he => beq_iff_eq.2 (howner e he)
    rw [hall, shapes_emit th l edge number 0]
    rfl
  · next hj =>
    have hnone : (th.emit l edge number).filter (fun e => e.owner == .thread j) = [] := by
      apply List.filter_eq_nil_iff.2
      intro e he
      rw [howner e he, beq_iff_eq, Owner.thread.injEq]
      exact Ne.symm hj
    rw [hnone, List.map_nil, List.append_nil]
    rfl

theorem solo_settle (hid : th.id = i) (hl : s.locals[i]? = some l) (edge number : Nat) :
    (settle s (th.emit l edge number ++ s.emitted) i th next).solo i =
      ⟨next, s.own i ++ (th.emit l edge 0).map Event.shape⟩ := by
  rw [GlobalState.solo, own_settle hid, if_pos rfl]
  rw [getD_locals (List.getElem?_set_self (List.getElem?_eq_some_iff.1 hl).1)]

theorem solo_settle_ne (hid : th.id = i) (edge number : Nat) {j : Nat} (hj : j ≠ i) :
    (settle s (th.emit l edge number ++ s.emitted) i th next).solo j = s.solo j := by
  rw [GlobalState.solo, own_settle hid, if_neg hj, GlobalState.solo, List.getD_eq_getElem?_getD,
    List.getD_eq_getElem?_getD]
  exact congrArg (fun o => Solo.mk (o.getD default) _) (List.getElem?_set_ne (Ne.symm hj))

/-- The threads have come to where they are by steps of their own, and no initial write was added
or lost. -/
structure Separate (c : Composition) (p : Precision) (s : GlobalState) : Prop where
  alone : ∀ (i : Nat) (t : Thread), c.threads[i]? = some t → t.Alone p (s.solo i)
  initial : (s.events.filter Event.isInit).map Event.shape =
    (c.initialEvents 0).map Event.shape

theorem shapes_initialEvents (c : Composition) (number number' : Nat) :
    (c.initialEvents number).map Event.shape = (c.initialEvents number').map Event.shape := by
  simp only [initialEvents, List.map_map]
  rfl

theorem solo_init {t : Thread} (ht : c.threads[i]? = some t) (number : Nat) :
    (c.init number).1.solo i = ⟨t.initialState, []⟩ := by
  have hown : (c.init number).1.own i = [] := by
    rw [GlobalState.own, List.map_eq_nil_iff, List.filter_eq_nil_iff]
    intro e he
    obtain ⟨x, v, k, -, rfl⟩ := mem_initialEvents (by simpa [GlobalState.events, init] using he)
    simp [Event.make]
  have hstate : (c.init number).1.locals[i]? = some t.initialState := by simp [init, ht]
  rw [GlobalState.solo, getD_locals hstate, hown]

theorem init_separate (c : Composition) (p : Precision) (number : Nat) :
    c.Separate p (c.init number).1 where
  alone := by
    intro i t ht
    rw [solo_init ht]
    exact .start
  initial := by
    have hevents : (c.init number).1.events = c.initialEvents number := List.reverse_reverse _
    have hall : (c.initialEvents number).filter Event.isInit = c.initialEvents number := by
      apply List.filter_eq_self.2
      intro e he
      obtain ⟨x, v, k, -, rfl⟩ := mem_initialEvents he
      rfl
    rw [hevents, hall, shapes_initialEvents c number 0]

/-- A thread that steps in the composition steps on its own, and the others stay. -/
theorem Separate.settle (hn : c.Numbered) (h : c.Separate p s) (ht : c.threads[i]? = some th)
    (hl : s.locals[i]? = some l) {edge : Nat} (hs : next ∈ th.step p l edge) (number : Nat) :
    c.Separate p (settle s (th.emit l edge number ++ s.emitted) i th next) where
  alone := by
    intro j t htj
    by_cases hj : j = i
    · subst hj
      obtain rfl := Option.some.inj (ht.symm.trans htj)
      have hstate : (s.solo j).state = l := getD_locals hl
      rw [solo_settle (hn j th ht) hl]
      have hstep := (h.alone j th ht).step edge (hstate ▸ hs)
      rw [hstate] at hstep
      exact hstep
    · rw [solo_settle_ne (hn i th ht) edge number hj]
      exact h.alone j t htj
  initial := by
    have hnone : (th.emit l edge number).filter Event.isInit = [] := by
      apply List.filter_eq_nil_iff.2
      intro e he
      obtain ⟨d, x, -, -, rfl⟩ := mem_emit he
      simp [Event.make, Event.isInit]
    rw [events_settle, List.filter_append, hnone, List.append_nil]
    exact h.initial

theorem separate_of_reachable (hn : c.Numbered) (h : c.Reachable p s) : c.Separate p s := by
  refine h.invariant (init_separate c p) ?_
  rintro s a number t ht hs
  obtain ⟨th, l, next, hth, hl, hstep, -, rfl⟩ := mem_trans ht
  exact hs.settle hn hth hl hstep number

/-- Events of a thread are emitted in the order of their indices. -/
theorem Separate.numbered (hs : c.Separate p s) (ht : c.threads[i]? = some th)
    (hl : s.locals[i]? = some l) :
    (s.events.filter fun e => e.owner == .thread i).map Event.index = List.range l.accesses := by
  have hnumbered := (hs.alone i th ht).numbered.2
  have hstate : (s.solo i).state = l := getD_locals hl
  rw [hstate] at hnumbered
  rw [← hnumbered]
  show _ = (s.own i).map EventShape.index
  rw [GlobalState.own, List.map_map]
  rfl

/-- A thread that can step has not terminated. -/
theorem Tidy.running (hs : c.Tidy s) (ht : c.threads[i]? = some th) (hl : s.locals[i]? = some l)
    {edge : Nat} (hstep : next ∈ th.step p l edge) : s.terminated.contains i = false := by
  obtain ⟨e, he, hsource, -⟩ := Thread.mem_step hstep
  rw [hs.terminated_at ht hl, Thread.isTerminated, Bool.eq_false_iff]
  intro hterm
  exact Automaton.isTerminal_iff.1 hterm edge (Automaton.mem_outgoing.2 ⟨e, he, hsource⟩)

/-- By induction on the steps of one thread, while the others wait. -/
theorem exists_moved (hn : c.Numbered) (hs : c.Reachable p s) (ht : c.threads[i]? = some th)
    (hstart : s.solo i = ⟨th.initialState, []⟩) {a : Solo} (ha : th.Alone p a) :
    ∃ u, c.Reachable p u ∧ u.solo i = a ∧ ∀ j, j ≠ i → u.solo j = s.solo j := by
  induction ha with
  | start => exact ⟨s, hs, hstart, fun _ _ => rfl⟩
  | @step a next edge _ hstep ih =>
    obtain ⟨u, hu, hself, hother⟩ := ih
    have htidy := tidy_of_reachable hn hu
    have hl : u.locals[i]? = some a.state := by rw [htidy.getElem? ht, hself]
    have hmem := settle_mem_trans ht hl (htidy.running ht hl hstep) hstep 0
    refine ⟨_, hu.step ⟨i, edge⟩ 0 hmem, ?_, fun j hj => ?_⟩
    · have hown : u.own i = a.events := congrArg Solo.events hself
      rw [solo_settle (hn i th ht) hl, hown]
    · rw [solo_settle_ne (hn i th ht) edge 0 hj, hother j hj]

/-- By induction on the number of threads that have moved. -/
theorem exists_together (hn : c.Numbered) (f : Nat → Solo)
    (hf : ∀ (i : Nat) (t : Thread), c.threads[i]? = some t → t.Alone p (f i)) (k : Nat) :
    ∃ s, c.Reachable p s ∧ (∀ i < k, i < c.threads.length → s.solo i = f i) ∧
      ∀ (i : Nat) (t : Thread), k ≤ i → c.threads[i]? = some t →
        s.solo i = ⟨t.initialState, []⟩ := by
  induction k with
  | zero =>
    exact ⟨_, .init 0, fun i hi => absurd hi (Nat.not_lt_zero i), fun i t _ ht => solo_init ht 0⟩
  | succ k ih =>
    obtain ⟨s, hs, hmoved, hwaiting⟩ := ih
    cases ht : c.threads[k]? with
    | none =>
      rw [List.getElem?_eq_none_iff] at ht
      refine ⟨s, hs, fun i hi hlt => hmoved i (by omega) hlt, fun i t hi hti => ?_⟩
      exact hwaiting i t (by omega) hti
    | some t =>
      obtain ⟨u, hu, hself, hother⟩ :=
        exists_moved hn hs ht (hwaiting k t (Nat.le_refl k) ht) (hf k t ht)
      refine ⟨u, hu, fun i hi hlt => ?_, fun i t' hi hti => ?_⟩
      · by_cases hik : i = k
        · rw [hik, hself]
        · rw [hother i hik]
          exact hmoved i (by omega) hlt
      · rw [hother i (by omega)]
        exact hwaiting i t' (by omega) hti

end Composition
end Consistency
