import Mathlib.Data.Set.Prod
import Consistency.Proofs.Composition.Alone
import Consistency.Proofs.Exploration.Canonical
import Consistency.Proofs.Exploration.Ending

/-!
# Products of threads

A reachable state is fixed, up to the numbers of events and the order in which
the threads took turns, by what each thread has become. Each combination of
what the threads can become alone is met, and no two have one key.
-/

set_option autoImplicit false

namespace Consistency

namespace Composition
variable {c : Composition} {p : Precision} {s : GlobalState}

def runs (c : Composition) (p : Precision) (i : Fin c.threads.length) : Set Solo :=
  {a | c.threads[i].Alone p a}

def ends (c : Composition) (p : Precision) (i : Fin c.threads.length) : Set Solo :=
  {a | a ∈ c.runs p i ∧ c.threads[i].automaton.isFinal a.state.location = true ∧
    c.threads[i].isTerminated a.state = true}

def joinEvents (c : Composition) (f : Fin c.threads.length → Solo) : List EventShape :=
  (c.initialEvents 0).map Event.shape ++
    (List.finRange c.threads.length).flatMap fun i => (f i).events

def joinKey (c : Composition) (f : Fin c.threads.length → Solo) : StateKey :=
  let locals := (List.finRange c.threads.length).map fun i => (f i).state
  ⟨locals, (c.joinEvents f).mergeSort fun a b => (compare a b).isLE,
    (c.terminatedAt locals).toList⟩

def joinShape (c : Composition) (f : Fin c.threads.length → Solo) : GraphShape where
  events := c.joinEvents f
  threadNames := c.threads.map fun t => t.automaton.name
  registers := (List.finRange c.threads.length).map fun i => (f i).state.valuation
  constraints := (OrderedSet.ofList ((List.finRange c.threads.length).flatMap fun i =>
    (f i).state.constraints.toList)).toList

def solos (c : Composition) (s : GlobalState) : Fin c.threads.length → Solo := fun i => s.solo i

theorem getElem?_fin (c : Composition) (i : Fin c.threads.length) :
    c.threads[i.val]? = some c.threads[i] := List.getElem?_eq_getElem i.isLt

theorem map_solos {α : Type} (hs : c.Tidy s) (g : LocalState → α) :
    (List.finRange c.threads.length).map (fun i => g (c.solos s i).state) = s.locals.map g := by
  apply List.ext_getElem
  · rw [List.length_map, List.length_map, List.length_finRange, hs.length]
  · intro i hi _
    have hlt : i < c.threads.length := by simpa using hi
    have hget := hs.getElem? (List.getElem?_eq_getElem hlt)
    obtain ⟨_, hget⟩ := List.getElem?_eq_some_iff.1 hget
    simp [solos, hget]

/-- The locations of the threads tell which have terminated. -/
theorem terminated_eq (hn : c.Numbered) (h : c.Reachable p s) :
    s.terminated = c.terminatedAt s.locals := by
  have hsorted : s.terminated.toList.Pairwise fun i j => compare i j = .lt := by
    refine h.invariant (I := fun s => s.terminated.toList.Pairwise fun i j => compare i j = .lt)
      (fun number => OrderedSet.ofList_pairwise _) fun s a number t ht hs => ?_
    obtain ⟨th, l, next, -, -, -, -, rfl⟩ := mem_trans ht
    rw [settle]
    split
    · exact OrderedSet.insertList_pairwise hs
    · exact hs
  apply OrderedSet.ext_of_pairwise hsorted (OrderedSet.ofList_pairwise _)
  intro i
  exact ((tidy_of_reachable hn h).terminated i).trans (mem_terminatedAt hn s.locals i).symm

/-- Events by their owners, by induction on the number of threads. -/
theorem perm_owners (es : List Event) {n : Nat}
    (h : ∀ e ∈ es, e.owner = .init ∨ ∃ i < n, e.owner = .thread i) :
    es.Perm (es.filter Event.isInit ++
      (List.range n).flatMap fun i => es.filter fun e => e.owner == .thread i) := by
  induction n generalizing es with
  | zero =>
    have hall : es.filter Event.isInit = es := by
      apply List.filter_eq_self.2
      intro e he
      rcases h e he with howner | ⟨i, hi, -⟩
      · exact beq_iff_eq.2 howner
      · exact absurd hi (Nat.not_lt_zero i)
    simp [hall]
  | succ n ih =>
    have hsplit := (List.filter_append_perm (fun e : Event => e.owner == .thread n) es).symm
    have hrest := ih (es.filter fun e => !(e.owner == .thread n)) (by
      intro e he
      obtain ⟨he, hne⟩ := List.mem_filter.1 he
      rcases h e he with howner | ⟨i, hi, howner⟩
      · exact .inl howner
      · have hin : i ≠ n := by
          rintro rfl
          simp [howner] at hne
        exact .inr ⟨i, by omega, howner⟩)
    have hinit : (es.filter fun e => !(e.owner == .thread n)).filter Event.isInit =
        es.filter Event.isInit := by
      rw [List.filter_filter]
      apply List.filter_congr
      intro e _
      cases howner : e.owner <;> simp [Event.isInit, howner]
    have hother : (List.range n).flatMap (fun i =>
        (es.filter fun e => !(e.owner == .thread n)).filter fun e => e.owner == .thread i) =
          (List.range n).flatMap fun i => es.filter fun e => e.owner == .thread i := by
      apply List.flatMap_congr
      intro i hi
      rw [List.filter_filter]
      apply List.filter_congr
      intro e _
      have hne : i ≠ n := Nat.ne_of_lt (List.mem_range.1 hi)
      cases howner : e.owner with
      | init => rfl
      | thread j =>
        by_cases hj : j = i
        · simp [hj, hne]
        · simp [hj]
    rw [hinit, hother] at hrest
    rw [List.range_succ, List.flatMap_append, List.flatMap_singleton, ← List.append_assoc]
    exact hsplit.trans (List.perm_append_comm.trans (hrest.append_right _))

/-- The events of a reachable state are the initial writes and those of its threads. -/
theorem shapes_perm_joinEvents (hn : c.Numbered) (h : c.Reachable p s) :
    (s.emitted.map Event.shape).Perm (c.joinEvents (c.solos s)) := by
  have howned : ∀ e ∈ s.events, e.owner = .init ∨ ∃ i < c.threads.length,
      e.owner = .thread i :=
    fun e he => owner_of_emitted hn h (List.mem_reverse.1 he)
  have hperm := (perm_owners s.events howned).map Event.shape
  rw [List.map_append, (separate_of_reachable hn h).initial, List.map_flatMap] at hperm
  have hfin : (List.range c.threads.length).flatMap s.own =
      (List.finRange c.threads.length).flatMap fun i : Fin _ => s.own i.val := by
    rw [← List.map_coe_finRange_eq_range, List.flatMap_map]
  exact (((List.reverse_perm _).symm.map _).trans hperm).trans (.of_eq (congrArg _ hfin))

theorem solos_mem (hn : c.Numbered) (h : c.Reachable p s) :
    c.solos s ∈ Set.univ.pi (c.runs p) := fun i _ =>
  (separate_of_reachable hn h).alone i _ (c.getElem?_fin i)

/-- The key of a state is that of what its threads have become. -/
theorem key_eq_joinKey (hn : c.Numbered) (h : c.Reachable p s) :
    s.key = c.joinKey (c.solos s) := by
  have hlocals := map_solos (tidy_of_reachable hn h) fun l => l
  rw [List.map_id''] at hlocals
  · rw [joinKey, GlobalState.key, hlocals, terminated_eq hn h]
    congr 1
    exact mergeSort_eq_of_perm (shapes_perm_joinEvents hn h)
  · exact fun _ => rfl

theorem exists_solos (hn : c.Numbered) {f : Fin c.threads.length → Solo}
    (hf : f ∈ Set.univ.pi (c.runs p)) : ∃ s, c.Reachable p s ∧ c.solos s = f := by
  obtain ⟨s, hs, hmoved, -⟩ := exists_together (p := p) hn
    (fun i => if h : i < c.threads.length then f ⟨i, h⟩ else ⟨default, []⟩) (fun i t ht => by
      obtain ⟨hlt, rfl⟩ := List.getElem?_eq_some_iff.1 ht
      rw [dif_pos hlt]
      exact hf ⟨i, hlt⟩ trivial) c.threads.length
  refine ⟨s, hs, funext fun i => ?_⟩
  rw [solos, hmoved i i.isLt i.isLt, dif_pos i.isLt]

/-- One member of a list contributes, the others do not. -/
theorem flatMap_pick {α β : Type} [DecidableEq α] {xs : List α} (hn : xs.Nodup) {a : α}
    (ha : a ∈ xs) (ys : List β) : (xs.flatMap fun b => if b = a then ys else []) = ys := by
  induction xs with
  | nil => exact absurd ha List.not_mem_nil
  | cons b xs ih =>
    obtain ⟨hb, hxs⟩ := List.nodup_cons.1 hn
    rw [List.flatMap_cons]
    by_cases hab : b = a
    · subst hab
      have hrest : (xs.flatMap fun c => if c = b then ys else []) = [] := by
        apply List.flatMap_eq_nil_iff.2
        intro c hc
        rw [if_neg]
        rintro rfl
        exact hb hc
      rw [if_pos rfl, hrest, List.append_nil]
    · rw [if_neg hab, List.nil_append]
      exact ih hxs ((List.mem_cons.1 ha).resolve_left (Ne.symm hab))

/-- The events of a thread among those of all threads. -/
theorem filter_joinEvents (hn : c.Numbered) {f : Fin c.threads.length → Solo}
    (hf : f ∈ Set.univ.pi (c.runs p)) (i : Fin c.threads.length) :
    (c.joinEvents f).filter (fun e => e.owner == .thread i) = (f i).events := by
  have howner : ∀ j, ∀ e ∈ (f j).events, e.owner = .thread j := by
    intro j e he
    have hid := hn j _ (c.getElem?_fin j)
    exact hid ▸ (Thread.Alone.numbered (hf j trivial)).1 e he
  have hinit : ((c.initialEvents 0).map Event.shape).filter (fun e => e.owner == .thread i) =
      [] := by
    apply List.filter_eq_nil_iff.2
    intro e he
    obtain ⟨d, hd, rfl⟩ := List.mem_map.1 he
    obtain ⟨x, v, k, -, rfl⟩ := mem_initialEvents hd
    simp [Event.make, Event.shape]
  have hpick : ∀ j, (f j).events.filter (fun e => e.owner == .thread i) =
      if j = i then (f i).events else [] := by
    intro j
    split
    · next hj =>
      subst hj
      exact List.filter_eq_self.2 fun e he => beq_iff_eq.2 (howner j e he)
    · next hj =>
      apply List.filter_eq_nil_iff.2
      intro e he
      rw [howner j e he, beq_iff_eq, Owner.thread.injEq]
      exact fun heq => hj (Fin.ext heq)
  rw [joinEvents, List.filter_append, hinit, List.nil_append, List.filter_flatMap]
  simp only [hpick]
  exact flatMap_pick (List.nodup_finRange _) (List.mem_finRange i) _

theorem joinKey_injOn (hn : c.Numbered) : Set.InjOn c.joinKey (Set.univ.pi (c.runs p)) := by
  intro f hf g hg h
  rw [joinKey, joinKey, StateKey.mk.injEq] at h
  obtain ⟨hlocals, hevents, -⟩ := h
  have hperm : (c.joinEvents f).Perm (c.joinEvents g) :=
    (List.mergeSort_perm _ _).symm.trans ((List.Perm.of_eq hevents).trans (List.mergeSort_perm _ _))
  funext i
  have hstate : (f i).state = (g i).state :=
    List.map_inj_left.1 hlocals i (List.mem_finRange i)
  have hown : (f i).events = (g i).events := by
    have hsame := hperm.filter fun e => e.owner == .thread i
    rw [filter_joinEvents hn hf, filter_joinEvents hn hg] at hsame
    refine hsame.eq_of_pairwise (fun d e _ _ hde hed => ?_)
      (Thread.Alone.increasing (hf i trivial)) (Thread.Alone.increasing (hg i trivial))
    exact absurd hde (Nat.lt_asymm hed)
  exact Solo.ext hstate hown

theorem joinKey_bijOn (hn : c.Numbered) :
    Set.BijOn c.joinKey (Set.univ.pi (c.runs p)) (Exploration.reachableKeys c p) := by
  refine ⟨fun f hf => ?_, joinKey_injOn hn, ?_⟩
  · obtain ⟨s, hs, rfl⟩ := exists_solos hn hf
    exact ⟨s, hs, key_eq_joinKey hn hs⟩
  · rintro k ⟨s, hs, rfl⟩
    exact ⟨c.solos s, solos_mem hn hs, (key_eq_joinKey hn hs).symm⟩

/-- Initial writes come in the order of their variables, the events of each thread in program order,
and threads in the order of their numbers. -/
theorem joinEvents_ordered (hn : c.Numbered) {f : Fin c.threads.length → Solo}
    (hf : f ∈ Set.univ.pi (c.runs p)) : (c.joinEvents f).Pairwise fun d e =>
      EventGraph.comesFirst e.event d.event = false := by
  have hinit : ∀ d ∈ (c.initialEvents 0).map Event.shape,
      EventGraph.rank d.event = (0, 0, d.index) := by
    intro d hd
    obtain ⟨e, he, rfl⟩ := List.mem_map.1 hd
    obtain ⟨x, v, k, -, rfl⟩ := mem_initialEvents he
    rfl
  have hplaces : ((c.initialEvents 0).map Event.shape).Pairwise fun d e => d.index < e.index := by
    refine List.pairwise_iff_getElem.2 fun i j hi hj hij => ?_
    simpa [initialEvents, Event.make, Event.shape] using hij
  have howner : ∀ i, ∀ e ∈ (f i).events, EventGraph.rank e.event = (1, i.val, e.index) := by
    intro i e he
    have hid := hn i _ (c.getElem?_fin i)
    exact EventGraph.rank_thread (hid ▸ (Thread.Alone.numbered (hf i trivial)).1 e he)
  rw [joinEvents, List.pairwise_append, List.pairwise_flatMap]
  refine ⟨?_, ⟨fun i _ => ?_, ?_⟩, fun d hd e he => ?_⟩
  · apply hplaces.imp_of_mem
    intro d e hd he hde
    rw [Bool.eq_false_iff, ne_eq, EventGraph.comesFirst_iff, hinit d hd, hinit e he]
    simp only
    omega
  · apply (Thread.Alone.increasing (hf i trivial)).imp_of_mem
    intro d e hd he hde
    rw [Bool.eq_false_iff, ne_eq, EventGraph.comesFirst_iff, howner i d hd, howner i e he]
    simp only
    omega
  · apply (List.pairwise_lt_finRange _).imp
    intro i j hij d hd e he
    have hlt : i.val < j.val := hij
    rw [Bool.eq_false_iff, ne_eq, EventGraph.comesFirst_iff, howner i d hd, howner j e he]
    simp only
    omega
  · obtain ⟨i, -, he⟩ := List.mem_flatMap.1 he
    rw [Bool.eq_false_iff, ne_eq, EventGraph.comesFirst_iff, hinit d hd, howner i e he]
    simp only
    omega

/-- The graph of a state is that of what its threads have become. -/
theorem shape_eq_joinShape (hn : c.Numbered) (h : c.Reachable p s) :
    (EventGraph.ofState c s).shape = c.joinShape (c.solos s) := by
  have htidy := tidy_of_reachable hn h
  have hmap : ((c.joinEvents (c.solos s)).map EventShape.event).map Event.shape =
      c.joinEvents (c.solos s) := by
    rw [List.map_map]
    exact List.map_id _
  have hshapes : (EventGraph.ofState c s).shapes =
      ((c.joinEvents (c.solos s)).map EventShape.event).map Event.shape :=
    EventGraph.shapes_ofState c ((shapes_perm_joinEvents hn h).trans (.of_eq hmap.symm))
      (List.pairwise_map.2 (joinEvents_ordered hn (solos_mem hn h)))
  rw [hmap] at hshapes
  have hconstraints : (List.finRange c.threads.length).flatMap (fun i =>
      (c.solos s i).state.constraints.toList) =
        s.locals.flatMap fun l => l.constraints.toList := by
    rw [List.flatMap_def, List.flatMap_def, map_solos htidy fun l => l.constraints.toList]
  rw [EventGraph.shape, joinShape, hshapes, hconstraints, map_solos htidy LocalState.valuation]
  rfl

/-- A state is a proper end if its threads are at final locations that no edge leaves. -/
theorem proper_iff (hn : c.Numbered) (h : c.Reachable p s) :
    Exploration.proper c s = true ↔ c.solos s ∈ Set.univ.pi (c.ends p) := by
  have htidy := tidy_of_reachable hn h
  have hfinal : Exploration.endsInFinal c s = true ↔ ∀ i : Fin c.threads.length,
      c.threads[i].automaton.isFinal (c.solos s i).state.location = true := by
    rw [Exploration.endsInFinal, List.all_eq_true]
    constructor
    · intro hall i
      have ht := c.getElem?_fin i
      exact hall (_, _) (List.mem_of_getElem? (List.getElem?_zip_eq_some.2 ⟨ht, htidy.getElem? ht⟩))
    · rintro hall ⟨t, l⟩ hz
      obtain ⟨i, hi⟩ := List.mem_iff_getElem?.1 hz
      obtain ⟨ht, hl⟩ := List.getElem?_zip_eq_some.1 hi
      obtain ⟨hlt, rfl⟩ := List.getElem?_eq_some_iff.1 ht
      obtain rfl := Option.some.inj ((htidy.getElem? ht).symm.trans hl)
      exact hall ⟨i, hlt⟩
  have hterminal : s.isTerminal = true ↔ ∀ i : Fin c.threads.length,
      c.threads[i].isTerminated (c.solos s i).state = true := by
    rw [htidy.isTerminal_iff]
    constructor
    · exact fun hall i => hall i _ _ (c.getElem?_fin i) (htidy.getElem? (c.getElem?_fin i))
    · intro hall i t l ht hl
      obtain ⟨hlt, rfl⟩ := List.getElem?_eq_some_iff.1 ht
      obtain rfl := Option.some.inj ((htidy.getElem? ht).symm.trans hl)
      exact hall ⟨i, hlt⟩
  rw [Exploration.proper, Bool.and_eq_true, hterminal, hfinal]
  constructor
  · rintro ⟨hterm, hfin⟩ i -
    exact ⟨solos_mem hn h i trivial, hfin i, hterm i⟩
  · exact fun hall => ⟨fun i => (hall i trivial).2.2, fun i => (hall i trivial).2.1⟩

end Composition
end Consistency
