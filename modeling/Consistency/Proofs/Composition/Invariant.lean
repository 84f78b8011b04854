import Mathlib
import Consistency.Proofs.Composition.Provenance

/-!
# The invariant of runs

What is true of every state that a run leads to: its initial writes, the numbers
and places of its events, the threads that have terminated and the symbols that
threads speak of. The numbers of events are given out by a counter that others
may use between the steps.
-/

set_option autoImplicit false

namespace Consistency.Composition
variable {c : Composition} {p : Precision} {s t : GlobalState} {i number : Nat} {l : LocalState}

/-- The states that runs lead to, with the count of the numbers that are given out by then. -/
inductive Issued (c : Composition) (p : Precision) : GlobalState → Nat → Prop where
  | init (number : Nat) : Issued c p (c.init number).1 (c.init number).2
  | step {s t : GlobalState} {number later : Nat} (a : Action) : Issued c p s number →
      number ≤ later → t ∈ (c.trans p s a later).1 → Issued c p t (c.trans p s a later).2

theorem Issued.reachable (h : c.Issued p s number) : c.Reachable p s := by
  induction h with
  | init number => exact .init number
  | step a _ _ ht ih => exact ih.step a _ ht

structure Fresh (s : GlobalState) (number : Nat) : Prop where
  distinct : (s.emitted.map Event.id).Nodup
  below : ∀ e ∈ s.emitted, e.id < number

theorem ids_initialEvents (c : Composition) (number : Nat) :
    (c.initialEvents number).map Event.id =
      List.range' number (c.initialEvents number).length := by
  refine List.ext_getElem (by simp) fun i h₁ h₂ => ?_
  simp [initialEvents, Event.make]

theorem init_fresh (c : Composition) (number : Nat) :
    Fresh (c.init number).1 (c.init number).2 where
  distinct := by
    show ((c.initialEvents number).reverse.map Event.id).Nodup
    rw [List.map_reverse, List.nodup_reverse, ids_initialEvents]
    exact List.nodup_range'
  below := by
    intro e he
    have hid := List.mem_map_of_mem (f := Event.id) (List.mem_reverse.1 he)
    rw [ids_initialEvents, List.mem_range'_1] at hid
    exact hid.2

/-- What a step emits has the next number, and the counter is behind it. -/
theorem emit_ids {a : Action} (ht : t ∈ (c.trans p s a number).1) {th : Thread}
    (hth : c.threads[a.thread]? = some th) (hl : s.locals[a.thread]? = some l) :
    number ≤ (c.trans p s a number).2 ∧
      ((th.emit l a.edge number).map Event.id).Nodup ∧
        ∀ e ∈ th.emit l a.edge number, e.id = number ∧ number < (c.trans p s a number).2 := by
  unfold trans at ht ⊢
  simp only [hth, hl] at ht ⊢
  split at ht
  · exact absurd ht List.not_mem_nil
  · split at ht
    · exact absurd ht List.not_mem_nil
    · next hrun hsome =>
      rw [if_neg hrun, if_neg hsome, Thread.emit]
      cases th.access l a.edge with
      | none => simp
      | some x => simp [Event.make]

theorem Issued.fresh (h : c.Issued p s number) : Fresh s number := by
  induction h with
  | init number => exact init_fresh c number
  | @step s t number later a _ hle ht ih =>
    obtain ⟨th, l, next, hth, hl, -, -, rfl⟩ := mem_trans ht
    obtain ⟨hmore, hone, hnew⟩ := emit_ids ht hth hl
    constructor
    · show ((th.emit l a.edge later ++ s.emitted).map Event.id).Nodup
      rw [List.map_append]
      refine hone.append ih.distinct fun id hid hold => ?_
      obtain ⟨d, hd, rfl⟩ := List.mem_map.1 hid
      obtain ⟨e, he, hsame⟩ := List.mem_map.1 hold
      have hlt := ih.below e he
      have heq := (hnew d hd).1
      omega
    · intro e he
      rcases List.mem_append.1 he with he | he
      · obtain ⟨heq, hlt⟩ := hnew e he
        omega
      · have hlt := ih.below e he
        omega

/-- Where a symbol that a thread speaks of comes from: a read that the thread has made, or a choice
at an earlier step, among finitely many values. -/
def Sourced (s : GlobalState) (i : Nat) (l : LocalState) (x : String) : Prop :=
  (∃ e ∈ s.emitted, e.owner = .thread i ∧ e.isRead = true ∧ x = readSymbol i e.index) ∨
    ∃ k < l.steps, x = Thread.choiceSymbol i k ∧
      ∃ values, values ≠ [] ∧ .oneOf x values ∈ l.constraints.toList

structure ThreadWellFormed (s : GlobalState) (i : Nat) (a : Automaton) (l : LocalState) : Prop where
  numbered : (s.events.filter fun e => e.owner == .thread i).map Event.index =
    List.range l.accesses
  terminated : i ∈ s.terminated.toList ↔ a.outgoing l.location = []
  registers : ∀ reg, (l.register reg).Over (Sourced s i l)
  constraints : ∀ u ∈ l.constraints.toList, u.Over (Sourced s i l)
  stored : ∀ e ∈ s.emitted, e.owner = .thread i → ∀ v, e.value = some v → v.Over (Sourced s i l)

theorem sourced_of_knows (hl : s.locals[i]? = some l) {x : String} (h : (s.solo i).Knows i x) :
    Sourced s i l x := by
  have hstate : (s.solo i).state = l := getD_locals hl
  rw [Solo.Knows, hstate] at h
  refine h.imp_left ?_
  rintro ⟨e, he, hread, rfl⟩
  obtain ⟨d, hd, rfl⟩ := List.mem_map.1 he
  obtain ⟨hd, howner⟩ := List.mem_filter.1 hd
  exact ⟨d, List.mem_reverse.1 hd, eq_of_beq howner, beq_iff_eq.2 hread, rfl⟩

theorem thread_wellFormed (hs : c.Separate p s) (htidy : c.Tidy s) {a : Automaton}
    (ht : c.threads[i]? = some ⟨i, a⟩) (hl : s.locals[i]? = some l) : ThreadWellFormed s i a l := by
  have halone := hs.alone i _ ht
  have hstate : (s.solo i).state = l := getD_locals hl
  have hsourced : ∀ x, (s.solo i).Knows i x → Sourced s i l x := fun _ => sourced_of_knows hl
  obtain ⟨hover, hstored⟩ := halone.informed
  have hover := hstate ▸ hover.mono hsourced
  refine ⟨hs.numbered ht hl, ?_, hover.registers, hover.constraints, fun e he howner v hv => ?_⟩
  · rw [htidy.terminated]
    constructor
    · rintro ⟨t, l', ht', hl', hterm⟩
      obtain rfl := Option.some.inj (ht.symm.trans ht')
      obtain rfl := Option.some.inj (hl.symm.trans hl')
      exact List.isEmpty_iff.1 hterm
    · exact fun hnone => ⟨_, l, ht, hl, List.isEmpty_iff.2 hnone⟩
  · have hown : e.shape ∈ (s.solo i).events := by
      refine List.mem_map_of_mem (List.mem_filter.2 ⟨List.mem_reverse.2 he, ?_⟩)
      exact beq_iff_eq.2 howner
    exact (hstored e.shape hown v hv).mono hsourced

structure StateWellFormed (automata : List Automaton) (initial : List (String × Int))
    (s : GlobalState) : Prop where
  initialWrites : ∀ e ∈ s.emitted, e.isInit = true → e.isWrite = true
  initialOnce : ((s.events.filter Event.isInit).map Event.var).Nodup
  initialVars : ∀ x, x ∈ (s.events.filter Event.isInit).map Event.var ↔
    (∃ a ∈ automata, ∃ e ∈ a.edges, e.label.sharedVar? = some x) ∨ x ∈ initial.map Prod.fst
  ids : (s.emitted.map Event.id).Nodup
  owners : ∀ e ∈ s.emitted, e.isInit = true ∨ ∃ i < automata.length, e.owner = .thread i
  locals : s.locals.length = automata.length
  threads : ∀ i a l, automata[i]? = some a → s.locals[i]? = some l → ThreadWellFormed s i a l

structure MovesOnly (i : Nat) (s t : GlobalState) : Prop where
  locals : ∀ j, j ≠ i → t.locals[j]? = s.locals[j]?
  terminated : ∀ j, j ≠ i → (j ∈ t.terminated.toList ↔ j ∈ s.terminated.toList)
  events : ∃ es, t.emitted = es ++ s.emitted ∧ ∀ e ∈ es, e.owner = .thread i

theorem movesOnly_of_trans (hn : c.Numbered) {a : Action} (h : t ∈ (c.trans p s a number).1) :
    MovesOnly a.thread s t := by
  obtain ⟨th, l, next, hth, -, -, -, rfl⟩ := mem_trans h
  refine ⟨fun j hj => List.getElem?_set_ne (Ne.symm hj), fun j hj => ?_, _, rfl, fun e he => ?_⟩
  · unfold settle
    split
    · simp [OrderedSet.mem_insert, hj]
    · rfl
  · obtain ⟨d, x, -, -, rfl⟩ := mem_emit he
    exact congrArg Owner.thread (hn a.thread th hth)

variable {automata : List Automaton} {initial : List (String × Int)}

theorem mem_keys_initialWrites {x : String} : x ∈ (ofAutomata automata initial).initialWrites.keys ↔
    (∃ a ∈ automata, ∃ e ∈ a.edges, e.label.sharedVar? = some x) ∨ x ∈ initial.map Prod.fst := by
  rw [ofAutomata, OrderedMap.mem_keys_ofList, List.map_append, List.map_map, List.mem_append]
  refine or_congr_left ?_
  simp [Arena.sharedVars, OrderedSet.mem_ofList]

theorem getElem?_threads {a : Automaton} (h : automata[i]? = some a) :
    (ofAutomata automata initial).threads[i]? = some ⟨i, a⟩ := by
  simp [ofAutomata, h]

/-- All states that runs lead to are well-formed, and a further step moves no other thread. -/
theorem wellFormed_of_issued (h : (ofAutomata automata initial).Issued p s number) :
    StateWellFormed automata initial s ∧ ∀ a later,
      ∀ t ∈ ((ofAutomata automata initial).trans p s a later).1, MovesOnly a.thread s t := by
  have hn := ofAutomata_numbered automata initial
  have hreach := h.reachable
  have hsep := separate_of_reachable hn hreach
  have htidy := tidy_of_reachable hn hreach
  have hlength : (ofAutomata automata initial).threads.length = automata.length := by
    simp [ofAutomata]
  have hvars : (s.events.filter Event.isInit).map Event.var =
      (ofAutomata automata initial).initialWrites.keys := by
    have hshapes := congrArg (List.map EventShape.var) hsep.initial
    rw [List.map_map, List.map_map] at hshapes
    exact hshapes.trans (vars_initialEvents _ 0)
  refine ⟨⟨?_, ?_, fun x => ?_, h.fresh.distinct, fun e he => ?_, ?_, ?_⟩,
    fun a later t ht => movesOnly_of_trans hn ht⟩
  · exact (regular_of_reachable (ofAutomata_initialized automata initial) hreach).writes
  · rw [hvars]
    exact (ofAutomata_initialized automata initial).once
  · rw [hvars]
    exact mem_keys_initialWrites
  · exact hlength ▸ (owner_of_emitted hn hreach he).imp_left beq_iff_eq.2
  · exact htidy.length.trans hlength
  · exact fun i a l ha hl => thread_wellFormed hsep htidy (getElem?_threads ha) hl

def drawing : List Automaton :=
  [.straightLine "P" [.nondet "n" [1, 2], .load "r" "x",
    .store "y" (.arith .add (.const "n") (.const "r"))], .straightLine "Q" [.store "x" (.int 1)]]

def drawingAfter (actions : List Action) : GlobalState × Nat :=
  actions.foldl (fun x a =>
    let next := (ofAutomata drawing []).trans .default x.1 a x.2
    (next.1.headD x.1, next.2)) ((ofAutomata drawing []).init 0)

theorem drawing_issued : (ofAutomata drawing []).Issued .default
    (drawingAfter [⟨0, 0⟩, ⟨0, 1⟩, ⟨0, 2⟩]).1 (drawingAfter [⟨0, 0⟩, ⟨0, 1⟩, ⟨0, 2⟩]).2 := by
  have hchosen : (ofAutomata drawing []).Issued .default (drawingAfter [⟨0, 0⟩]).1
      (drawingAfter [⟨0, 0⟩]).2 := by
    refine .step ⟨0, 0⟩ (.init 0) (Nat.le_refl _) ?_
    cbv
    exact List.mem_singleton_self _
  have hloaded : (ofAutomata drawing []).Issued .default (drawingAfter [⟨0, 0⟩, ⟨0, 1⟩]).1
      (drawingAfter [⟨0, 0⟩, ⟨0, 1⟩]).2 := by
    refine .step ⟨0, 1⟩ hchosen (Nat.le_refl _) ?_
    cbv
    exact List.mem_singleton_self _
  refine .step ⟨0, 2⟩ hloaded (Nat.le_refl _) ?_
  cbv
  exact List.mem_singleton_self _

/-- What is stored there is over a choice and a read, and the other thread can still move. -/
theorem wellFormed_of_issued_drawing :
    StateWellFormed drawing [] (drawingAfter [⟨0, 0⟩, ⟨0, 1⟩, ⟨0, 2⟩]).1 ∧
      ((drawingAfter [⟨0, 0⟩, ⟨0, 1⟩, ⟨0, 2⟩]).1.emitted.head?.bind Event.value).map Term.consts =
        some ["nd_t0_0", "rv_t0_0"] ∧
      MovesOnly 1 (drawingAfter [⟨0, 0⟩, ⟨0, 1⟩, ⟨0, 2⟩]).1
        (drawingAfter [⟨0, 0⟩, ⟨0, 1⟩, ⟨0, 2⟩, ⟨1, 0⟩]).1 := by
  obtain ⟨hwell, hmoves⟩ := wellFormed_of_issued drawing_issued
  refine ⟨hwell, by cbv, hmoves ⟨1, 0⟩ 4 _ ?_⟩
  cbv
  exact List.mem_singleton_self _

end Consistency.Composition
