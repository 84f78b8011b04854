import Mathlib.Data.List.Perm.Subperm
import Consistency.Proofs.Automaton.Built
import Consistency.Proofs.Composition.Reachable

/-!
# Threads that can move

In a reachable state the threads that count as terminated are those at
locations that no edge leaves. All others may take any edge of theirs.
-/

set_option autoImplicit false

namespace Consistency

namespace Automaton
variable {a : Automaton} {location edge : Nat}

theorem mem_outgoing : edge ∈ a.outgoing location ↔
    ∃ e, a.edge? edge = some e ∧ e.source = location :=
  a.indexed.mem_outgoing

theorem isTerminal_iff : a.isTerminal location = true ↔ ∀ edge, edge ∉ a.outgoing location :=
  List.isEmpty_iff.trans List.eq_nil_iff_forall_not_mem

theorem isTerminal_iff_source :
    a.isTerminal location = true ↔ ∀ e ∈ a.edges, e.source ≠ location := by
  simp only [isTerminal_iff, mem_outgoing, not_exists, not_and]
  constructor
  · intro h e he
    obtain ⟨edge, hedge⟩ := List.mem_iff_getElem?.1 he
    exact h edge e hedge
  · exact fun h edge e he => h e (List.mem_of_getElem? he)

end Automaton

namespace Composition
variable {c : Composition} {p : Precision} {s t : GlobalState} {i : Nat} {th : Thread}
  {l : LocalState}

def Numbered (c : Composition) : Prop := ∀ (i : Nat) (t : Thread), c.threads[i]? = some t → t.id = i

theorem ofAutomata_numbered (automata : List Automaton) (initial : List (String × Int)) :
    (ofAutomata automata initial).Numbered := fun _ _ => ofAutomata_thread_id

structure Tidy (c : Composition) (s : GlobalState) : Prop where
  length : s.locals.length = c.threads.length
  terminated : ∀ i, i ∈ s.terminated.toList ↔ ∃ t l, c.threads[i]? = some t ∧
    s.locals[i]? = some l ∧ t.isTerminated l = true
  nodup : s.terminated.toList.Nodup

theorem mem_terminatedAt (hn : c.Numbered) (locals : List LocalState) (i : Nat) :
    i ∈ (c.terminatedAt locals).toList ↔ ∃ t l, c.threads[i]? = some t ∧
      locals[i]? = some l ∧ t.isTerminated l = true := by
  simp only [terminatedAt, OrderedSet.mem_ofList, List.mem_map, List.mem_filter, Prod.exists]
  constructor
  · rintro ⟨t, l, ⟨hz, ht⟩, rfl⟩
    obtain ⟨j, hj⟩ := List.mem_iff_getElem?.1 hz
    rw [List.getElem?_zip_eq_some] at hj
    obtain rfl := hn j t hj.1
    exact ⟨t, l, hj.1, hj.2, ht⟩
  · rintro ⟨t, l, ht, hl, hterm⟩
    refine ⟨t, l, ⟨?_, hterm⟩, hn i t ht⟩
    exact List.mem_of_getElem? (List.getElem?_zip_eq_some.2 ⟨ht, hl⟩)

theorem init_tidy (hn : c.Numbered) (number : Nat) : c.Tidy (c.init number).1 where
  length := List.length_map _
  terminated := mem_terminatedAt hn _
  nodup := OrderedSet.ofList_nodup _

theorem settle_tidy (hs : c.Tidy s) (ht : c.threads[i]? = some th) (hl : s.locals[i]? = some l)
    (hrun : s.terminated.contains i = false) (es : List Event) (next : LocalState) :
    c.Tidy (settle s es i th next) := by
  have hnot : i ∉ s.terminated.toList := by simpa [OrderedSet.contains] using hrun
  have hlt : i < s.locals.length := (List.getElem?_eq_some_iff.1 hl).1
  have hother : ∀ j, j ≠ i → (settle s es i th next).locals[j]? = s.locals[j]? := fun j hj =>
    List.getElem?_set_ne (Ne.symm hj)
  have hself : (settle s es i th next).locals[i]? = some next := List.getElem?_set_self hlt
  have hmem : ∀ j, j ∈ (settle s es i th next).terminated.toList ↔
      (j = i ∧ th.isTerminated next = true) ∨ j ∈ s.terminated.toList := by
    intro j
    unfold settle
    split
    · next hterm => simp [OrderedSet.mem_insert, hterm]
    · next hterm => simp [hterm]
  refine ⟨?_, fun j => ?_, ?_⟩
  · rw [← hs.length]
    exact List.length_set
  · rw [hmem]
    by_cases hj : j = i
    · subst hj
      rw [hself]
      constructor
      · rintro (⟨-, hterm⟩ | h)
        · exact ⟨th, next, ht, rfl, hterm⟩
        · exact absurd h hnot
      · rintro ⟨t, l', ht', hl', hterm⟩
        obtain rfl := Option.some.inj (ht.symm.trans ht')
        obtain rfl := Option.some.inj hl'
        exact .inl ⟨rfl, hterm⟩
    · rw [hother j hj, ← hs.terminated]
      simp [hj]
  · unfold settle
    split
    · exact OrderedSet.insert_nodup hs.nodup hnot
    · exact hs.nodup

theorem tidy_of_reachable (hn : c.Numbered) (h : c.Reachable p s) : c.Tidy s := by
  refine h.invariant (init_tidy hn) ?_
  rintro s a number t ht hs
  obtain ⟨th, l, next, hth, hl, -, hrun, rfl⟩ := mem_trans ht
  exact settle_tidy hs hth hl hrun _ next

theorem Tidy.terminated_at (hs : c.Tidy s) (ht : c.threads[i]? = some th)
    (hl : s.locals[i]? = some l) : s.terminated.contains i = th.isTerminated l := by
  have hmem : s.terminated.contains i = true ↔ i ∈ s.terminated.toList := by
    simp [OrderedSet.contains]
  rw [Bool.eq_iff_iff, hmem, hs.terminated]
  constructor
  · rintro ⟨t, l', ht', hl', h⟩
    obtain rfl := Option.some.inj (ht.symm.trans ht')
    obtain rfl := Option.some.inj (hl.symm.trans hl')
    exact h
  · exact fun h => ⟨th, l, ht, hl, h⟩

/-- A state is terminal when no thread can go on. -/
theorem Tidy.isTerminal_iff (hs : c.Tidy s) : s.isTerminal = true ↔
    ∀ (i : Nat) (t : Thread) (l : LocalState), c.threads[i]? = some t → s.locals[i]? = some l →
      t.isTerminated l = true := by
  have hsub : s.terminated.toList ⊆ List.range s.locals.length := by
    intro i hi
    obtain ⟨t, l, -, hl, -⟩ := (hs.terminated i).1 hi
    exact List.mem_range.2 (List.getElem?_eq_some_iff.1 hl).1
  rw [GlobalState.isTerminal, beq_iff_eq, OrderedSet.size]
  constructor
  · intro hsize i t l ht hl
    have hlength : (List.range s.locals.length).length ≤ s.terminated.toList.length := by
      rw [List.length_range]
      exact Nat.le_of_eq hsize.symm
    have hperm := (hs.nodup.subperm hsub).perm_of_length_le hlength
    have hi : i ∈ s.terminated.toList :=
      hperm.mem_iff.2 (List.mem_range.2 (List.getElem?_eq_some_iff.1 hl).1)
    rw [← hs.terminated_at ht hl]
    simpa [OrderedSet.contains] using hi
  · intro h
    have hall : List.range s.locals.length ⊆ s.terminated.toList := by
      intro i hi
      have hi := List.mem_range.1 hi
      have hl := List.getElem?_eq_getElem hi
      have ht := List.getElem?_eq_getElem (hs.length ▸ hi)
      exact (hs.terminated i).2 ⟨_, _, ht, hl, h i _ _ ht hl⟩
    have hle := (hs.nodup.subperm hsub).length_le
    have hge := (List.nodup_range.subperm hall).length_le
    rw [List.length_range] at hle hge
    exact Nat.le_antisymm hle hge

theorem Tidy.mem_enabled (hs : c.Tidy s) (ht : c.threads[i]? = some th)
    (hl : s.locals[i]? = some l) {edge : Nat} (he : edge ∈ th.automaton.outgoing l.location) :
    ⟨i, edge⟩ ∈ c.enabled s := by
  have hlive : s.terminated.contains i = false := by
    rw [hs.terminated_at ht hl, Thread.isTerminated, Bool.eq_false_iff]
    intro hterm
    exact Automaton.isTerminal_iff.1 hterm edge he
  unfold enabled
  refine List.mem_flatMap.2 ⟨((th, l), i), ?_, ?_⟩
  · rw [List.mem_zipIdx_iff_getElem?]
    exact List.getElem?_zip_eq_some.2 ⟨ht, hl⟩
  · simp only [hlive]
    exact List.mem_map.2 ⟨edge, he, rfl⟩

/-- What a thread does is done by the composition. -/
theorem settle_mem_trans {next : LocalState} {edge : Nat} (ht : c.threads[i]? = some th)
    (hl : s.locals[i]? = some l) (hrun : s.terminated.contains i = false)
    (hnext : next ∈ th.step p l edge) (number : Nat) :
    settle s (th.emit l edge number ++ s.emitted) i th next ∈
      (c.trans p s ⟨i, edge⟩ number).1 := by
  have hne : ¬ (th.step p l edge).isEmpty = true := by
    rw [List.isEmpty_iff]
    exact List.ne_nil_of_mem hnext
  have hrun : ¬ s.terminated.contains i = true := by simp [hrun]
  simp only [trans, ht, hl]
  rw [if_neg hrun, if_neg hne]
  cases hx : th.access l edge with
  | none => simpa [Thread.emit, hx] using List.mem_map_of_mem hnext
  | some x => simpa [Thread.emit, hx] using List.mem_map_of_mem hnext

end Composition
end Consistency
