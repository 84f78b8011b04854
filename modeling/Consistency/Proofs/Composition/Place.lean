import Consistency.Proofs.Composition.Progress

/-!
# Places of events

A step is counted by the thread that takes it, and so is its use of memory.
In a reachable state an event of a thread therefore stands at a use of memory
that the thread has made, and no two events stand at one place.
-/

set_option autoImplicit false

namespace Consistency

namespace Thread
variable {t : Thread} {p : Precision} {s next : LocalState} {e : Edge} {edge : Nat}

section Keeps
variable {I : LocalState → Prop}

theorem choose_keeps {reg : String} {values : List Int} {base : LocalState} (hb : I base)
    (hconstrain : ∀ next guard, I next → I (next.constrain guard))
    (hassign : ∀ next reg value, I next → I (next.assign reg value))
    (h : next ∈ t.choose p s base reg values) : I next := by
  unfold choose at h
  simp only at h
  split at h
  · exact absurd h (by simp)
  · split at h
    · obtain ⟨v, -, rfl⟩ := List.mem_map.1 h
      exact hassign _ _ _ hb
    · obtain rfl := List.mem_singleton.1 h
      exact hassign _ _ _ (hconstrain _ _ hb)

/-- An edge moves on, and may then constrain symbols and assign registers. -/
theorem follow_keeps (hb : I (advance s e))
    (hconstrain : ∀ next guard, I next → I (next.constrain guard))
    (hassign : ∀ next reg value, I next → I (next.assign reg value))
    (h : next ∈ t.follow p s e) : I next := by
  unfold follow at h
  simp only at h
  split at h
  · rwa [List.mem_singleton.1 h]
  · rwa [List.mem_singleton.1 h]
  · split at h
    · rwa [List.mem_singleton.1 h]
    · exact absurd h (by simp)
    · rw [List.mem_singleton.1 h]
      exact hconstrain _ _ hb
  · rw [List.mem_singleton.1 h]
    exact hassign _ _ _ hb
  · exact choose_keeps hb hconstrain hassign h
  · rw [List.mem_singleton.1 h]
    exact hassign _ _ _ hb

end Keeps

structure Advanced (s : LocalState) (e : Edge) (next : LocalState) : Prop where
  location : next.location = e.target
  steps : next.steps = s.steps + 1
  accesses : next.accesses = s.accesses + (if e.label.sharedVar?.isSome then 1 else 0)

theorem advance_advanced (s : LocalState) (e : Edge) : Advanced s e (advance s e) := ⟨rfl, rfl, rfl⟩

theorem Advanced.assign (h : Advanced s e next) (reg : String) (value : Term) :
    Advanced s e (next.assign reg value) := ⟨h.location, h.steps, h.accesses⟩

theorem Advanced.constrain (h : Advanced s e next) (guard : Term) :
    Advanced s e (next.constrain guard) := ⟨h.location, h.steps, h.accesses⟩

theorem follow_advanced (h : next ∈ t.follow p s e) : Advanced s e next :=
  follow_keeps (advance_advanced s e) (fun _ guard h => h.constrain guard)
    (fun _ reg value h => h.assign reg value) h

theorem length_emit (he : t.automaton.edge? edge = some e) (s : LocalState) (number : Nat) :
    (t.emit s edge number).length = if e.label.sharedVar?.isSome then 1 else 0 := by
  obtain ⟨source, target, label⟩ := e
  rw [emit, access, he]
  cases label <;> rfl

/-- The counters behind a step. -/
theorem step_counts (h : next ∈ t.step p s edge) (number : Nat) :
    next.steps = s.steps + 1 ∧ next.accesses = s.accesses + (t.emit s edge number).length := by
  obtain ⟨e, he, -, -, hf⟩ := mem_step h
  have hadvanced := follow_advanced hf
  rw [length_emit he]
  exact ⟨hadvanced.steps, hadvanced.accesses⟩

end Thread

namespace Composition
variable {c : Composition} {p : Precision} {s : GlobalState} {i : Nat} {th : Thread}
  {l next : LocalState}

def SamePlace (d e : Event) : Prop := d.owner = e.owner ∧ d.index = e.index

structure Placed (s : GlobalState) : Prop where
  below : ∀ e ∈ s.emitted, ∀ i, e.owner = .thread i →
    ∃ l, s.locals[i]? = some l ∧ e.index < l.accesses
  apart : s.emitted.Pairwise fun d e => ¬ SamePlace d e

theorem init_placed (c : Composition) (number : Nat) : Placed (c.init number).1 where
  below := by
    intro e he i hi
    obtain ⟨x, v, k, -, rfl⟩ := mem_initialEvents (List.mem_reverse.1 he)
    exact absurd hi (by simp [Event.make])
  apart := by
    have hplaces : (c.initialEvents number).Pairwise fun d e => d.index < e.index := by
      refine List.pairwise_iff_getElem.2 fun i j hi hj hij => ?_
      simpa [initialEvents, Event.make] using hij
    refine List.pairwise_reverse.2 (hplaces.imp fun hlt hsame => ?_)
    have heq := hsame.2
    omega

/-- The event of a step stands at the next use of memory. -/
theorem settle_placed (hn : c.Numbered) (h : Placed s) (ht : c.threads[i]? = some th)
    (hl : s.locals[i]? = some l) {edge number : Nat} (hs : next ∈ th.step p l edge) :
    Placed (settle s (th.emit l edge number ++ s.emitted) i th next) := by
  obtain ⟨-, haccesses⟩ := Thread.step_counts hs number
  have hid : th.id = i := hn i th ht
  have hself : (s.locals.set i next)[i]? = some next :=
    List.getElem?_set_self (List.getElem?_eq_some_iff.1 hl).1
  have hnew : ∀ e ∈ th.emit l edge number, e.owner = .thread i ∧ e.index = l.accesses := by
    intro e he
    obtain ⟨d, x, -, -, rfl⟩ := mem_emit he
    exact ⟨congrArg Owner.thread hid, rfl⟩
  have hlength : (th.emit l edge number).length ≤ 1 := by
    rw [Thread.emit]
    cases th.access l edge <;> simp
  constructor
  · intro e he j hj
    rcases List.mem_append.1 he with he | he
    · obtain ⟨howner, hindex⟩ := hnew e he
      obtain rfl : i = j := Owner.thread.inj (howner.symm.trans hj)
      have hpos := List.length_pos_of_mem he
      exact ⟨next, hself, by omega⟩
    · obtain ⟨m, hm, hlt⟩ := h.below e he j hj
      by_cases hji : j = i
      · subst hji
        obtain rfl := Option.some.inj (hl.symm.trans hm)
        exact ⟨next, hself, by omega⟩
      · exact ⟨m, (List.getElem?_set_ne (Ne.symm hji)).trans hm, hlt⟩
  · refine List.pairwise_append.2 ⟨?_, h.apart, fun d hd e he hsame => ?_⟩
    · generalize th.emit l edge number = es at hlength
      rcases es with _ | ⟨d, _ | ⟨e, rest⟩⟩
      · exact .nil
      · exact List.pairwise_singleton _ d
      · exact absurd hlength (by simp)
    · obtain ⟨howner, hindex⟩ := hnew d hd
      obtain ⟨m, hm, hlt⟩ := h.below e he i (hsame.1.symm.trans howner)
      obtain rfl := Option.some.inj (hl.symm.trans hm)
      have heq := hsame.2
      omega

theorem placed_of_reachable (hn : c.Numbered) (h : c.Reachable p s) : Placed s := by
  refine h.invariant (init_placed c) ?_
  rintro s a number t ht hs
  obtain ⟨th, l, next, hth, hl, hstep, -, rfl⟩ := mem_trans ht
  exact settle_placed hn hs hth hl hstep

/-- An event is an initial write, or one of a thread that there is. -/
theorem owner_of_emitted (hn : c.Numbered) (h : c.Reachable p s) {e : Event} (he : e ∈ s.emitted) :
    e.owner = .init ∨ ∃ i < c.threads.length, e.owner = .thread i := by
  cases howner : e.owner with
  | init => exact .inl rfl
  | thread i =>
    obtain ⟨l, hl, -⟩ := (placed_of_reachable hn h).below e he i howner
    have hlt := (List.getElem?_eq_some_iff.1 hl).1
    exact .inr ⟨i, (tidy_of_reachable hn h).length ▸ hlt, rfl⟩

end Composition
end Consistency
