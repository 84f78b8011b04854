import Consistency.Proofs.Composition.Place
import Consistency.Proofs.Composition.Symbols
import Consistency.Proofs.Term.Typing

/-!
# Programs with sorts

Where guards are Boolean and all else is an integer, so is what a reachable state
holds. Its symbols come from reads that the threads have made and from choices
whose values are kept among the constraints.
-/

set_option autoImplicit false

namespace Consistency

def AllInt (_ : String) (k : ValueSort) : Prop := k = .int

def Label.Typed : Label → Prop
  | .assume cond => cond.HasSort AllInt .bool
  | .assign _ value => value.HasSort AllInt .int
  | .store _ value => value.HasSort AllInt .int
  | .skip | .nondet _ _ | .load _ _ => True

def Automaton.Typed (a : Automaton) : Prop := ∀ e ∈ a.edges, e.label.Typed

structure LocalState.Typed (D : String → ValueSort → Prop) (s : LocalState) : Prop where
  registers : ∀ reg, (s.register reg).HasSort D .int
  constraints : ∀ t ∈ s.constraints.toList, t.HasSort D .bool

namespace LocalState
variable {D E : String → ValueSort → Prop} {s : LocalState} {t : Term} {k : ValueSort}

theorem Typed.mono (h : s.Typed D) (hDE : ∀ x l, D x l → E x l) : s.Typed E where
  registers := fun reg => (h.registers reg).mono _ fun x _ l => hDE x l
  constraints := fun t ht => (h.constraints t ht).mono t fun x _ l => hDE x l

theorem Typed.eval (h : s.Typed D) (ht : t.HasSort AllInt k) : (s.eval t).HasSort D k := by
  refine Term.HasSort.simplify _ (Term.HasSort.substitute (fun x l hl => ?_) t ht)
  obtain rfl : l = .int := hl
  exact h.registers x

theorem Typed.assign (h : s.Typed D) (reg : String) (ht : t.HasSort D .int) :
    (s.assign reg t).Typed D where
  registers := by
    intro reg'
    rw [register, LocalState.assign, OrderedMap.get?_insert]
    split
    · exact ht
    · exact h.registers reg'
  constraints := h.constraints

theorem Typed.constrain (h : s.Typed D) (ht : t.HasSort D .bool) : (s.constrain t).Typed D where
  registers := h.registers
  constraints := by
    intro u hu
    rcases OrderedSet.mem_insert.1 hu with rfl | hu
    · exact ht
    · exact h.constraints u hu

theorem start_typed (location : Nat) : (start location).Typed D where
  registers := fun _ => rfl
  constraints := by simp [start, OrderedSet.empty]

end LocalState

namespace Thread
variable {t : Thread} {p : Precision} {s next : LocalState} {e : Edge}
  {D : String → ValueSort → Prop}

/-- Constraints are never taken back. -/
theorem follow_constraints (h : next ∈ t.follow p s e) :
    s.constraints.toList ⊆ next.constraints.toList :=
  follow_keeps (I := fun l => s.constraints.toList ⊆ l.constraints.toList) (List.Subset.refl _)
    (fun _ _ h _ hu => OrderedSet.mem_insert.2 (.inr (h hu))) (fun _ _ _ h => h) h

theorem choose_typed {reg : String} {values : List Int} {base : LocalState} (hb : base.Typed D)
    (h : next ∈ t.choose p s base reg values)
    (hstated : ∀ x values, values ≠ [] → .oneOf x values ∈ next.constraints.toList → D x .int) :
    next.Typed D := by
  unfold choose at h
  simp only at h
  split at h
  · exact absurd h (by simp)
  · next hne =>
    split at h
    · obtain ⟨v, -, rfl⟩ := List.mem_map.1 h
      exact hb.assign reg rfl
    · obtain rfl := List.mem_singleton.1 h
      have hsym : D (choiceSymbol t.id s.steps) .int :=
        hstated _ _ (by simpa using hne) (OrderedSet.mem_insert.2 (.inl rfl))
      exact (hb.constrain (Term.hasSort_oneOf hsym _)).assign reg hsym

/-- The state behind an edge is typed once the symbols that it adds are. -/
theorem follow_typed (hs : s.Typed D) (he : e.label.Typed) (h : next ∈ t.follow p s e)
    (hread : ∀ reg x, e.label = .load reg x → D (readSymbol t.id s.accesses) .int)
    (hstated : ∀ x values, values ≠ [] → .oneOf x values ∈ next.constraints.toList → D x .int) :
    next.Typed D := by
  have hb : (advance s e).Typed D := ⟨hs.registers, hs.constraints⟩
  obtain ⟨source, target, label⟩ := e
  cases label with
  | skip => rwa [List.mem_singleton.1 h]
  | store x value => rwa [List.mem_singleton.1 h]
  | assume cond =>
    simp only [follow] at h
    split at h
    · rwa [List.mem_singleton.1 h]
    · exact absurd h (by simp)
    · rw [List.mem_singleton.1 h]
      exact hb.constrain (hs.eval he)
  | assign reg value =>
    rw [List.mem_singleton.1 h]
    exact hb.assign _ (hs.eval he)
  | nondet reg values => exact choose_typed hb h hstated
  | load reg x =>
    rw [List.mem_singleton.1 h]
    exact hb.assign _ (hread reg x rfl)

theorem access_typed (hs : s.Typed D) {label : Label} (hl : label.Typed) {x : Access}
    (h : accessOf s label = some x) {value : Term} (hv : x.value = some value) :
    value.HasSort D .int := by
  cases label with
  | store var stored =>
    obtain rfl := Option.some.inj h
    obtain rfl := Option.some.inj hv
    exact hs.eval hl
  | load reg var =>
    obtain rfl := Option.some.inj h
    exact absurd hv (by simp)
  | _ => exact absurd h (by simp [accessOf])

end Thread

namespace Composition
variable {c : Composition} {p : Precision} {s : GlobalState}

def Traced (s : GlobalState) (x : String) : Prop :=
  (∃ e ∈ s.emitted, e.isRead = true ∧ e.symbol = x) ∨
    ∃ l ∈ s.locals, ∃ values, values ≠ [] ∧ .oneOf x values ∈ l.constraints.toList

def TracedInt (s : GlobalState) (x : String) (k : ValueSort) : Prop := Traced s x ∧ k = .int

structure Typed (s : GlobalState) : Prop where
  locals : ∀ l ∈ s.locals, l.Typed (TracedInt s)
  stored : ∀ e ∈ s.emitted, ∀ t, e.value = some t → t.HasSort (TracedInt s) .int

/-- A step leaves symbols traced. -/
theorem Traced.step {a : Action} {number : Nat} {th : Thread} {l next : LocalState}
    (hl : s.locals[a.thread]? = some l)
    (hsub : l.constraints.toList ⊆ next.constraints.toList) {x : String} (h : Traced s x) :
    Traced (settle s (th.emit l a.edge number ++ s.emitted) a.thread th next) x := by
  rcases h with ⟨e, he, hread⟩ | ⟨k, hk, values, hne, hmem⟩
  · exact .inl ⟨e, List.mem_append_right _ he, hread⟩
  · obtain ⟨j, hj⟩ := List.mem_iff_getElem?.1 hk
    by_cases hsame : a.thread = j
    · subst hsame
      obtain rfl := Option.some.inj (hl.symm.trans hj)
      have hnext : next ∈ s.locals.set a.thread next :=
        List.mem_set (List.getElem?_eq_some_iff.1 hl).1 next
      exact .inr ⟨next, hnext, values, hne, hsub hmem⟩
    · have hkept : k ∈ s.locals.set a.thread next :=
        List.mem_of_getElem? ((List.getElem?_set_ne hsame).trans hj)
      exact .inr ⟨k, hkept, values, hne, hmem⟩

theorem typed_of_reachable (hc : ∀ t ∈ c.threads, t.automaton.Typed) (h : c.Reachable p s) :
    Typed s := by
  refine h.invariant (fun number => ?_) ?_
  · constructor
    · intro l hl
      obtain ⟨t, -, rfl⟩ := List.mem_map.1 hl
      exact LocalState.start_typed t.automaton.initial
    · intro e he u hu
      obtain ⟨x, v, i, -, rfl⟩ := mem_initialEvents (List.mem_reverse.1 he)
      obtain rfl := Option.some.inj hu
      exact rfl
  · intro s a number t ht hs
    obtain ⟨th, l, next, hth, hl, hstep, -, rfl⟩ := mem_trans ht
    obtain ⟨e, he, -, -, hfollow⟩ := Thread.mem_step hstep
    have hlabel := hc th (List.mem_of_getElem? hth) e (List.mem_of_getElem? he)
    have hsub := Thread.follow_constraints hfollow
    have hkept : ∀ x k, TracedInt s x k →
        TracedInt (settle s (th.emit l a.edge number ++ s.emitted) a.thread th next) x k :=
      fun x k hx => ⟨hx.1.step hl hsub, hx.2⟩
    have hlt := (hs.locals l (List.mem_of_getElem? hl)).mono hkept
    have hnext : next ∈ s.locals.set a.thread next :=
      List.mem_set (List.getElem?_eq_some_iff.1 hl).1 next
    constructor
    · intro l' hl'
      rcases List.mem_or_eq_of_mem_set hl' with hl' | rfl
      · exact (hs.locals l' hl').mono hkept
      · refine Thread.follow_typed hlt hlabel hfollow (fun reg x hload => ⟨.inl ?_, rfl⟩)
          fun x values hne hmem => ⟨.inr ⟨l', hnext, values, hne, hmem⟩, rfl⟩
        refine ⟨.make number (.thread th.id) x .read l.accesses none, ?_, rfl, rfl⟩
        refine List.mem_append_left _ ?_
        simp [Thread.emit, Thread.access, he, hload, Thread.accessOf]
    · intro d hd u hu
      rcases List.mem_append.1 hd with hd | hd
      · obtain ⟨e', x, he', hx, rfl⟩ := mem_emit hd
        obtain rfl := Option.some.inj (he.symm.trans he')
        refine Thread.access_typed hlt hlabel hx ?_
        cases hk : x.kind with
        | read => exact absurd hu (by simp [Event.make, hk])
        | write => simpa [Event.make, hk] using hu
      · exact (hs.stored d hd u hu).mono u fun x _ => hkept x

end Composition
end Consistency
