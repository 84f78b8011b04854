import Consistency.Proofs.Composition.Reachable
import Consistency.Proofs.Query.Symbols
import Consistency.Proofs.Term.Order
import Consistency.Proofs.Term.Simplify

/-!
# Symbols in reachable states

The registers, constraints and stored values of a reachable state are terms over
the values of reads and the choices of threads, and over nothing else.
-/

set_option autoImplicit false

namespace Consistency

def ValueSymbol (name : String) : Prop := stem name = ['r', 'v'] ∨ stem name = ['n', 'd']

def Term.OverValues (t : Term) : Prop := ∀ name ∈ t.consts, ValueSymbol name

theorem valueSymbol_read (t i : Nat) : ValueSymbol (readSymbol t i) := .inl (stem_readSymbol t i)

theorem valueSymbol_choice (t k : Nat) : ValueSymbol (Thread.choiceSymbol t k) :=
  .inr (stem_choiceSymbol t k)

section Over
variable {D E : String → Prop} {t : Term} {x : String}

def Term.Over (D : String → Prop) (t : Term) : Prop := ∀ x ∈ t.consts, D x

theorem Term.Over.mono (h : t.Over D) (hDE : ∀ x, D x → E x) : t.Over E :=
  fun x hx => hDE x (h x hx)

theorem Term.over_const (h : D x) : (Term.const x).Over D := by
  intro y hy
  rwa [List.mem_singleton.1 hy]

theorem Term.over_int (n : Int) : (Term.int n).Over D := by simp [Over, consts]

theorem Term.over_oneOf {values : List Int} (h : D x) : (Term.oneOf x values).Over D := by
  intro y hy
  obtain ⟨t, ht, hyt⟩ := mem_consts_mkOr hy
  obtain ⟨n, -, rfl⟩ := List.mem_map.1 ht
  have hname : y = x := by simpa [consts] using hyt
  rwa [hname]

structure LocalState.Over (D : String → Prop) (s : LocalState) : Prop where
  registers : ∀ reg, (s.register reg).Over D
  constraints : ∀ t ∈ s.constraints.toList, t.Over D

end Over

structure LocalState.OverValues (s : LocalState) : Prop where
  registers : ∀ reg, (s.register reg).OverValues
  constraints : ∀ t ∈ s.constraints.toList, t.OverValues

structure Event.OverValues (e : Event) : Prop where
  read : e.isRead = true → e.value = none
  write : e.isWrite = true → ∃ t, e.value = some t
  stored : ∀ t, e.value = some t → t.OverValues

namespace LocalState
variable {D E : String → Prop} {s : LocalState} {t : Term}

theorem overValues_iff : s.OverValues ↔ s.Over ValueSymbol :=
  ⟨fun h => ⟨h.registers, h.constraints⟩, fun h => ⟨h.registers, h.constraints⟩⟩

theorem Over.mono (h : s.Over D) (hDE : ∀ x, D x → E x) : s.Over E where
  registers := fun reg => (h.registers reg).mono hDE
  constraints := fun t ht => (h.constraints t ht).mono hDE

theorem Over.eval (h : s.Over D) (t : Term) : (s.eval t).Over D := by
  intro x hx
  obtain ⟨y, -, hxy⟩ := Term.mem_consts_substitute t (Term.mem_consts_simplify _ hx)
  exact h.registers y x hxy

theorem Over.assign (h : s.Over D) (reg : String) (ht : t.Over D) : (s.assign reg t).Over D where
  registers := by
    intro reg'
    rw [register, LocalState.assign, OrderedMap.get?_insert]
    split
    · exact ht
    · exact h.registers reg'
  constraints := h.constraints

theorem Over.constrain (h : s.Over D) (ht : t.Over D) : (s.constrain t).Over D where
  registers := h.registers
  constraints := by
    intro u hu
    rcases OrderedSet.mem_insert.1 hu with rfl | hu
    · exact ht
    · exact h.constraints u hu

theorem start_over (location : Nat) : (start location).Over D where
  registers := fun _ => Term.over_int 0
  constraints := by simp [start, OrderedSet.empty]

end LocalState

namespace Thread
variable {t : Thread} {p : Precision} {s next : LocalState} {e : Edge} {D : String → Prop}

theorem choose_over {reg : String} {values : List Int} {base : LocalState} (hb : base.Over D)
    (h : next ∈ t.choose p s base reg values)
    (hstated : ∀ values, values ≠ [] →
      .oneOf (choiceSymbol t.id s.steps) values ∈ next.constraints.toList →
        D (choiceSymbol t.id s.steps)) : next.Over D := by
  unfold choose at h
  simp only at h
  split at h
  · exact absurd h (by simp)
  · next hne =>
    split at h
    · obtain ⟨v, -, rfl⟩ := List.mem_map.1 h
      exact hb.assign reg (Term.over_int v)
    · obtain rfl := List.mem_singleton.1 h
      have hsym : D (choiceSymbol t.id s.steps) :=
        hstated _ (by simpa using hne) (OrderedSet.mem_insert.2 (.inl rfl))
      exact (hb.constrain (Term.over_oneOf hsym)).assign reg (Term.over_const hsym)

/-- The state behind an edge is over `D` once the symbols that it adds are in `D`. -/
theorem follow_over (hs : s.Over D) (h : next ∈ t.follow p s e)
    (hread : ∀ reg x, e.label = .load reg x → D (readSymbol t.id s.accesses))
    (hstated : ∀ values, values ≠ [] →
      .oneOf (choiceSymbol t.id s.steps) values ∈ next.constraints.toList →
        D (choiceSymbol t.id s.steps)) : next.Over D := by
  have hb : (advance s e).Over D := ⟨hs.registers, hs.constraints⟩
  obtain ⟨source, target, label⟩ := e
  cases label with
  | skip => rwa [List.mem_singleton.1 h]
  | store x value => rwa [List.mem_singleton.1 h]
  | assume cond =>
    simp only [follow] at h
    split at h
    · rwa [List.mem_singleton.1 h]
    · exact absurd h (by simp)
    · rw [List.mem_singleton.1 h]
      exact hb.constrain (hs.eval _)
  | assign reg value =>
    rw [List.mem_singleton.1 h]
    exact hb.assign _ (hs.eval _)
  | nondet reg values => exact choose_over hb h hstated
  | load reg x =>
    rw [List.mem_singleton.1 h]
    exact hb.assign _ (Term.over_const (hread reg x rfl))

/-- Whatever an edge stores is over the symbols of the state that it is taken in. -/
theorem access_over (hs : s.Over D) {label : Label} {x : Access} (h : accessOf s label = some x)
    {value : Term} (hv : x.value = some value) : value.Over D := by
  cases label with
  | store var stored =>
    obtain rfl := Option.some.inj h
    obtain rfl := Option.some.inj hv
    exact hs.eval stored
  | load reg var =>
    obtain rfl := Option.some.inj h
    exact absurd hv (by simp)
  | _ => exact absurd h (by simp [accessOf])

theorem access_overValues (hs : s.OverValues) {label : Label} {x : Access}
    (h : accessOf s label = some x) (number owner index : Nat) :
    (Event.make number (.thread owner) x.var x.kind index x.value).OverValues := by
  unfold accessOf at h
  split at h
  · obtain rfl := Option.some.inj h
    exact ⟨fun _ => rfl, fun hw => absurd hw (by simp [Event.make, Event.isWrite]),
      by simp [Event.make]⟩
  · next var value =>
    obtain rfl := Option.some.inj h
    refine ⟨fun hr => absurd hr (by simp [Event.make, Event.isRead]), fun _ => ⟨_, rfl⟩,
      fun u hu => ?_⟩
    have haccess : accessOf s (.store var value) = some ⟨var, .write, some (s.eval value)⟩ := rfl
    exact access_over (LocalState.overValues_iff.1 hs) haccess hu
  · exact absurd h (by simp)

end Thread

namespace Composition
variable {c : Composition} {p : Precision} {s : GlobalState}

structure OverValues (s : GlobalState) : Prop where
  locals : ∀ l ∈ s.locals, l.OverValues
  events : ∀ e ∈ s.emitted, e.OverValues

theorem overValues_of_reachable (h : c.Reachable p s) : OverValues s := by
  refine h.invariant (fun number => ?_) ?_
  · constructor
    · intro l hl
      obtain ⟨t, -, rfl⟩ := List.mem_map.1 hl
      exact LocalState.overValues_iff.2 (LocalState.start_over t.automaton.initial)
    · intro e he
      obtain ⟨x, v, i, -, rfl⟩ := mem_initialEvents (List.mem_reverse.1 he)
      refine ⟨fun hr => absurd hr (by simp [Event.make, Event.isRead]), fun _ => ⟨_, rfl⟩,
        fun u hu => ?_⟩
      obtain rfl := Option.some.inj hu
      exact Term.over_int v
  · rintro s a number t ht hs
    obtain ⟨th, l, next, -, hl, hstep, -, rfl⟩ := mem_trans ht
    have hlv := hs.locals l (List.mem_of_getElem? hl)
    constructor
    · intro l' hl'
      rcases List.mem_or_eq_of_mem_set hl' with hl' | rfl
      · exact hs.locals l' hl'
      · obtain ⟨e, -, -, -, hf⟩ := Thread.mem_step hstep
        have hnext := Thread.follow_over (LocalState.overValues_iff.1 hlv) hf
          (fun _ _ _ => valueSymbol_read _ _) (fun _ _ _ => valueSymbol_choice _ _)
        exact LocalState.overValues_iff.2 hnext
    · intro e he
      rcases List.mem_append.1 he with he | he
      · obtain ⟨d, x, -, hx, rfl⟩ := mem_emit he
        exact Thread.access_overValues hlv hx number th.id l.accesses
      · exact hs.events e he

end Composition
end Consistency
