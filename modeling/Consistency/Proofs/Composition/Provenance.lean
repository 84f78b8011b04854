import Consistency.Proofs.Composition.Alone
import Consistency.Proofs.Composition.Symbols
import Consistency.Proofs.Composition.Typing

/-!
# Where symbols come from

A symbol in a register, a constraint or a stored value of a thread is that of a
read which the thread has made, or of a choice at an earlier step whose values a
constraint states. As threads do not look at one another it suffices to follow
one of them on its own.
-/

set_option autoImplicit false

namespace Consistency

def Solo.Knows (thread : Nat) (a : Solo) (x : String) : Prop :=
  (∃ e ∈ a.events, e.kind = .read ∧ x = readSymbol thread e.index) ∨
    ∃ k < a.state.steps, x = Thread.choiceSymbol thread k ∧
      ∃ values, values ≠ [] ∧ .oneOf x values ∈ a.state.constraints.toList

structure Solo.Informed (thread : Nat) (a : Solo) : Prop where
  state : a.state.Over (a.Knows thread)
  stored : ∀ e ∈ a.events, ∀ v, e.value = some v → v.Over (a.Knows thread)

namespace Thread
variable {t : Thread} {p : Precision} {a : Solo} {next : LocalState} {edge : Nat}

def moved (t : Thread) (a : Solo) (edge : Nat) (next : LocalState) : Solo :=
  ⟨next, a.events ++ (t.emit a.state edge 0).map Event.shape⟩

/-- Nothing is forgotten. -/
theorem knows_moved (hs : next ∈ t.step p a.state edge) {x : String} (h : a.Knows t.id x) :
    (t.moved a edge next).Knows t.id x := by
  obtain ⟨e, -, -, -, hfollow⟩ := mem_step hs
  rcases h with ⟨d, hd, hread⟩ | ⟨k, hk, hx, values, hne, hmem⟩
  · exact .inl ⟨d, List.mem_append_left _ hd, hread⟩
  · refine .inr ⟨k, ?_, hx, values, hne, follow_constraints hfollow hmem⟩
    have hsteps : next.steps = a.state.steps + 1 := (step_counts hs 0).1
    exact hsteps ▸ Nat.lt_succ_of_lt hk

/-- The symbol that a load adds is that of its event, and the one that a choice adds is
constrained. -/
theorem moved_informed (h : a.Informed t.id) (hs : next ∈ t.step p a.state edge) :
    (t.moved a edge next).Informed t.id := by
  obtain ⟨e, he, -, -, hfollow⟩ := mem_step hs
  have hkept : ∀ x, a.Knows t.id x → (t.moved a edge next).Knows t.id x :=
    fun _ => knows_moved hs
  have hstate : a.state.Over ((t.moved a edge next).Knows t.id) := h.state.mono hkept
  constructor
  · refine follow_over hstate hfollow (fun reg x hload => .inl ?_)
      fun values hne hmem => .inr ⟨a.state.steps, ?_, rfl, values, hne, hmem⟩
    · refine ⟨⟨.thread t.id, a.state.accesses, x, .read, none⟩, ?_, rfl, rfl⟩
      refine List.mem_append_right _ ?_
      simp [emit, access, he, hload, accessOf, Event.make, Event.shape]
    · have hsteps : next.steps = a.state.steps + 1 := (step_counts hs 0).1
      exact hsteps ▸ Nat.lt_succ_self _
  · intro d hd v hv
    rcases List.mem_append.1 hd with hd | hd
    · exact (h.stored d hd v hv).mono hkept
    · obtain ⟨emitted, hemitted, rfl⟩ := List.mem_map.1 hd
      obtain ⟨e', x, -, hx, rfl⟩ := Composition.mem_emit hemitted
      refine access_over hstate hx ?_
      cases hk : x.kind with
      | read => exact absurd hv (by simp [Event.make, Event.shape, hk])
      | write => simpa [Event.make, Event.shape, hk] using hv

theorem Alone.informed (h : t.Alone p a) : a.Informed t.id := by
  induction h with
  | start =>
    exact ⟨LocalState.start_over t.automaton.initial, fun e he => absurd he List.not_mem_nil⟩
  | step edge _ hs ih => exact moved_informed ih hs

end Thread
end Consistency
