import Mathlib.Logic.Function.Basic
import Consistency.Proofs.Composition.Reachable
import Consistency.Proofs.Query.Requirement

/-!
# Runs over integers

A thread can be run on integer registers when it is told what it loads and
picks. Along such a run goes the local state that an exploration keeps for it,
with terms in place of the integers.
-/

set_option autoImplicit false

namespace Consistency

structure Move where
  edge : Nat
  value : Int
  deriving DecidableEq, Repr

structure Machine where
  location : Nat
  registers : Valuation

def Machine.start (location : Nat) : Machine := ⟨location, fun _ => 0⟩

/-- The registers after a label. There are none if a guard is not true, an expression has no
integer value, or `n` is not what the label stores or may pick. -/
def Label.apply (registers : Valuation) (n : Int) : Label → Option Valuation
  | .skip => some registers
  | .assume cond =>
    if cond.eval registers.environment = some (.bool true) then some registers else none
  | .assign reg value => match value.eval registers.environment with
    | some (.int k) => some (Function.update registers reg k)
    | _ => none
  | .nondet reg values => if n ∈ values then some (Function.update registers reg n) else none
  | .load reg _ => some (Function.update registers reg n)
  | .store _ value =>
    if value.eval registers.environment = some (.int n) then some registers else none

namespace Thread
variable {t : Thread} {p : Precision} {s : LocalState} {μ ν : Machine} {m : Move}
  {ms ns : List Move}

def move (t : Thread) (μ : Machine) (m : Move) : Option Machine :=
  match t.automaton.edge? m.edge with
  | none => none
  | some e =>
    if e.source = μ.location then (e.label.apply μ.registers m.value).map (Machine.mk e.target)
    else none

def play (t : Thread) (μ : Machine) : List Move → Option Machine
  | [] => some μ
  | m :: ms => (t.move μ m).bind fun ν => play t ν ms

theorem play_append : t.play μ (ms ++ ns) = (t.play μ ms).bind fun ν => t.play ν ns := by
  induction ms generalizing μ with
  | nil => rfl
  | cons m ms ih =>
    rw [List.cons_append, play, play, Option.bind_assoc]
    exact congrArg (t.move μ m).bind (funext fun _ => ih)

def pass (t : Thread) (p : Precision) (s : LocalState) (n : Int) (e : Edge) : LocalState :=
  let next := advance s e
  match e.label with
  | .skip | .assume _ | .store _ _ => next
  | .assign reg value => next.assign reg (s.eval value)
  | .nondet reg _ =>
    next.assign reg (if p.tracks reg then .int n else .const (choiceSymbol t.id s.steps))
  | .load reg _ => next.assign reg (.const (readSymbol t.id s.accesses))

def track (t : Thread) (p : Precision) (s : LocalState) (m : Move) : LocalState :=
  ((t.automaton.edge? m.edge).map (t.pass p s m.value)).getD s

def trackAll (t : Thread) (p : Precision) (s : LocalState) (ms : List Move) : LocalState :=
  ms.foldl (t.track p) s

end Thread

structure Occurrence where
  event : Event
  value : Int
  deriving DecidableEq, Repr

namespace Thread
variable {t : Thread} {p : Precision} {s : LocalState} {μ ν : Machine} {m : Move}
  {ms ns : List Move}

def occurs (t : Thread) (s : LocalState) (m : Move) : List Occurrence :=
  (t.emit s m.edge 0).map fun e => ⟨e, m.value⟩

def occurrences (t : Thread) (p : Precision) (s : LocalState) : List Move → List Occurrence
  | [] => []
  | m :: ms => t.occurs s m ++ occurrences t p (t.track p s m) ms

theorem occurrences_append : t.occurrences p s (ms ++ ns) =
    t.occurrences p s ms ++ t.occurrences p (t.trackAll p s ms) ns := by
  induction ms generalizing s with
  | nil => rfl
  | cons m ms ih =>
    rw [List.cons_append, occurrences, occurrences, ih, List.append_assoc]
    rfl

theorem trackAll_append : t.trackAll p s (ms ++ ns) = t.trackAll p (t.trackAll p s ms) ns :=
  List.foldl_append

theorem track_accesses (t : Thread) (p : Precision) (s : LocalState) (m : Move) :
    (t.track p s m).accesses = s.accesses + (t.occurs s m).length := by
  rw [occurs, List.length_map, emit, access, track]
  cases t.automaton.edge? m.edge with
  | none => rfl
  | some e =>
    obtain ⟨source, target, label⟩ := e
    cases label <;> rfl

theorem move_edge (h : t.move μ m = some ν) : ∃ e registers,
    t.automaton.edge? m.edge = some e ∧ e.source = μ.location ∧
      e.label.apply μ.registers m.value = some registers ∧ ν = ⟨e.target, registers⟩ := by
  unfold move at h
  split at h
  · exact absurd h (by simp)
  · next e he =>
    split at h
    · next hs =>
      obtain ⟨registers, hregs, rfl⟩ := Option.map_eq_some_iff.1 h
      exact ⟨e, registers, he, hs, hregs, rfl⟩
    · exact absurd h (by simp)

theorem track_steps (h : t.move μ m = some ν) (s : LocalState) :
    (t.track p s m).steps = s.steps + 1 := by
  obtain ⟨⟨source, target, label⟩, registers, he, -, -, -⟩ := move_edge h
  rw [track, he]
  cases label <;> rfl

theorem trackAll_steps (h : t.play μ ms = some ν) (s : LocalState) :
    (t.trackAll p s ms).steps = s.steps + ms.length := by
  induction ms generalizing μ s with
  | nil => rfl
  | cons m ms ih =>
    obtain ⟨μ', hm, hms⟩ := Option.bind_eq_some_iff.1 h
    have hs := ih hms (t.track p s m)
    rw [track_steps hm] at hs
    rw [List.length_cons, Nat.add_comm ms.length, ← Nat.add_assoc]
    exact hs

theorem occurs_position {o : Occurrence} (h : o ∈ t.occurs s m) :
    o.event.owner = .thread t.id ∧ o.event.index = s.accesses := by
  obtain ⟨e, he, rfl⟩ := List.mem_map.1 h
  obtain ⟨d, x, -, -, rfl⟩ := Composition.mem_emit he
  exact ⟨rfl, rfl⟩

theorem occurrences_position {o : Occurrence} (h : o ∈ t.occurrences p s ms) :
    o.event.owner = .thread t.id ∧ s.accesses ≤ o.event.index := by
  induction ms generalizing s with
  | nil => exact absurd h (by simp [occurrences])
  | cons m ms ih =>
    rcases List.mem_append.1 h with h | h
    · obtain ⟨howner, hindex⟩ := occurs_position h
      exact ⟨howner, Nat.le_of_eq hindex.symm⟩
    · obtain ⟨howner, hindex⟩ := ih h
      rw [track_accesses] at hindex
      exact ⟨howner, Nat.le_trans (Nat.le_add_right _ _) hindex⟩

theorem occurs_length_le (t : Thread) (s : LocalState) (m : Move) : (t.occurs s m).length ≤ 1 := by
  rw [occurs, List.length_map, emit]
  cases t.access s m.edge <;> simp

theorem occurrences_increasing (t : Thread) (p : Precision) (s : LocalState) (ms : List Move) :
    (t.occurrences p s ms).Pairwise fun a b => a.event.index < b.event.index := by
  induction ms generalizing s with
  | nil => exact .nil
  | cons m ms ih =>
    refine List.pairwise_append.2 ⟨?_, ih _, fun a ha b hb => ?_⟩
    · have hlength := occurs_length_le t s m
      generalize t.occurs s m = os at hlength ⊢
      rcases os with _ | ⟨a, _ | ⟨b, rest⟩⟩
      · exact .nil
      · exact List.pairwise_singleton _ a
      · exact absurd hlength (by simp)
    · have hindex := (occurrences_position hb).2
      rw [track_accesses] at hindex
      have hpos := List.length_pos_of_mem ha
      rw [(occurs_position ha).2]
      omega

theorem play_take (h : t.play μ ms = some ν) {k : Nat} {m : Move} (hm : ms[k]? = some m) :
    ∃ μ₁ μ₂, t.play μ (ms.take k) = some μ₁ ∧ t.move μ₁ m = some μ₂ ∧
      t.play μ (ms.take (k + 1)) = some μ₂ := by
  have hnext : ms.take (k + 1) = ms.take k ++ [m] := by
    rw [List.take_add_one, hm]
    rfl
  have hall : t.play μ (ms.take (k + 1) ++ ms.drop (k + 1)) = some ν := by
    rwa [List.take_append_drop]
  rw [play_append] at hall
  obtain ⟨μ₂, hμ₂, -⟩ := Option.bind_eq_some_iff.1 hall
  have hboth := hμ₂
  rw [hnext, play_append] at hμ₂
  obtain ⟨μ₁, hμ₁, hlast⟩ := Option.bind_eq_some_iff.1 hμ₂
  obtain ⟨μ₃, hmove, hdone⟩ := Option.bind_eq_some_iff.1 hlast
  obtain rfl := Option.some.inj hdone
  exact ⟨μ₁, μ₃, hμ₁, hmove, hboth⟩

theorem trackAll_take {k : Nat} (hm : ms[k]? = some m) :
    t.trackAll p s (ms.take (k + 1)) = t.track p (t.trackAll p s (ms.take k)) m := by
  rw [List.take_add_one, hm, Option.toList_some, trackAll_append]
  rfl

theorem occurrences_take {k : Nat} (hm : ms[k]? = some m) :
    t.occurrences p s (ms.take (k + 1)) =
      t.occurrences p s (ms.take k) ++ t.occurs (t.trackAll p s (ms.take k)) m := by
  rw [List.take_add_one, hm, Option.toList_some, occurrences_append, occurrences, occurrences,
    List.append_nil]

end Thread
end Consistency
