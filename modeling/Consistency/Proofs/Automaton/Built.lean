import Consistency.Automaton
import Consistency.Proofs.Ordered.Set

/-!
# Arenas that calls build

Whatever calls an arena comes from, those that fail among them, its lists agree
with its edges, and the locations that it speaks of exist. A call fails only for
a location that does not exist, and changes nothing then.
-/

set_option autoImplicit false

namespace Consistency.Arena
variable {a b : Arena} {source target location : Nat} {label : Label}

inductive Call where
  | addLocation
  | addEdge (source target : Nat) (label : Label)
  | setInitial (location : Nat)
  | markFinal (location : Nat)
  deriving DecidableEq, Repr

namespace Call

def perform : Call → Building Unit
  | .addLocation => do let _ ← Arena.addLocation
  | .addEdge source target label => do let _ ← Arena.addEdge source target label
  | .setInitial location => Arena.setInitial location
  | .markFinal location => Arena.markFinal location

def needs : Call → List Nat
  | .addLocation => []
  | .addEdge source target _ => [source, target]
  | .setInitial location | .markFinal location => [location]

def effect : Call → Arena → Arena
  | .addLocation, a => a.enlarge
  | .addEdge source target label, a => a.connect source target label
  | .setInitial location, a => { a with initial := location }
  | .markFinal location, a => { a with finals := a.finals.insert location }

/-- All that a call can do. -/
theorem run_perform (c : Call) (a : Arena) :
    (∀ l ∈ c.needs, l < a.locations) ∧ c.perform.run a = .ok () (c.effect a) ∨
      ∃ l ∈ c.needs, a.locations ≤ l ∧ c.perform.run a = .error ⟨a.name, l⟩ a := by
  have hone : ∀ (l : Nat) (change : Building Unit),
      l < a.locations ∧ (check l >>= fun _ => change).run a = change.run a ∨
        a.locations ≤ l ∧ (check l >>= fun _ => change).run a = .error ⟨a.name, l⟩ a := by
    intro l change
    rw [run_check_bind]
    by_cases hl : l < a.locations
    · exact .inl ⟨hl, if_pos hl⟩
    · exact .inr ⟨Nat.le_of_not_lt hl, if_neg hl⟩
  cases c with
  | addLocation => exact .inl ⟨fun _ h => absurd h List.not_mem_nil, rfl⟩
  | addEdge source target label =>
    rw [perform, Arena.addEdge]
    simp only [bind_assoc]
    obtain ⟨hs, hrun⟩ | ⟨hs, hrun⟩ := hone source _
    · rw [hrun]
      obtain ⟨ht, hrun⟩ | ⟨ht, hrun⟩ := hone target _
      · rw [hrun]
        exact .inl ⟨by simp [needs, hs, ht], rfl⟩
      · exact .inr ⟨target, by simp [needs], ht, hrun⟩
    · exact .inr ⟨source, by simp [needs], hs, hrun⟩
  | setInitial location | markFinal location =>
    obtain ⟨hl, hrun⟩ | ⟨hl, hrun⟩ := hone location _
    · exact .inl ⟨by simp [needs, hl], hrun.trans rfl⟩
    · exact .inr ⟨location, by simp [needs], hl, hrun⟩

/-- A call fails only for a location that does not exist, and changes nothing then. -/
theorem unchanged {c : Call} {e : UnknownLocation} (h : c.perform.run a = .error e b) :
    b = a ∧ e.automaton = a.name ∧ e.location ∈ c.needs ∧ a.locations ≤ e.location := by
  obtain ⟨-, hrun⟩ | ⟨l, hl, hle, hrun⟩ := c.run_perform a
  · rw [hrun] at h
    exact absurd h (by simp)
  · rw [hrun] at h
    cases h
    exact ⟨rfl, rfl, hl, hle⟩

/-- What holds of an arena holds behind a call if its effect keeps it. -/
theorem after_keeps {P : Arena → Prop} (c : Call) (h : P a)
    (keep : (∀ l ∈ c.needs, l < a.locations) → P (c.effect a)) : P (c.perform.after a) := by
  unfold Building.after
  obtain ⟨hneeds, hrun⟩ | ⟨l, -, -, hrun⟩ := c.run_perform a
  · rw [hrun]
    exact keep hneeds
  · rw [hrun]
    exact h

end Call

/-- The arenas that calls lead to, be it that they fail. -/
inductive Built : Arena → Prop where
  | single (name : String) : Built (.single name)
  | straightLine (name : String) (labels : List Label) : Built (.straightLine name labels)
  | call {a : Arena} (c : Call) : Built a → Built (c.perform.after a)

def after (calls : List Call) (a : Arena) : Arena := calls.foldl (fun a c => c.perform.after a) a

theorem Built.calls (h : a.Built) (calls : List Call) : (after calls a).Built := by
  induction calls generalizing a with
  | nil => exact h
  | cons c calls ih => exact ih (h.call c)

theorem mem_edgesFrom {edges : List Edge} {id : Nat} :
    id ∈ edgesFrom edges location ↔ ∃ e, edges[id]? = some e ∧ e.source = location := by
  simp only [edgesFrom, List.mem_map, List.mem_filter, Prod.exists, beq_iff_eq, exists_eq_right,
    List.mem_zipIdx_iff_getElem?]

theorem edgesFrom_sublist (edges : List Edge) (location : Nat) :
    (edgesFrom edges location).Sublist (List.range edges.length) := by
  have hall : edges.zipIdx.map Prod.snd = List.range edges.length := by
    rw [List.zipIdx_map_snd, List.range_eq_range']
  rw [← hall]
  exact List.filter_sublist.map Prod.snd

namespace Indexed

theorem mem_outgoing (h : a.Indexed) {id : Nat} :
    id ∈ a.outgoing location ↔ ∃ e, a.edge? id = some e ∧ e.source = location := by
  rw [h location]
  exact mem_edgesFrom

theorem outgoing_increasing (h : a.Indexed) (location : Nat) :
    (a.outgoing location).Pairwise (· < ·) := by
  rw [h location]
  exact List.pairwise_lt_range.sublist (edgesFrom_sublist a.edges location)

end Indexed

theorem Call.keeps_indexed (h : a.Indexed) (c : Call) : (c.perform.after a).Indexed := by
  refine c.after_keeps h fun hneeds => ?_
  cases c with
  | addLocation => exact h.enlarge
  | addEdge source target label => exact h.connect (hneeds source (by simp [needs])) target label
  | setInitial location | markFinal location => exact h

theorem Built.indexed (h : a.Built) : a.Indexed := by
  induction h with
  | single name => exact single_indexed name
  | straightLine name labels => exact straightLine_indexed name labels
  | call c _ ih => exact c.keeps_indexed ih

structure Closed (a : Arena) : Prop where
  source : ∀ e ∈ a.edges, e.source < a.locations
  target : ∀ e ∈ a.edges, e.target < a.locations
  initial : a.initial < a.locations
  finals : ∀ l ∈ a.finals.toList, l < a.locations

theorem single_closed (name : String) : (single name).Closed where
  source := fun _ he => absurd he List.not_mem_nil
  target := fun _ he => absurd he List.not_mem_nil
  initial := Nat.zero_lt_one
  finals := fun _ hl => absurd hl List.not_mem_nil

namespace Closed

theorem enlarge (h : a.Closed) : a.enlarge.Closed := by
  have hlt : ∀ {l}, l < a.locations → l < a.enlarge.locations := by
    intro l hl
    rw [locations_enlarge]
    exact Nat.lt_succ_of_lt hl
  exact ⟨fun e he => hlt (h.source e he), fun e he => hlt (h.target e he), hlt h.initial,
    fun l hl => hlt (h.finals l hl)⟩

theorem connect (h : a.Closed) (hs : source < a.locations) (ht : target < a.locations)
    (label : Label) : (a.connect source target label).Closed := by
  have hsame := locations_connect a source target label
  refine ⟨fun e he => ?_, fun e he => ?_, ?_, ?_⟩ <;> rw [hsame]
  · rcases List.mem_append.1 he with he | he
    · exact h.source e he
    · rw [List.mem_singleton.1 he]
      exact hs
  · rcases List.mem_append.1 he with he | he
    · exact h.target e he
    · rw [List.mem_singleton.1 he]
      exact ht
  · exact h.initial
  · exact h.finals

theorem markFinal (h : a.Closed) (hl : location < a.locations) :
    Closed { a with finals := a.finals.insert location } where
  source := h.source
  target := h.target
  initial := h.initial
  finals := by
    intro l hmem
    rcases OrderedSet.mem_insert.1 hmem with rfl | hmem
    · exact hl
    · exact h.finals l hmem

theorem chain (h : a.Closed) (hs : source < a.locations) (labels : List Label) :
    (a.chain source labels).Closed := by
  induction labels generalizing a source with
  | nil => exact h.markFinal hs
  | cons label labels ih =>
    rw [Arena.chain, prolong_eq]
    have hsize := locations_enlarge a
    refine ih (h.enlarge.connect (by omega) (by omega) label) ?_
    rw [locations_connect, hsize]
    exact Nat.lt_succ_self _

end Closed

theorem Call.keeps_closed (h : a.Closed) (c : Call) : (c.perform.after a).Closed := by
  refine c.after_keeps h fun hneeds => ?_
  cases c with
  | addLocation => exact h.enlarge
  | addEdge source target label =>
    exact h.connect (hneeds source (by simp [needs])) (hneeds target (by simp [needs])) label
  | setInitial location =>
    exact ⟨h.source, h.target, hneeds location (by simp [needs]), h.finals⟩
  | markFinal location => exact h.markFinal (hneeds location (by simp [needs]))

theorem Built.closed (h : a.Built) : a.Closed := by
  induction h with
  | single name => exact single_closed name
  | straightLine name labels => exact (single_closed name).chain Nat.zero_lt_one labels
  | call c _ ih => exact c.keeps_closed ih

structure Sound (a : Arena) : Prop extends a.Closed where
  listed : ∀ l id, id ∈ a.outgoing l ↔ ∃ e, a.edge? id = some e ∧ e.source = l
  increasing : ∀ l, (a.outgoing l).Pairwise (· < ·)

theorem Built.sound (h : a.Built) : a.Sound where
  toClosed := h.closed
  listed := fun _ _ => h.indexed.mem_outgoing
  increasing := h.indexed.outgoing_increasing

end Consistency.Arena
