import Mathlib.Data.List.Forall2
import Mathlib.Data.List.Permutation
import Mathlib.Logic.Relation
import Consistency.Proofs.Query.Shape

/-!
# Interchangeable states

An exploration keeps one state for each key, whichever was met first. No matter
which one it is: states with equal keys offer the same actions, end alike, pose
the same queries, and step to states with equal keys again.
-/

set_option autoImplicit false

namespace Consistency.Composition
open Exploration
variable {c : Composition} {p : Precision} {s t u : GlobalState}

structure Interchangeable (c : Composition) (p : Precision) (s u : GlobalState) : Prop where
  enabled : c.enabled s = c.enabled u
  successors : ∀ (a : Action) (number number' : Nat),
    List.Forall₂ (fun t v => t.key = v.key) (c.trans p s a number).1 (c.trans p u a number').1
  terminal : s.isTerminal = u.isTerminal
  final : endsInFinal c s = endsInFinal c u
  query : ∀ (m : MemoryModel) (o : Outcome),
    Query.encode (.ofState c s) m o = Query.encode (.ofState c u) m o

theorem forall₂_trans_of_key (h : s.key = u.key) (a : Action) (number number' : Nat) :
    List.Forall₂ (fun t v => t.key = v.key) (c.trans p s a number).1
      (c.trans p u a number').1 := by
  have hkeys := trans_key (c := c) (p := p) h a number number'
  rwa [← List.forall₂_eq_eq_eq, List.forall₂_map_left_iff, List.forall₂_map_right_iff] at hkeys

theorem interchangeable (hn : c.Numbered) (hu : c.Reachable p u) (h : s.key = u.key) :
    Interchangeable c p s u where
  enabled := enabled_of_key h
  successors := forall₂_trans_of_key h
  terminal := GlobalState.isTerminal_of_key h
  final := endsInFinal_of_key h
  query := Query.encode_eq (EventGraph.shape_of_key hn hu h)

def Moves (c : Composition) (p : Precision) (s t : GlobalState) : Prop :=
  ∃ a number, t ∈ (c.trans p s a number).1

def Leads (c : Composition) (p : Precision) : GlobalState → GlobalState → Prop :=
  Relation.ReflTransGen (Moves c p)

theorem Moves.of_key {v : GlobalState} (h : Moves c p s t) (hkey : s.key = v.key) :
    ∃ w, Moves c p v w ∧ t.key = w.key := by
  obtain ⟨a, number, ht⟩ := h
  obtain ⟨w, hw, hkey⟩ := exists_trans_of_key hkey.symm ht number
  exact ⟨w, ⟨a, number, hw⟩, hkey.symm⟩

theorem Leads.reachable (h : Leads c p s t) (hs : c.Reachable p s) : c.Reachable p t := by
  induction h with
  | refl => exact hs
  | tail _ hmove ih =>
    obtain ⟨a, number, ht⟩ := hmove
    exact ih.step a number ht

/-- Two states with equal keys can be led to equal keys, by induction on the run of one. -/
theorem Leads.of_key (h : Leads c p s t) (hkey : s.key = u.key) :
    ∃ v, Leads c p u v ∧ t.key = v.key := by
  induction h with
  | refl => exact ⟨u, .refl, hkey⟩
  | tail _ hmove ih =>
    obtain ⟨v, hv, hkey⟩ := ih
    obtain ⟨w, hw, hkey⟩ := hmove.of_key hkey
    exact ⟨w, hv.tail hw, hkey⟩

/-- Whatever is asked of a state, or of any state after it, has the same answer for a state that
can be reached and has the same key. -/
theorem interchangeable_of_key (automata : List Automaton) (initial : List (String × Int))
    (p : Precision) (s u : GlobalState) (hu : (ofAutomata automata initial).Reachable p u)
    (h : s.key = u.key) :
    Interchangeable (ofAutomata automata initial) p s u ∧
      ∀ t, Leads (ofAutomata automata initial) p s t →
        ∃ v, Leads (ofAutomata automata initial) p u v ∧ t.key = v.key ∧
          Interchangeable (ofAutomata automata initial) p t v := by
  have hn := ofAutomata_numbered automata initial
  refine ⟨interchangeable hn hu h, fun t ht => ?_⟩
  obtain ⟨v, hv, hkey⟩ := ht.of_key h
  exact ⟨v, hv, hkey, interchangeable hn (hv.reachable hu) hkey⟩

def writers : List Automaton :=
  [.straightLine "P" [.store "x" (.int 1)], .straightLine "Q" [.store "y" (.int 2)]]

def turn (s : GlobalState) (thread number : Nat) : GlobalState :=
  ((ofAutomata writers []).trans .default s ⟨thread, 0⟩ number).1.headD default

def afterTurns (first second number : Nat) : GlobalState :=
  turn (turn ((ofAutomata writers []).init number).1 first (number + 2)) second (number + 3)

theorem afterTurns_reachable : (ofAutomata writers []).Reachable .default (afterTurns 1 0 7) := by
  have hfirst : ((ofAutomata writers []).trans .default ((ofAutomata writers []).init 7).1
      ⟨1, 0⟩ 9).1 = [turn ((ofAutomata writers []).init 7).1 1 9] := by cbv
  have hsecond : ((ofAutomata writers []).trans .default
      (turn ((ofAutomata writers []).init 7).1 1 9) ⟨0, 0⟩ 10).1 = [afterTurns 1 0 7] := by cbv
  exact .step ⟨0, 0⟩ 10 (.step ⟨1, 0⟩ 9 (.init 7) (hfirst ▸ List.mem_singleton_self _))
    (hsecond ▸ List.mem_singleton_self _)

theorem afterTurns_key : (afterTurns 0 1 0).key = (afterTurns 1 0 7).key := by
  exact GlobalState.key_eq_iff.2 ⟨by cbv, List.isPerm_iff.1 (by cbv), by cbv⟩

theorem interchangeable_of_key_writers : afterTurns 0 1 0 ≠ afterTurns 1 0 7 ∧
    Interchangeable (ofAutomata writers []) .default (afterTurns 0 1 0) (afterTurns 1 0 7) := by
  refine ⟨fun h => ?_, ?_⟩
  · have hids : (afterTurns 0 1 0).emitted.map Event.id = [3, 2, 1, 0] := by cbv
    have hids' : (afterTurns 1 0 7).emitted.map Event.id = [10, 9, 8, 7] := by cbv
    rw [h, hids'] at hids
    exact absurd hids (by decide)
  · exact (interchangeable_of_key writers [] .default _ _ afterTurns_reachable
      afterTurns_key).1

end Consistency.Composition
