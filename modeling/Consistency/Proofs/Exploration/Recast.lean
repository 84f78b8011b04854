import Consistency.Proofs.Exploration.Lossless
import Consistency.Proofs.Exploration.Product
import Consistency.Proofs.Graph.Recast

/-!
# Explorations under another precision

For each end of a program there is one under every other precision with the same
bound, whose threads pick the same. An exploration under the other precision
comes to a state that this end lies under.
-/

set_option autoImplicit false

namespace Consistency
open Bounded (InRange)

namespace Composition
variable {c : Composition} {p q : Precision} {s u : GlobalState} {v w : Valuation}

def WellFormed (c : Composition) : Prop := ∀ t ∈ c.threads, t.automaton.WellFormed

theorem WellFormed.automaton (h : c.WellFormed) (i : Fin c.threads.length) :
    (c.threads.get i).automaton.WellFormed := h _ (List.get_mem ..)

theorem mem_joinEvents {f : Fin c.threads.length → Solo} {e : EventShape} :
    e ∈ c.joinEvents f ↔ e ∈ (c.initialEvents 0).map Event.shape ∨ ∃ i, e ∈ (f i).events := by
  simp [joinEvents]

theorem initial_value {e : EventShape} (h : e ∈ (c.initialEvents 0).map Event.shape) :
    ∃ n : Int, e.value = some (.int n) := by
  obtain ⟨d, hd, rfl⟩ := List.mem_map.1 h
  obtain ⟨x, n, k, -, rfl⟩ := mem_initialEvents hd
  exact ⟨n, rfl⟩

theorem shapes_eq_joinEvents (hn : c.Numbered) (h : c.Reachable p s) :
    (EventGraph.ofState c s).shapes = c.joinEvents (c.solos s) :=
  congrArg GraphShape.events (shape_eq_joinShape hn h)

theorem registerTerm_solos (hn : c.Numbered) (h : c.Reachable p s) (i : Nat) (reg : String) :
    (EventGraph.ofState c s).registerTerm i reg =
      (List.finRange c.threads.length)[i]?.map fun j => (c.solos s j).state.register reg := by
  have hregisters : (EventGraph.ofState c s).registers =
      (List.finRange c.threads.length).map fun j => (c.solos s j).state.valuation :=
    congrArg GraphShape.registers (shape_eq_joinShape hn h)
  rw [EventGraph.registerTerm, hregisters, List.getElem?_map, Option.map_map]
  rfl

theorem mem_constraints_solos (hn : c.Numbered) (h : c.Reachable p s) {t : Term} :
    t ∈ (EventGraph.ofState c s).constraints ↔
      ∃ i, t ∈ (c.solos s i).state.constraints.toList := by
  have hconstraints : (EventGraph.ofState c s).constraints =
      (OrderedSet.ofList ((List.finRange c.threads.length).flatMap fun i =>
        (c.solos s i).state.constraints.toList)).toList :=
    congrArg GraphShape.constraints (shape_eq_joinShape hn h)
  rw [hconstraints, OrderedSet.mem_ofList]
  simp

end Composition

namespace EventGraph
open Consistency.Composition
variable {c : Composition} {p q : Precision} {s u : GlobalState} {v w : Valuation}
  {g k : EventGraph}

theorem exists_register {i : Nat} {reg : String} {t : Term} (hn : c.Numbered)
    (h : c.Reachable p s) (ht : (ofState c s).registerTerm i reg = some t) :
    ∃ j, t = (c.solos s j).state.register reg := by
  rw [registerTerm_solos hn h] at ht
  obtain ⟨j, -, rfl⟩ := Option.map_eq_some_iff.1 ht
  exact ⟨j, rfl⟩

theorem wellFormed_ofState (hn : c.Numbered) (hc : c.WellFormed) (h : c.Reachable p s) :
    (ofState c s).WellFormed := by
  have hsolo : ∀ i, (c.solos s i).WellFormed := fun i =>
    (solos_mem hn h i trivial).wellFormed (hc.automaton i)
  have hmono : ∀ {t : Term}, t.WellFormed InRange → t.WellFormed fun _ => True := fun ht =>
    Term.WellFormed.mono (fun _ _ => trivial) _ ht
  refine ⟨fun e he t ht => ?_, fun i reg t ht => ?_, fun t ht => ?_⟩
  · rw [shapes_eq_joinEvents hn h, mem_joinEvents] at he
    rcases he with he | ⟨i, he⟩
    · obtain ⟨n, hvalue⟩ := initial_value he
      obtain rfl := Option.some.inj (hvalue.symm.trans ht)
      trivial
    · exact hmono ((hsolo i).stored e he t ht)
  · obtain ⟨j, rfl⟩ := exists_register hn h ht
    exact hmono ((hsolo j).registers reg)
  · obtain ⟨i, ht⟩ := (mem_constraints_solos hn h).1 ht
    exact hmono ((hsolo i).constraints t ht)

theorem recast_ofState (hn : c.Numbered) (hs : c.Reachable p s) (hu : c.Reachable q u)
    (h : ∀ i, (c.solos s i).Alike v w (c.solos u i))
    (hreads : ∀ i n, w (readSymbol i n) = v (readSymbol i n)) :
    Recast v w (ofState c s) (ofState c u) where
  events := by
    rw [shapes_eq_joinEvents hn hs, shapes_eq_joinEvents hn hu, joinEvents, joinEvents,
      List.map_append, List.map_append, List.map_flatMap, List.map_flatMap]
    exact congrArg _ (List.flatMap_congr fun i _ => (h i).events)
  registers := by
    intro i reg
    rw [registerTerm_solos hn hs, registerTerm_solos hn hu, Option.map_map, Option.map_map]
    exact Option.map_congr fun j _ => (h j).registers reg
  reads := hreads
  stored := by
    intro e he t ht
    rw [shapes_eq_joinEvents hn hs, mem_joinEvents] at he
    rcases he with he | ⟨i, he⟩
    · obtain ⟨n, hvalue⟩ := initial_value he
      obtain rfl := Option.some.inj (hvalue.symm.trans ht)
      exact Term.keeps_int v w n
    · exact (h i).stored e he t ht
  kept := by
    intro i reg t ht
    obtain ⟨j, rfl⟩ := exists_register hn hs ht
    exact (h j).keeps reg
  feasible := by
    intro t ht
    obtain ⟨i, ht⟩ := (mem_constraints_solos hn hu).1 ht
    exact (h i).feasible t ht

theorem Recast.relaxes {k' : EventGraph} (h : Recast v w g k) (hk : k'.shape.Relaxes k.shape) :
    Recast v w g k' where
  events := h.events.trans (congrArg _ hk.events.symm)
  registers := by
    intro i reg
    have hregisters : k'.registers = k.registers := hk.registers
    rw [h.registers, registerTerm, registerTerm, hregisters]
  reads := h.reads
  stored := h.stored
  kept := h.kept
  feasible := fun t ht => h.feasible t (hk.constraints ht)

end EventGraph

namespace Composition
variable {c : Composition} {p q : Precision} {s u : GlobalState} {v : Valuation}

/-- The threads pick the same under the other precision, each on its own. -/
theorem exists_recast (hn : c.Numbered) (hc : c.WellFormed) (hbound : p.stepBound = q.stepBound)
    (hs : c.Reachable p s) (hproper : Exploration.proper c s = true)
    (hv : ∀ t ∈ (EventGraph.ofState c s).constraints, t.Decides v.environment true) :
    ∃ w u, c.Reachable q u ∧ Exploration.proper c u = true ∧
      EventGraph.Recast v w (.ofState c s) (.ofState c u) := by
  have halone := solos_mem hn hs
  choose picked hrange halike using fun i : Fin c.threads.length =>
    Thread.exists_alike hbound (hc.automaton i) (halone i trivial) (v := v) fun t ht =>
      hv t ((mem_constraints_solos hn hs).2 ⟨i, ht⟩)
  obtain ⟨w, hpicked, hreads⟩ := exists_valuation
    (fun j => if h : j.1 < c.threads.length then picked ⟨j.1, h⟩ j.2 else 0)
    fun j => v (readSymbol j.1 j.2)
  have hw : w.Bounded := by
    intro t k
    rw [hpicked]
    split
    · exact hrange _ k
    · exact (by decide : InRange 0)
  have hpick : ∀ (i : Fin c.threads.length) k,
      w (Thread.choiceSymbol c.threads[i].id k) = picked i k := by
    intro i k
    rw [hn i _ (c.getElem?_fin i), hpicked, dif_pos i.isLt]
  choose f hf hfs using fun i => halike i w hw (fun k => hreads _ k) fun k _ => hpick i k
  obtain ⟨u, hu, rfl⟩ := exists_solos (p := q) hn (f := f) fun i _ => hf i
  refine ⟨w, u, hu, (proper_iff hn hu).2 fun i _ => ⟨hf i, ?_⟩,
    EventGraph.recast_ofState hn hs hu hfs hreads⟩
  obtain ⟨-, hfinal, hterm⟩ := (proper_iff hn hs).1 hproper i trivial
  have hlocation := (hfs i).location
  rw [hlocation] at hfinal
  rw [Thread.isTerminated, hlocation] at hterm
  exact ⟨hfinal, hterm⟩

end Composition

namespace Exploration
open Consistency.Composition
variable {c : Composition} {p : Precision} {s : GlobalState} {Q : TerminalGraph → Prop}
  {K : GlobalState → Prop}

/-- By induction on the steps to the state. -/
theorem exists_above (hn : c.Numbered) (hstart : K (c.init 0).1)
    (hK : ∀ s, K s → Explored c p Q K s) (hs : c.Reachable p s) : ∃ u, K u ∧ s.Under u := by
  induction hs with
  | init number => exact ⟨_, hstart, GlobalState.under_of_key (init_key c number 0)⟩
  | @step s t a number hs ht ih =>
    obtain ⟨u, hu, hsu⟩ := ih
    have htidy := tidy_of_reachable hn hs
    have hutidy := tidy_of_reachable hn (hK u hu).reachable
    -- What lies above can take the action as well, so that it was explored.
    obtain ⟨t', ht', -⟩ := hsu.exists_trans htidy hutidy ht number
    obtain ⟨hlive, ha⟩ := mem_enabled_of_trans hutidy ht'
    obtain ⟨number', hnumber'⟩ := (hK u hu).successors hlive a ha
    obtain ⟨t'', ht'', htt''⟩ := hsu.exists_trans htidy hutidy ht number'
    obtain ⟨d, hd, htd⟩ := hnumber' t'' ht''
    exact ⟨d, hd, htt''.trans htd⟩

/-- Every proper end lies under one that was asked about. -/
theorem exists_asked (hn : c.Numbered) (hstart : K (c.init 0).1)
    (hK : ∀ s, K s → Explored c p Q K s) (hs : c.Reachable p s) (hproper : proper c s = true) :
    ∃ u, c.Reachable p u ∧ (∃ index, Q ⟨index, .ofState c u⟩) ∧
      (EventGraph.ofState c u).shape.Relaxes (EventGraph.ofState c s).shape := by
  obtain ⟨u, hu, hsu⟩ := exists_above hn hstart hK hs
  have hreach := (hK u hu).reachable
  have hends := hsu.proper (tidy_of_reachable hn hs) (tidy_of_reachable hn hreach)
  rw [hproper, proper, eq_comm, Bool.and_eq_true] at hends
  exact ⟨u, hreach, (hK u hu).asked hends.1 hends.2, hsu.relaxes hn hs hreach⟩

end Exploration
end Consistency
