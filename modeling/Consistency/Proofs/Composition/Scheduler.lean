import Mathlib
import Consistency.Proofs.Composition.Key

/-!
# Enabled actions

An exploration tries the actions that the lists of the automata enable, whereas a
step looks at the edges. In reachable states no step is missed for that.
-/

set_option autoImplicit false

namespace Consistency.Composition
variable {c : Composition} {p : Precision} {s : GlobalState}

/-- The enabled actions are the edges that leave the places of the threads, each once. All that
have a successor are among them, and there are none if and only if the state is terminal. -/
structure Scheduled (c : Composition) (p : Precision) (s : GlobalState) : Prop where
  listed : ∀ a, a ∈ c.enabled s ↔ ∃ t l e, c.threads[a.thread]? = some t ∧
    s.locals[a.thread]? = some l ∧ t.automaton.edge? a.edge = some e ∧ e.source = l.location
  taken : ∀ a number, (c.trans p s a number).1 ≠ [] → a ∈ c.enabled s
  once : (c.enabled s).Nodup
  stopped : c.enabled s = [] ↔ s.isTerminal = true

theorem mem_enabled_edge (hs : c.Tidy s) {a : Action} :
    a ∈ c.enabled s ↔ ∃ t l e, c.threads[a.thread]? = some t ∧ s.locals[a.thread]? = some l ∧
      t.automaton.edge? a.edge = some e ∧ e.source = l.location := by
  constructor
  · intro ha
    obtain ⟨⟨⟨t, l⟩, i⟩, hz, ha⟩ := List.mem_flatMap.1 ha
    obtain ⟨ht, hl⟩ := List.getElem?_zip_eq_some.1 (List.mem_zipIdx_iff_getElem?.1 hz)
    dsimp only at ha
    split at ha
    · exact absurd ha List.not_mem_nil
    · obtain ⟨edge, hedge, rfl⟩ := List.mem_map.1 ha
      obtain ⟨e, he, hsource⟩ := Automaton.mem_outgoing.1 hedge
      exact ⟨t, l, e, ht, hl, he, hsource⟩
  · rintro ⟨t, l, e, ht, hl, he, hsource⟩
    exact hs.mem_enabled ht hl (Automaton.mem_outgoing.2 ⟨e, he, hsource⟩)

theorem enabled_nodup (c : Composition) (s : GlobalState) : (c.enabled s).Nodup := by
  have hplaces : (c.threads.zip s.locals).zipIdx.Pairwise fun x y => x.2 ≠ y.2 := by
    have hrange : ((c.threads.zip s.locals).zipIdx.map Prod.snd).Nodup := by
      rw [List.zipIdx_map_snd]
      exact List.nodup_range'
    exact List.pairwise_map.1 hrange
  refine List.nodup_flatMap.2 ⟨?_, hplaces.imp fun {x y} hne => ?_⟩
  · rintro ⟨⟨t, l⟩, i⟩ -
    dsimp only
    split
    · exact List.nodup_nil
    · have hout : (t.enabled l).Nodup :=
        (t.automaton.indexed.outgoing_increasing l.location).imp Nat.ne_of_lt
      exact hout.map fun _ _ h => congrArg Action.edge h
  · -- the actions of a thread carry its number
    have hthread : ∀ {x : (Thread × LocalState) × Nat} {a : Action},
        a ∈ (if s.terminated.contains x.2 = true then []
          else (x.1.1.enabled x.1.2).map fun e => (⟨x.2, e⟩ : Action)) → a.thread = x.2 := by
      intro x a ha
      split at ha
      · exact absurd ha List.not_mem_nil
      · obtain ⟨e, -, rfl⟩ := List.mem_map.1 ha
        rfl
    exact fun a hx hy => hne ((hthread hx).symm.trans (hthread hy))

theorem enabled_eq_nil_iff (hs : c.Tidy s) : c.enabled s = [] ↔ s.isTerminal = true := by
  rw [hs.isTerminal_iff, List.eq_nil_iff_forall_not_mem]
  constructor
  · intro hnone i t l ht hl
    refine Automaton.isTerminal_iff.2 fun edge hedge => ?_
    exact hnone _ (hs.mem_enabled ht hl hedge)
  · intro hterminal a ha
    obtain ⟨t, l, e, ht, hl, he, hsource⟩ := (mem_enabled_edge hs).1 ha
    have hterm := hterminal a.thread t l ht hl
    exact Automaton.isTerminal_iff.1 hterm a.edge (Automaton.mem_outgoing.2 ⟨e, he, hsource⟩)

theorem scheduled_of_reachable (hn : c.Numbered) (h : c.Reachable p s) : c.Scheduled p s := by
  have hs := tidy_of_reachable hn h
  refine ⟨fun a => mem_enabled_edge hs, fun a number hne => ?_, enabled_nodup c s,
    enabled_eq_nil_iff hs⟩
  obtain ⟨t, ht⟩ := List.exists_mem_of_ne_nil _ hne
  exact (mem_enabled_of_trans hs ht).2

/-- Arenas that calls build are fit for automata, and calls that fail leave them as they are. In
what is composed of automata no step is lost. -/
theorem built_scheduled {a : Arena} (ha : a.Built) : a.Sound ∧
    (∀ (call : Arena.Call) (e : UnknownLocation) (b : Arena),
      call.perform.run a = .error e b → b = a) ∧
    ∃ m : Automaton, m.toArena = a ∧
      ∀ (automata : List Automaton) (initial : List (String × Int)) (p : Precision)
        (s : GlobalState), m ∈ automata → (ofAutomata automata initial).Reachable p s →
          (ofAutomata automata initial).Scheduled p s := by
  refine ⟨ha.sound, fun call e b h => (Arena.Call.unchanged h).1, ⟨a, ha.indexed⟩, rfl, ?_⟩
  intro automata initial p s _ hs
  exact scheduled_of_reachable (ofAutomata_numbered automata initial) hs

def fork : Arena :=
  Arena.after [.addLocation, .addEdge 0 1 (.load "r" "x"), .addEdge 0 2 .skip, .addEdge 0 1 .skip,
    .markFinal 2, .markFinal 1] (.single "P")

theorem fork_built : fork.Built := (Arena.Built.single "P").calls _

/-- Where one of two threads has loaded, it is the other one that is scheduled. -/
theorem built_scheduled_fork : fork.Sound ∧ fork.outgoing 0 = [0, 1] ∧
    ∃ m : Automaton, m.toArena = fork ∧
      ∃ s, (ofAutomata [m, m] []).Reachable .default s ∧
        (ofAutomata [m, m] []).Scheduled .default s ∧
          (ofAutomata [m, m] []).enabled s = [⟨1, 0⟩, ⟨1, 1⟩] := by
  obtain ⟨hsound, -, m, hm, hscheduled⟩ := built_scheduled fork_built
  obtain rfl : m = ⟨fork, fork_built.indexed⟩ := by
    cases m
    cases hm
    rfl
  refine ⟨hsound, by decide, ⟨fork, fork_built.indexed⟩, rfl, ?_⟩
  let c := ofAutomata [⟨fork, fork_built.indexed⟩, ⟨fork, fork_built.indexed⟩] []
  have hs : c.Reachable .default ((c.trans .default (c.init 0).1 ⟨0, 0⟩ 1).1.headD default) := by
    refine .step ⟨0, 0⟩ 1 (.init 0) ?_
    cbv
    exact List.mem_singleton_self _
  exact ⟨_, hs, hscheduled _ [] .default _ List.mem_cons_self hs, by cbv⟩

end Consistency.Composition
