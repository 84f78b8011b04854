import Consistency.Proofs.MemoryModel.Standard

/-!
# Coherence as sequential consistency of each variable

What forces one event before another under coherence, both are events of one
variable. So a cycle is a cycle of the events of some variable, and if there is
none, the events of each variable can be put in an order of their own.
-/

set_option autoImplicit false

namespace Consistency
open Query (isInit)
open Relation (TransGen)
variable {g : EventGraph} {x : Choice} {y : String} {a b w r : Nat} {before : Nat → Nat → Prop}

namespace EventGraph

def OnVar (g : EventGraph) (y : String) (a : Nat) : Prop := ∃ e, g.event? a = some e ∧ e.var = y

theorem OnVar.sameVar (ha : g.OnVar y a) (hb : g.OnVar y b) : g.sameVar a b = true := by
  obtain ⟨d, hd, hdy⟩ := ha
  obtain ⟨e, he, hey⟩ := hb
  exact sameVar_iff.2 ⟨d, e, hd, he, hdy.trans hey.symm⟩

theorem onVar_iff (h : g.sameVar a b = true) : g.OnVar y a ↔ g.OnVar y b := by
  obtain ⟨d, e, hd, he, hv⟩ := sameVar_iff.1 h
  simp [OnVar, hd, he, hv]

theorem exists_onVar (h : a ∈ g.nodes) : ∃ y, g.OnVar y a := by
  obtain ⟨e, he⟩ := mem_nodes.1 h
  exact ⟨e.var, e, he, rfl⟩

theorem OnVar.mem_writesSameVar (ha : g.OnVar y a) (hb : g.OnVar y b) (hw : b ∈ g.writes) :
    b ∈ g.writesSameVar a := by
  rw [writesSameVar, List.mem_filter]
  exact ⟨hw, ha.sameVar hb⟩

end EventGraph

open EventGraph

namespace Choice

/-- A strict total order of the events of a variable, the initial write first, in which each read
sees the latest write before it. -/
structure Serializes (g : EventGraph) (x : Choice) (y : String) (before : Nat → Nat → Prop) :
    Prop where
  nodes : ∀ a b, before a b → g.OnVar y a ∧ g.OnVar y b
  irrefl : ∀ a, ¬ before a a
  trans : ∀ a b c, before a b → before b c → before a c
  total : ∀ a b, g.OnVar y a → g.OnVar y b → a ≠ b → before a b ∨ before b a
  initial : ∀ a b, g.OnVar y a → isInit g a = true → g.OnVar y b → a ≠ b → before a b
  program : ∀ a b, g.OnVar y a → g.OnVar y b → g.programOrder a b = true → before a b
  coherence : ∀ a b, g.OnVar y a → x.co a b → before a b
  latest : ∀ w r, g.OnVar y r → x.rf w r → before w r ∧
    ∀ v ∈ g.writes, g.OnVar y v → before v r → v = w ∨ before v w

theorem Communicates.sameVar (hx : x.Proper g) (h : x.Communicates a b) :
    g.sameVar a b = true := by
  rcases h with hrf | hco | ⟨v, hrf, hco⟩
  · exact (sameVar_of_mem (hx.source a b hrf).2).1
  · exact (sameVar_of_mem (hx.writes a b hco).2).2
  · exact (sameVar_of_mem (hx.fr_sameVar hrf hco).2).2

theorem ForcesLocally.sameVar (hx : x.Proper g) (h : x.ForcesLocally g a b) :
    g.sameVar a b = true := by
  rcases h with ⟨-, hvar⟩ | hcom
  · exact hvar
  · exact hcom.sameVar hx

theorem Serializes.forced (hx : x.Proper g) (h : x.Serializes g y before) (ha : g.OnVar y a)
    (hf : x.ForcesLocally g a b) : before a b := by
  have hb := (onVar_iff (hf.sameVar hx)).1 ha
  rcases hf with ⟨hpo, -⟩ | hrf | hco | ⟨w, hrf, hco⟩
  · exact h.program a b ha hb hpo
  · exact (h.latest a b hb hrf).1
  · exact h.coherence a b ha hco
  · obtain ⟨hbefore, hlatest⟩ := h.latest w a ha hrf
    have hw := (h.nodes w a hbefore).1
    exact before_overwriting hx h.irrefl h.trans hrf hco (h.total a b ha hb)
      (h.coherence w b hw hco) (hlatest b (mem_writes_of_sameVar (hx.writes w b hco).2) hb)

/-- By induction on the path, which never leaves the variable. -/
theorem Serializes.forced_path (hx : x.Proper g) (h : x.Serializes g y before) (ha : g.OnVar y a)
    (hab : TransGen (x.ForcesLocally g) a b) : g.OnVar y b ∧ before a b := by
  induction hab with
  | single hf => exact ⟨(onVar_iff (hf.sameVar hx)).1 ha, h.forced hx ha hf⟩
  | tail _ hf ih =>
    obtain ⟨hb, hbefore⟩ := ih
    exact ⟨(onVar_iff (hf.sameVar hx)).1 hb, h.trans _ _ _ hbefore (h.forced hx hb hf)⟩

theorem acyclic_of_serializes (hx : x.Proper g)
    (h : ∀ y, ∃ before, x.Serializes g y before) (a : Nat) :
    ¬ TransGen (x.ForcesLocally g) a a := by
  intro hc
  obtain ⟨b, hab, -⟩ := Relation.TransGen.head'_iff.1 hc
  obtain ⟨y, ha⟩ := exists_onVar (mem_nodes_of_forces hx hab.forces).1
  obtain ⟨before, hbefore⟩ := h y
  exact hbefore.irrefl a (hbefore.forced_path hx ha hc).2

/-- All events of the variable are forced to come after the initial write. -/
theorem forced_after_init (hg : g.Regular) (hx : x.Proper g) (ha : g.OnVar y a)
    (hia : isInit g a = true) (hb : g.OnVar y b) (hne : a ≠ b) :
    TransGen (x.ForcesLocally g) a b := by
  obtain ⟨d, hd, -⟩ := id ha
  have hinit : d.isInit = true := by simpa [isInit, isNode, hd] using hia
  have haw : a ∈ g.writes := mem_writes.2 ⟨d, hd, hg.writes a d hd hinit⟩
  have hco : ∀ w, w ∈ g.writesSameVar a → a ≠ w → x.ForcesLocally g a w := fun w hw hne =>
    .inr (.inr (.inl (hx.initial a haw hia w hw hne)))
  obtain ⟨e, he, -⟩ := id hb
  cases hw : e.isWrite with
  | true => exact .single (hco b (ha.mem_writesSameVar hb (mem_writes.2 ⟨e, he, hw⟩)) hne)
  | false =>
    have hr : b ∈ g.reads := mem_reads.2 ⟨e, he, Event.isRead_iff.2 hw⟩
    obtain ⟨w, hrf, -⟩ := hx.sourced b hr
    have hsource := (hx.source w b hrf).2
    have hforced : x.ForcesLocally g w b := .inr (.inl hrf)
    by_cases haw : a = w
    · subst haw
      exact .single hforced
    · have hwy := (onVar_iff (sameVar_of_mem hsource).1).2 hb
      have hwa := ha.mem_writesSameVar hwy (mem_writes_of_sameVar hsource)
      exact .tail (.single (hco w hwa haw)) hforced

theorem exists_serializes (hg : g.Regular) (hx : x.Proper g)
    (h : ∀ a, ¬ TransGen (x.ForcesLocally g) a a) (y : String) :
    ∃ before, x.Serializes g y before := by
  obtain ⟨lt, hext, hirr, htrans, htotal⟩ := exists_strict_order h
  have hasymm : ∀ {a b}, lt a b → ¬ lt b a := fun hab hba => hirr _ (htrans _ _ _ hab hba)
  have hpath : ∀ {a b}, TransGen (x.ForcesLocally g) a b → lt a b := by
    intro a b hab
    induction hab with
    | single hf => exact hext _ _ hf
    | tail _ hf ih => exact htrans _ _ _ ih (hext _ _ hf)
  refine ⟨fun a b => g.OnVar y a ∧ g.OnVar y b ∧ lt a b, {
    nodes := fun a b h => ⟨h.1, h.2.1⟩
    irrefl := fun a h => hirr a h.2.2
    trans := fun a b c h k => ⟨h.1, k.2.1, htrans a b c h.2.2 k.2.2⟩
    total := fun a b ha hb hne => (htotal a b hne).imp (fun h => ⟨ha, hb, h⟩) fun h => ⟨hb, ha, h⟩
    initial := fun a b ha hia hb hne => ⟨ha, hb, hpath (forced_after_init hg hx ha hia hb hne)⟩
    program := fun a b ha hb hpo => ⟨ha, hb, hext a b (.inl ⟨hpo, ha.sameVar hb⟩)⟩
    coherence := ?_
    latest := ?_ }⟩
  · intro a b ha hco
    have hb := (onVar_iff (sameVar_of_mem (hx.writes a b hco).2).2).1 ha
    exact ⟨ha, hb, hext a b (.inr (.inr (.inl hco)))⟩
  · intro w r hr hrf
    have hw := (onVar_iff (sameVar_of_mem (hx.source w r hrf).2).1).2 hr
    have hlatest := latest_of_order hx hasymm (fun a b h => hext a b (.inr (.inr (.inl h))))
      (fun w r b hrf hco => hext r b (.inr (.inr (.inr ⟨w, hrf, hco⟩)))) hrf
    refine ⟨⟨hw, hr, hext w r (.inr (.inl hrf))⟩, fun v hv hvy ⟨_, _, hlt⟩ => ?_⟩
    exact (hlatest v (hr.mem_writesSameVar hvy hv) hlt).imp_right fun h => ⟨hvy, hw, h⟩

end Choice

namespace MemoryModel

/-- Coherence admits an execution of a reachable state, be it terminal or not, exactly if the events
of each variable can be put in such an order. -/
theorem coherence_iff_serializes (automata : List Automaton) (initial : List (String × Int))
    (p : Precision) (s : GlobalState)
    (h : (Composition.ofAutomata automata initial).Reachable p s) (x : Choice)
    (hx : x.Proper (.ofState (.ofAutomata automata initial) s)) :
    coherence.Admits (.ofState (.ofAutomata automata initial) s) x ↔
      ∀ y, ∃ before, x.Serializes (.ofState (.ofAutomata automata initial) s) y before := by
  have hg := regular_ofState (Composition.ofAutomata_initialized automata initial) h
  rw [admits_coherence]
  exact ⟨fun hc y => Choice.exists_serializes hg hx hc y, Choice.acyclic_of_serializes hx⟩

theorem coherence_iff_serializes_loaded : loading.Reachable .default loaded ∧
    loadsInitial.Proper (.ofState loading loaded) ∧
      (coherence.Admits (.ofState loading loaded) loadsInitial ↔
        ∀ y, ∃ before, loadsInitial.Serializes (.ofState loading loaded) y before) := by
  exact ⟨loaded_reachable, loadsInitial_proper,
    coherence_iff_serializes [.straightLine "P" [.load "r" "x"]] [] .default loaded loaded_reachable
      loadsInitial loadsInitial_proper⟩

end MemoryModel
end Consistency
