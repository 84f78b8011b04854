import Mathlib
import Consistency.MemoryModel.Standard
import Consistency.Proofs.MemoryModel.Meaning

/-!
# Sequential consistency as interleaving

The events of an execution that sequential consistency admits can be put in one
order, in which each read sees the latest write before it. Conversely such an
order leaves no room for a cycle.
-/

set_option autoImplicit false

namespace Consistency
open Query (isInit)
variable {g : EventGraph} {x : Choice} {a b w r : Nat}

namespace Choice

/-- A strict total order of all events, initial writes first, in which each read sees the latest
write to its variable. -/
structure Interleaves (g : EventGraph) (x : Choice) (before : Nat → Nat → Prop) : Prop where
  nodes : ∀ a b, before a b → a ∈ g.nodes ∧ b ∈ g.nodes
  irrefl : ∀ a, ¬ before a a
  trans : ∀ a b c, before a b → before b c → before a c
  total : ∀ a ∈ g.nodes, ∀ b ∈ g.nodes, a ≠ b → before a b ∨ before b a
  initial : ∀ a ∈ g.nodes, isInit g a = true → ∀ b ∈ g.nodes, isInit g b = false → before a b
  program : ∀ a b, g.programOrder a b = true → before a b
  coherence : ∀ a ∈ g.writes, ∀ b ∈ g.writesSameVar a, (x.co a b ↔ before a b)
  latest : ∀ w r, x.rf w r → before w r ∧ ∀ v ∈ g.writesSameVar r, before v r → v = w ∨ before v w

def Forces (g : EventGraph) (x : Choice) (a b : Nat) : Prop :=
  g.programOrder a b = true ∨ x.rf a b ∨ x.co a b ∨ ∃ v, x.rf v a ∧ x.co v b

end Choice

theorem MemoryModel.sc_valid : sc.validate = .ok () :=
  valid_of_defined (by decide) (by decide) (by decide) (by cbv)

theorem MemoryModel.admits_sc : sc.Admits g x ↔ ∀ a, ¬ Relation.TransGen (x.Forces g) a a := by
  obtain ⟨ρ, hρ⟩ := exists_meaning sc_valid g x
  have hcom : sc.relation? "com" =
      some (((base .rf).union (base .co)).union (base .fr)) := by decide
  have key : ((base .po).union (named "com")).Denotes g x ρ = x.Forces g := by
    funext a b
    simp only [RelExpr.Denotes, RelExpr.union, named, base, RelOp.Combine, hρ "com" _ hcom a b,
      BaseRelation.Holds, Choice.Forces, or_assoc]
  rw [admits_iff sc_valid hρ, sc, List.forall_mem_singleton, key]
  rfl

namespace Choice

/-- The write before which a read comes is to the same variable. -/
theorem Proper.fr_sameVar (hx : x.Proper g) (hv : x.rf w r) (hc : x.co w b) :
    r ∈ g.reads ∧ b ∈ g.writesSameVar r := by
  obtain ⟨hr, hw⟩ := hx.source w r hv
  obtain ⟨d, e, hd, he, -, hde⟩ := EventGraph.mem_writesSameVar.1 hw
  obtain ⟨e', f, he', hf, hfw, hef⟩ := EventGraph.mem_writesSameVar.1 (hx.writes w b hc).2
  obtain rfl := Option.some.inj (he.symm.trans he')
  exact ⟨hr, EventGraph.mem_writesSameVar.2 ⟨d, f, hd, hf, hfw, hde.trans hef⟩⟩

theorem mem_nodes_of_forces (hx : x.Proper g) (h : x.Forces g a b) : a ∈ g.nodes ∧ b ∈ g.nodes := by
  simp only [EventGraph.mem_nodes]
  rcases h with hpo | hrf | hco | ⟨v, hv, hc⟩
  · obtain ⟨d, e, hd, he, -⟩ := EventGraph.programOrder_iff.1 hpo
    exact ⟨⟨d, hd⟩, e, he⟩
  · obtain ⟨d, e, hd, he, -⟩ := EventGraph.mem_writesSameVar.1 (hx.source a b hrf).2
    exact ⟨⟨e, he⟩, d, hd⟩
  · obtain ⟨d, e, hd, he, -⟩ := EventGraph.mem_writesSameVar.1 (hx.writes a b hco).2
    exact ⟨⟨d, hd⟩, e, he⟩
  · obtain ⟨d, e, hd, he, -⟩ := EventGraph.mem_writesSameVar.1 (hx.fr_sameVar hv hc).2
    exact ⟨⟨d, hd⟩, e, he⟩

/-- Nothing is forced to come before an initial write. -/
theorem not_init_of_forces (hg : g.Regular) (hx : x.Proper g) (h : x.Forces g a b) :
    isInit g b = false := by
  rcases h with hpo | hrf | hco | ⟨v, -, hc⟩
  · exact (EventGraph.not_init_of_programOrder hpo).2
  · exact hg.not_init_of_read (hx.source a b hrf).1
  · exact not_init_of_co hx hco
  · exact not_init_of_co hx hc

def Precedes (g : EventGraph) (x : Choice) (a b : Nat) : Prop :=
  x.Forces g a b ∨ (a ∈ g.nodes ∧ b ∈ g.nodes ∧ isInit g a = true ∧ isInit g b = false)

theorem not_init_of_precedes (hg : g.Regular) (hx : x.Proper g)
    (h : Relation.TransGen (x.Precedes g) a b) : isInit g b = false := by
  obtain ⟨c, -, hf | ⟨-, -, -, hb⟩⟩ := Relation.TransGen.tail'_iff.1 h
  · exact not_init_of_forces hg hx hf
  · exact hb

/-- A path that does not start at an initial write never meets one. -/
theorem forces_of_precedes (hg : g.Regular) (hx : x.Proper g)
    (h : Relation.TransGen (x.Precedes g) a b) (ha : isInit g a = false) :
    Relation.TransGen (x.Forces g) a b := by
  induction h with
  | single h =>
    rcases h with hf | ⟨-, -, hi, -⟩
    · exact .single hf
    · rw [ha] at hi
      exact absurd hi (by decide)
  | tail hab hbc ih =>
    have hb := not_init_of_precedes hg hx hab
    rcases hbc with hf | ⟨-, -, hi, -⟩
    · exact ih.tail hf
    · rw [hb] at hi
      exact absurd hi (by decide)

theorem precedes_acyclic (hg : g.Regular) (hx : x.Proper g)
    (h : ∀ a, ¬ Relation.TransGen (x.Forces g) a a) (a : Nat) :
    ¬ Relation.TransGen (x.Precedes g) a a :=
  fun hc => h a (forces_of_precedes hg hx hc (not_init_of_precedes hg hx hc))

/-- A relation without cycles extends to a strict total order. -/
theorem exists_strict_order {α : Type} {R : α → α → Prop} (h : ∀ a, ¬ Relation.TransGen R a a) :
    ∃ lt : α → α → Prop, (∀ a b, R a b → lt a b) ∧ (∀ a, ¬ lt a a) ∧
      (∀ a b c, lt a b → lt b c → lt a c) ∧ ∀ a b, a ≠ b → lt a b ∨ lt b a := by
  have hpo : IsPartialOrder α (Relation.ReflTransGen R) := {
    refl := fun a => .refl
    trans := fun a b c hab hbc => hab.trans hbc
    antisymm := by
      intro a b hab hba
      rcases Relation.reflTransGen_iff_eq_or_transGen.1 hab with rfl | hab
      · rfl
      · exact absurd (hab.trans_left hba) (h a) }
  obtain ⟨le, hle, hext⟩ := extend_partialOrder (Relation.ReflTransGen R)
  refine ⟨fun a b => le a b ∧ a ≠ b, fun a b hab => ⟨hext a b (.single hab), ?_⟩, ?_, ?_, ?_⟩
  · rintro rfl
    exact h a (.single hab)
  · exact fun a ha => ha.2 rfl
  · rintro a b c ⟨hab, hne⟩ ⟨hbc, hne'⟩
    refine ⟨hle.trans a b c hab hbc, ?_⟩
    rintro rfl
    exact hne (hle.antisymm a b hab hbc)
  · intro a b hne
    rcases hle.total a b with hab | hba
    · exact .inl ⟨hab, hne⟩
    · exact .inr ⟨hba, hne.symm⟩

/-- In an order that respects coherence, with reads before what overwrites their sources, the source
of a read is the latest write before it. -/
theorem latest_of_order (hx : x.Proper g) {lt : Nat → Nat → Prop}
    (hasymm : ∀ {a b}, lt a b → ¬ lt b a) (hco : ∀ a b, x.co a b → lt a b)
    (hfr : ∀ w r b, x.rf w r → x.co w b → lt r b) (hrf : x.rf w r) :
    ∀ v ∈ g.writesSameVar r, lt v r → v = w ∨ lt v w := by
  intro v hv hlt
  by_cases hne : v = w
  · exact .inl hne
  · have hwv := EventGraph.writesSameVar_of_both hv (hx.source w r hrf).2
    rcases hx.total v (EventGraph.mem_writes_of_sameVar hv) w hwv hne with hvw | hwv
    · exact .inr (hco v w hvw)
    · exact absurd hlt (hasymm (hfr w r v hrf hwv))

/-- Where sources are the latest writes, a read comes before what overwrites its source. -/
theorem before_overwriting (hx : x.Proper g) {before : Nat → Nat → Prop}
    (hirr : ∀ a, ¬ before a a) (htrans : ∀ a b c, before a b → before b c → before a c)
    (hrf : x.rf w r) (hco : x.co w b) (htotal : r ≠ b → before r b ∨ before b r)
    (hbefore : before w b) (hlatest : before b r → b = w ∨ before b w) : before r b := by
  have hb := EventGraph.mem_writes_of_sameVar (hx.fr_sameVar hrf hco).2
  rcases htotal (EventGraph.ne_of_reads_writes (hx.source w r hrf).1 hb) with hrb | hbr
  · exact hrb
  · rcases hlatest hbr with rfl | hbw
    · exact absurd hbefore (hirr b)
    · exact absurd (htrans w b w hbefore hbw) (hirr w)

/-- Any order that respects what is forced is one of the interleavings asked for. -/
theorem interleaves_of_order (hx : x.Proper g) {lt : Nat → Nat → Prop}
    (hext : ∀ a b, x.Precedes g a b → lt a b) (hirr : ∀ a, ¬ lt a a)
    (htrans : ∀ a b c, lt a b → lt b c → lt a c) (htotal : ∀ a b, a ≠ b → lt a b ∨ lt b a) :
    x.Interleaves g fun a b => a ∈ g.nodes ∧ b ∈ g.nodes ∧ lt a b := by
  have hforce : ∀ {a b}, x.Forces g a b → a ∈ g.nodes ∧ b ∈ g.nodes ∧ lt a b := fun h =>
    ⟨(mem_nodes_of_forces hx h).1, (mem_nodes_of_forces hx h).2, hext _ _ (.inl h)⟩
  have hasymm : ∀ {a b}, lt a b → ¬ lt b a := fun h h' => hirr _ (htrans _ _ _ h h')
  refine {
    nodes := fun a b h => ⟨h.1, h.2.1⟩
    irrefl := fun a h => hirr a h.2.2
    trans := fun a b c h k => ⟨h.1, k.2.1, htrans a b c h.2.2 k.2.2⟩
    total := fun a ha b hb hne => (htotal a b hne).imp (fun h => ⟨ha, hb, h⟩) fun h => ⟨hb, ha, h⟩
    initial := fun a ha hi b hb hn => ⟨ha, hb, hext a b (.inr ⟨ha, hb, hi, hn⟩)⟩
    program := fun a b h => hforce (.inl h)
    coherence := ?_
    latest := ?_ }
  · intro a ha b hb
    refine ⟨fun h => hforce (.inr (.inr (.inl h))), fun ⟨_, _, h⟩ => ?_⟩
    have hne : a ≠ b := by
      rintro rfl
      exact hirr a h
    rcases hx.total a ha b hb hne with hab | hba
    · exact hab
    · exact absurd h (hasymm (hforce (.inr (.inr (.inl hba)))).2.2)
  · intro w r hrf
    refine ⟨hforce (.inr (.inl hrf)), fun v hv ⟨hvn, hrn, hlt⟩ => ?_⟩
    have hlatest := latest_of_order hx hasymm (fun a b h => (hforce (.inr (.inr (.inl h)))).2.2)
      (fun w r b hrf hco => (hforce (.inr (.inr (.inr ⟨w, hrf, hco⟩)))).2.2) hrf v hv hlt
    exact hlatest.imp_right fun h => ⟨hvn, (hforce (.inr (.inl hrf))).1, h⟩

/-- What is forced is so in every interleaving. -/
theorem Interleaves.forced (hx : x.Proper g) {before : Nat → Nat → Prop}
    (h : x.Interleaves g before) (hf : x.Forces g a b) : before a b := by
  rcases hf with hpo | hrf | hco | ⟨w, hrf, hco⟩
  · exact h.program a b hpo
  · exact (h.latest a b hrf).1
  · obtain ⟨ha, hb⟩ := hx.writes a b hco
    exact (h.coherence a ha b hb).1 hco
  · obtain ⟨hr, hb⟩ := hx.fr_sameVar hrf hco
    obtain ⟨hw, hwb⟩ := hx.writes w b hco
    refine before_overwriting hx h.irrefl h.trans hrf hco (fun hne => ?_)
      ((h.coherence w hw b hwb).1 hco) ((h.latest w a hrf).2 b hb)
    exact h.total a (EventGraph.mem_nodes_of_reads hr) b
      (EventGraph.mem_nodes_of_writes (EventGraph.mem_writes_of_sameVar hb)) hne

theorem Interleaves.acyclic (hx : x.Proper g) {before : Nat → Nat → Prop}
    (h : x.Interleaves g before) (a : Nat) : ¬ Relation.TransGen (x.Forces g) a a := by
  have key : ∀ {a b}, Relation.TransGen (x.Forces g) a b → before a b := by
    intro a b hab
    induction hab with
    | single hf => exact h.forced hx hf
    | tail _ hf ih => exact h.trans _ _ _ ih (h.forced hx hf)
  exact fun hc => h.irrefl a (key hc)

theorem forces_acyclic_iff (hg : g.Regular) (hx : x.Proper g) :
    (∀ a, ¬ Relation.TransGen (x.Forces g) a a) ↔ ∃ before, x.Interleaves g before := by
  constructor
  · intro h
    obtain ⟨lt, hext, hirr, htrans, htotal⟩ := exists_strict_order (precedes_acyclic hg hx h)
    exact ⟨_, interleaves_of_order hx hext hirr htrans htotal⟩
  · rintro ⟨before, h⟩
    exact h.acyclic hx

end Choice

namespace MemoryModel

/-- Sequential consistency admits an execution of a reachable state, be it terminal or not,
exactly if its events can be interleaved. -/
theorem sc_iff_interleaves (automata : List Automaton) (initial : List (String × Int))
    (p : Precision) (s : GlobalState)
    (h : (Composition.ofAutomata automata initial).Reachable p s) (x : Choice)
    (hx : x.Proper (.ofState (.ofAutomata automata initial) s)) :
    sc.Admits (.ofState (.ofAutomata automata initial) s) x ↔
      ∃ before, x.Interleaves (.ofState (.ofAutomata automata initial) s) before := by
  have hg := EventGraph.regular_ofState (Composition.ofAutomata_initialized automata initial) h
  rw [admits_sc, Choice.forces_acyclic_iff hg hx]

def loading : Composition := .ofAutomata [.straightLine "P" [.load "r" "x"]] []

def loaded : GlobalState :=
  (loading.trans .default (loading.init 0).1 ⟨0, 0⟩ 1).1.headD default

theorem loaded_reachable : loading.Reachable .default loaded := by
  have hs : (loading.trans .default (loading.init 0).1 ⟨0, 0⟩ 1).1 = [loaded] := by cbv
  exact .step ⟨0, 0⟩ 1 (.init 0) (hs ▸ List.mem_singleton_self loaded)

def loadsInitial : Choice := ⟨fun w r => w = 0 ∧ r = 1, fun _ _ => False⟩

theorem loadsInitial_proper : loadsInitial.Proper (.ofState loading loaded) := by
  have hr : (EventGraph.ofState loading loaded).reads = [1] := by cbv
  have hw : (EventGraph.ofState loading loaded).writes = [0] := by cbv
  have h0 : (EventGraph.ofState loading loaded).writesSameVar 0 = [0] := by cbv
  have h1 : (EventGraph.ofState loading loaded).writesSameVar 1 = [0] := by cbv
  constructor <;> simp [loadsInitial, hr, hw, h0, h1]

theorem sc_iff_interleaves_loaded : loading.Reachable .default loaded ∧
    loadsInitial.Proper (.ofState loading loaded) ∧
      (sc.Admits (.ofState loading loaded) loadsInitial ↔
        ∃ before, loadsInitial.Interleaves (.ofState loading loaded) before) := by
  exact ⟨loaded_reachable, loadsInitial_proper,
    sc_iff_interleaves [.straightLine "P" [.load "r" "x"]] [] .default loaded loaded_reachable
      loadsInitial loadsInitial_proper⟩

end MemoryModel
end Consistency
