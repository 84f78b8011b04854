import Mathlib.Data.Finset.Max
import Consistency.Proofs.Graph.Place
import Consistency.Proofs.MemoryModel.Standard

/-!
# Executions of a single thread

In the graph of a single thread the nodes are in program order, behind the
initial writes. A model that keeps coherence leaves one choice there: reads see
the latest write before them. As nothing is forced backwards by this choice, even
sequential consistency admits it.
-/

set_option autoImplicit false

namespace Consistency
open Query (isInit)
open Relation (TransGen)
variable {g : EventGraph} {x : Choice} {a b v w r : Nat}

namespace EventGraph

def Serial (g : EventGraph) : Prop := ∀ a b, g.programOrder a b = true ↔
  isInit g a = false ∧ a < b ∧ b ∈ g.nodes

theorem Serial.total (hs : g.Serial) (ha : a ∈ g.nodes) (hb : b ∈ g.nodes)
    (hia : isInit g a = false) (hib : isInit g b = false) (hne : a ≠ b) :
    g.programOrder a b = true ∨ g.programOrder b a = true := by
  rcases Nat.lt_or_gt_of_ne hne with hlt | hlt
  · exact .inl ((hs a b).2 ⟨hia, hlt, hb⟩)
  · exact .inr ((hs b a).2 ⟨hib, hlt, ha⟩)

theorem Serial.lt_of_init (hs : g.Serial) (hia : isInit g a = true) (ha : a ∈ g.nodes)
    (hib : isInit g b = false) : a < b := by
  by_contra hle
  have hne : b ≠ a := by
    rintro rfl
    simp [hia] at hib
  have hpo := (hs b a).2 ⟨hib, by omega, ha⟩
  rw [(not_init_of_programOrder hpo).2] at hia
  exact absurd hia (by decide)

theorem comesFirst_iff_index {d e : Event} {i : Nat} (hd : d.owner = .thread i)
    (he : e.owner = .thread i) : comesFirst d e = true ↔ d.index ≤ e.index := by
  rw [comesFirst_iff, rank_thread hd, rank_thread he]
  simp

theorem comesFirst_of_init {d e : Event} {i : Nat} (hd : d.owner = .init)
    (he : e.owner = .thread i) : comesFirst d e = true := by
  rw [comesFirst_iff, rank_init hd, rank_thread he]
  simp

section Reachable
variable {automaton : Automaton} {initial : List (String × Int)} {p : Precision} {s : GlobalState}

theorem owner_of_reachable (h : (Composition.ofAutomata [automaton] initial).Reachable p s)
    {e : Event} (he : e ∈ s.emitted) (hi : e.isInit = false) : e.owner = .thread 0 := by
  have hn := Composition.ofAutomata_numbered [automaton] initial
  obtain ho | ⟨i, hlt, ho⟩ := Composition.owner_of_emitted hn h he
  · exact absurd hi (by simp [Event.isInit, ho])
  · obtain rfl := Nat.lt_one_iff.1 hlt
    exact ho

theorem serial_ofState (h : (Composition.ofAutomata [automaton] initial).Reachable p s) :
    (ofState (.ofAutomata [automaton] initial) s).Serial := by
  have hordered := events_ordered (Composition.ofAutomata_numbered [automaton] initial) h
  have hbefore : ∀ {a b : Nat} {d e : Event}, a < b →
      (ofState (.ofAutomata [automaton] initial) s).event? a = some d →
      (ofState (.ofAutomata [automaton] initial) s).event? b = some e →
        comesFirst e d = false := fun hab hd he =>
    rel_of_pairwise hordered hab (Array.getElem?_toList ▸ hd) (Array.getElem?_toList ▸ he)
  intro a b
  rw [programOrder_iff]
  constructor
  · rintro ⟨d, e, hd, he, hi, ho, hlt⟩
    refine ⟨by simpa [isInit, isNode, hd] using hi, ?_, mem_nodes.2 ⟨e, he⟩⟩
    rcases Nat.lt_trichotomy a b with hab | rfl | hba
    · exact hab
    · obtain rfl := Option.some.inj (hd.symm.trans he)
      omega
    · have hfirst := hbefore hba he hd
      have howner := owner_of_reachable h (mem_emitted hd) hi
      rw [(comesFirst_iff_index howner (ho ▸ howner)).2 (Nat.le_of_lt hlt)] at hfirst
      exact absurd hfirst (by decide)
  · rintro ⟨hia, hab, hb⟩
    obtain ⟨e, he⟩ := mem_nodes.1 hb
    obtain ⟨d, hd⟩ := mem_nodes.1 (List.mem_range.2 (hab.trans (List.mem_range.1 hb)))
    have hi : d.isInit = false := by simpa [isInit, isNode, hd] using hia
    have hfirst := hbefore hab hd he
    have howner := owner_of_reachable h (mem_emitted hd) hi
    cases hie : e.isInit with
    | true =>
      rw [comesFirst_of_init (eq_of_beq hie) howner] at hfirst
      exact absurd hfirst (by decide)
    | false =>
      have howner' := owner_of_reachable h (mem_emitted he) hie
      rw [Bool.eq_false_iff, ne_eq, comesFirst_iff_index howner' howner, Nat.not_le] at hfirst
      exact ⟨d, e, hd, he, hi, howner.trans howner'.symm, hfirst⟩

end Reachable
end EventGraph

open EventGraph

namespace Choice

def Sees (g : EventGraph) (w r : Nat) : Prop :=
  (g.programOrder w r = true ∧ ∀ v ∈ g.writesSameVar r, g.programOrder v r = true →
    v = w ∨ g.programOrder v w = true) ∨
  (isInit g w = true ∧ ∀ v ∈ g.writesSameVar r, g.programOrder v r = false)

def sequential (g : EventGraph) : Choice where
  rf w r := r ∈ g.reads ∧ w ∈ g.writesSameVar r ∧ Sees g w r
  co a b := a ∈ g.writes ∧ b ∈ g.writesSameVar a ∧
    (g.programOrder a b = true ∨ (isInit g a = true ∧ isInit g b = false))

theorem sees_unique (hg : g.Regular) (hs : g.Serial) (hv : v ∈ g.writesSameVar r)
    (hw : w ∈ g.writesSameVar r) (hsv : Sees g v r) (hsw : Sees g w r) : v = w := by
  rcases hsv with ⟨hvr, hlast⟩ | ⟨hiv, hnone⟩
  · rcases hsw with ⟨hwr, hlast'⟩ | ⟨-, hnone⟩
    · rcases hlast w hw hwr with rfl | hwv
      · rfl
      · rcases hlast' v hv hvr with rfl | hvw
        · rfl
        · have hlt := ((hs w v).1 hwv).2.1
          have hlt' := ((hs v w).1 hvw).2.1
          omega
    · rw [hnone v hv] at hvr
      exact absurd hvr (by decide)
  · rcases hsw with ⟨hwr, -⟩ | ⟨hiw, -⟩
    · rw [hnone w hw] at hwr
      exact absurd hwr (by decide)
    · exact hg.init_unique hv hw hiv hiw

section Unique
variable (hg : g.Regular) (hs : g.Serial) (hx : x.Proper g)
  (hacyclic : ∀ a, ¬ TransGen (x.ForcesLocally g) a a)
include hs hx hacyclic

/-- Otherwise the writes would force each other. -/
theorem co_of_programOrder (ha : a ∈ g.writes) (hb : b ∈ g.writesSameVar a)
    (hpo : g.programOrder a b = true) : x.co a b := by
  have hlt := ((hs a b).1 hpo).2.1
  rcases hx.total a ha b hb (Nat.ne_of_lt hlt) with hab | hba
  · exact hab
  · have hforced : x.ForcesLocally g a b := .inl ⟨hpo, (sameVar_of_mem hb).2⟩
    have hback : x.ForcesLocally g b a := .inr (.inr (.inl hba))
    exact absurd (.tail (.single hforced) hback) (hacyclic a)

theorem co_iff_sequential : x.co a b ↔ (sequential g).co a b := by
  constructor
  · intro hco
    obtain ⟨ha, hb⟩ := hx.writes a b hco
    have hib := not_init_of_co hx hco
    refine ⟨ha, hb, ?_⟩
    cases hia : isInit g a with
    | true => exact .inr ⟨rfl, hib⟩
    | false =>
      have hbw := mem_writes_of_sameVar hb
      have hne : a ≠ b := by
        rintro rfl
        exact hx.irrefl a hco
      rcases hs.total (mem_nodes_of_writes ha) (mem_nodes_of_writes hbw) hia hib hne with hpo | hpo
      · exact .inl hpo
      · have hback := co_of_programOrder hs hx hacyclic hbw (writesSameVar_symm ha hb) hpo
        exact absurd hback (hx.asymm hco)
  · rintro ⟨ha, hb, hpo | ⟨hia, hib⟩⟩
    · exact co_of_programOrder hs hx hacyclic ha hb hpo
    · refine hx.initial a ha hia b hb ?_
      rintro rfl
      simp [hia] at hib

include hg

/-- A later source, or one that is overwritten before the read, would be forced to come after it. -/
theorem sees_of_rf (hrf : x.rf w r) : Sees g w r := by
  obtain ⟨hr, hw⟩ := hx.source w r hrf
  have hir := hg.not_init_of_read hr
  have hforced : x.ForcesLocally g w r := .inr (.inl hrf)
  have hlatest : ∀ v ∈ g.writesSameVar r, g.programOrder v r = true → v ≠ w → x.co v w := by
    intro v hv hpo hne
    rcases hx.total v (mem_writes_of_sameVar hv) w (writesSameVar_of_both hv hw) hne with hco | hco
    · exact hco
    · have hover : x.ForcesLocally g r v := .inr (.inr (.inr ⟨w, hrf, hco⟩))
      have hback : x.ForcesLocally g v r := .inl ⟨hpo, (sameVar_of_mem hv).1⟩
      exact absurd (.tail (.single hover) hback) (hacyclic r)
  have hbefore : isInit g w = true ∨ g.programOrder w r = true := by
    cases hiw : isInit g w with
    | true => exact .inl rfl
    | false =>
      have hww := mem_writes_of_sameVar hw
      rcases hs.total (mem_nodes_of_writes hww) (mem_nodes_of_reads hr) hiw hir
        (ne_of_reads_writes hr hww).symm with hpo | hpo
      · exact .inr hpo
      · have hback : x.ForcesLocally g r w := .inl ⟨hpo, (sameVar_of_mem hw).2⟩
        exact absurd (.tail (.single hforced) hback) (hacyclic w)
  rcases hbefore with hiw | hpo
  · refine .inr ⟨hiw, fun v hv => ?_⟩
    by_contra hpo
    rw [Bool.not_eq_false] at hpo
    have hne : v ≠ w := by
      rintro rfl
      rw [(not_init_of_programOrder hpo).1] at hiw
      exact absurd hiw (by decide)
    have hinit := not_init_of_co hx (hlatest v hv hpo hne)
    rw [hiw] at hinit
    exact absurd hinit (by decide)
  · refine .inl ⟨hpo, fun v hv hvr => ?_⟩
    by_cases hne : v = w
    · exact .inl hne
    · obtain ⟨-, -, hco⟩ := (co_iff_sequential hs hx hacyclic).1 (hlatest v hv hvr hne)
      rcases hco with hvw | ⟨hiv, -⟩
      · exact .inr hvw
      · rw [(not_init_of_programOrder hvr).1] at hiv
        exact absurd hiv (by decide)

theorem eq_sequential : x = sequential g := by
  have hrf : ∀ w r, x.rf w r ↔ (sequential g).rf w r := by
    intro w r
    constructor
    · intro hrf
      obtain ⟨hr, hw⟩ := hx.source w r hrf
      exact ⟨hr, hw, sees_of_rf hg hs hx hacyclic hrf⟩
    · rintro ⟨hr, hw, hsees⟩
      obtain ⟨v, hv, -⟩ := hx.sourced r hr
      obtain rfl := sees_unique hg hs (hx.source v r hv).2 hw (sees_of_rf hg hs hx hacyclic hv) hsees
      exact hv
  have hco : ∀ a b, x.co a b ↔ (sequential g).co a b := fun a b =>
    co_iff_sequential hs hx hacyclic
  obtain ⟨rf, co⟩ := x
  exact congrArg₂ Choice.mk (funext₂ fun w r => propext (hrf w r))
    (funext₂ fun a b => propext (hco a b))

end Unique

/-- The latest of the earlier writes is the one with the largest node. -/
theorem exists_sees (hg : g.Regular) (hs : g.Serial) (hr : r ∈ g.reads) :
    ∃ w ∈ g.writesSameVar r, Sees g w r := by
  let earlier := ((g.writesSameVar r).filter fun v => g.programOrder v r).toFinset
  have hmem : ∀ v, v ∈ earlier ↔ v ∈ g.writesSameVar r ∧ g.programOrder v r = true := by
    simp [earlier]
  rcases earlier.eq_empty_or_nonempty with hempty | hsome
  · obtain ⟨w, hw, hiw⟩ := hg.exists_init (mem_nodes_of_reads hr)
    refine ⟨w, hw, .inr ⟨hiw, fun v hv => ?_⟩⟩
    by_contra hpo
    have hin := (hmem v).2 ⟨hv, by simpa using hpo⟩
    simp [hempty] at hin
  · obtain ⟨w, hin, hmax⟩ := earlier.exists_max_image id hsome
    obtain ⟨hw, hwr⟩ := (hmem w).1 hin
    refine ⟨w, hw, .inl ⟨hwr, fun v hv hvr => ?_⟩⟩
    have hle : v ≤ w := hmax v ((hmem v).2 ⟨hv, hvr⟩)
    rcases Nat.lt_or_eq_of_le hle with hlt | heq
    · exact .inr ((hs v w).2 ⟨(not_init_of_programOrder hvr).1, hlt,
        mem_nodes_of_writes (mem_writes_of_sameVar hw)⟩)
    · exact .inl heq

/-- Coherence goes from smaller to larger nodes. -/
theorem sequential_co_iff (hs : g.Serial) : (sequential g).co a b ↔
    a ∈ g.writes ∧ b ∈ g.writesSameVar a ∧ isInit g b = false ∧ a < b := by
  refine and_congr_right fun ha => and_congr_right fun hb => ?_
  constructor
  · rintro (hpo | ⟨hia, hib⟩)
    · exact ⟨(not_init_of_programOrder hpo).2, ((hs a b).1 hpo).2.1⟩
    · exact ⟨hib, hs.lt_of_init hia (mem_nodes_of_writes ha) hib⟩
  · rintro ⟨hib, hlt⟩
    cases hia : isInit g a with
    | true => exact .inr ⟨rfl, hib⟩
    | false => exact .inl ((hs a b).2 ⟨hia, hlt, mem_nodes_of_writes (mem_writes_of_sameVar hb)⟩)

theorem sequential_co_of_lt (hg : g.Regular) (hs : g.Serial) (ha : a ∈ g.writes)
    (hb : b ∈ g.writesSameVar a) (hlt : a < b) : (sequential g).co a b := by
  refine (sequential_co_iff hs).2 ⟨ha, hb, ?_, hlt⟩
  have hbn := mem_nodes_of_writes (mem_writes_of_sameVar hb)
  cases hia : isInit g a with
  | false => exact (not_init_of_programOrder ((hs a b).2 ⟨hia, hlt, hbn⟩)).2
  | true =>
    by_contra hib
    rw [Bool.not_eq_false] at hib
    have heq := hg.init_unique (self_mem_writesSameVar ha) hb hia hib
    omega

theorem sequential_proper (hg : g.Regular) (hs : g.Serial) : (sequential g).Proper g where
  source := fun w r h => ⟨h.1, h.2.1⟩
  sourced := by
    intro r hr
    obtain ⟨w, hw, hsees⟩ := exists_sees hg hs hr
    exact ⟨w, ⟨hr, hw, hsees⟩, fun v hv => sees_unique hg hs hv.2.1 hw hv.2.2 hsees⟩
  writes := fun a b h => ⟨h.1, h.2.1⟩
  irrefl := by
    intro a h
    have hlt := ((sequential_co_iff hs).1 h).2.2.2
    omega
  trans := by
    intro a b c hab hbc
    obtain ⟨ha, hb, -, hlt⟩ := (sequential_co_iff hs).1 hab
    obtain ⟨-, hc, hic, hlt'⟩ := (sequential_co_iff hs).1 hbc
    exact (sequential_co_iff hs).2 ⟨ha, writesSameVar_trans hb hc, hic, hlt.trans hlt'⟩
  total := by
    intro a ha b hb hne
    rcases Nat.lt_or_gt_of_ne hne with hlt | hlt
    · exact .inl (sequential_co_of_lt hg hs ha hb hlt)
    · exact .inr (sequential_co_of_lt hg hs (mem_writes_of_sameVar hb) (writesSameVar_symm ha hb)
        hlt)
  initial := by
    intro a ha hia b hb hne
    have hib : isInit g b = false := by
      by_contra hib
      rw [Bool.not_eq_false] at hib
      exact hne (hg.init_unique (self_mem_writesSameVar ha) hb hia hib)
    exact ⟨ha, hb, .inr ⟨hia, hib⟩⟩

/-- Nothing is forced backwards. -/
theorem sequential_forces_lt (hg : g.Regular) (hs : g.Serial) (h : (sequential g).Forces g a b) :
    a < b := by
  rcases h with hpo | ⟨hr, hw, hsees⟩ | hco | ⟨v, ⟨hr, hv, hsees⟩, hco⟩
  · exact ((hs a b).1 hpo).2.1
  · rcases hsees with ⟨hpo, -⟩ | ⟨hia, -⟩
    · exact ((hs a b).1 hpo).2.1
    · exact hs.lt_of_init hia (mem_nodes_of_writes (mem_writes_of_sameVar hw))
        (hg.not_init_of_read hr)
  · exact ((sequential_co_iff hs).1 hco).2.2.2
  · obtain ⟨-, hb, hib, hlt⟩ := (sequential_co_iff hs).1 hco
    have hne := ne_of_reads_writes hr (mem_writes_of_sameVar hb)
    by_contra hle
    have hpo := (hs b a).2 ⟨hib, by omega, mem_nodes_of_reads hr⟩
    have hba := writesSameVar_trans hv hb
    rcases hsees with ⟨-, hlast⟩ | ⟨-, hnone⟩
    · rcases hlast b hba hpo with rfl | hbv
      · omega
      · have hback := ((hs b v).1 hbv).2.1
        omega
    · rw [hnone b hba] at hpo
      exact absurd hpo (by decide)

end Choice

namespace MemoryModel

theorem sc_admits_sequential (hg : g.Regular) (hs : g.Serial) : sc.Admits g (.sequential g) := by
  have hforward : ∀ {a b}, TransGen ((Choice.sequential g).Forces g) a b → a < b := by
    intro a b h
    induction h with
    | single h => exact Choice.sequential_forces_lt hg hs h
    | tail _ h ih => exact ih.trans (Choice.sequential_forces_lt hg hs h)
  exact admits_sc.2 fun a h => absurd (hforward h) (Nat.lt_irrefl a)

/-- Between sequential consistency and coherence no model admits more or less. -/
theorem proper_admits_iff (hg : g.Regular) (hs : g.Serial) {m : MemoryModel}
    (hstrong : sc.Admits g (.sequential g) → m.Admits g (.sequential g))
    (hweak : m.Admits g x → coherence.Admits g x) :
    x.Proper g ∧ m.Admits g x ↔ x = .sequential g := by
  constructor
  · rintro ⟨hx, hm⟩
    exact Choice.eq_sequential hg hs hx (admits_coherence.1 (hweak hm))
  · rintro rfl
    exact ⟨Choice.sequential_proper hg hs, hstrong (sc_admits_sequential hg hs)⟩

/-- Of a reachable state of a single thread, each standard model admits one choice. -/
theorem admits_iff_sequential (automaton : Automaton) (initial : List (String × Int))
    (p : Precision) (s : GlobalState)
    (h : (Composition.ofAutomata [automaton] initial).Reachable p s) :
    ∀ m ∈ [sc, tso, ra, coherence], ∀ x : Choice,
      x.Proper (.ofState (.ofAutomata [automaton] initial) s) ∧
        m.Admits (.ofState (.ofAutomata [automaton] initial) s) x ↔
      x = .sequential (.ofState (.ofAutomata [automaton] initial) s) := by
  have hg := regular_ofState (Composition.ofAutomata_initialized [automaton] initial) h
  have hs := serial_ofState h
  simp only [List.forall_mem_cons, List.not_mem_nil, false_imp_iff, implies_true, and_true]
  exact ⟨fun x => proper_admits_iff hg hs id fun hx => coherence_of_tso (tso_of_sc hx),
    fun x => proper_admits_iff hg hs tso_of_sc coherence_of_tso,
    fun x => proper_admits_iff hg hs ra_of_sc coherence_of_ra,
    fun x => proper_admits_iff hg hs (fun hx => coherence_of_tso (tso_of_sc hx)) id⟩

theorem admits_iff_sequential_loaded : loading.Reachable .default loaded ∧
    ∀ m ∈ [sc, tso, ra, coherence], ∀ x : Choice,
      x.Proper (.ofState loading loaded) ∧ m.Admits (.ofState loading loaded) x ↔
        x = .sequential (.ofState loading loaded) :=
  ⟨loaded_reachable, admits_iff_sequential (.straightLine "P" [.load "r" "x"]) [] .default loaded
    loaded_reachable⟩

end MemoryModel
end Consistency
