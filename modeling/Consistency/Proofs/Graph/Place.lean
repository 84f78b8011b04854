import Consistency.Proofs.Composition.Place
import Consistency.Proofs.Graph.Shape

/-!
# Nodes by place

The events of a reachable state have places of their own, so that they are in
strict order in its graph. No two reads share a symbol, and what a state has
emitted fixes the shapes of its graph.
-/

set_option autoImplicit false

namespace Consistency.EventGraph
open Consistency.Composition (SamePlace placed_of_reachable)
variable {c : Composition} {p : Precision} {s u : GlobalState} {d e : Event}

theorem rank_thread {id : Nat} (h : e.owner = .thread id) : rank e = (1, id, e.index) := by
  rw [rank, h]

theorem rank_init (h : e.owner = .init) : rank e = (0, 0, e.index) := by
  rw [rank, h]

/-- Events that come before each other are at the same place. -/
theorem samePlace_of_comesFirst (h : comesFirst d e = true) (h' : comesFirst e d = true) :
    SamePlace d e := by
  rw [comesFirst_iff] at h h'
  cases hd : d.owner with
  | init =>
    cases he : e.owner with
    | init =>
      simp only [rank_init hd, rank_init he] at h h'
      exact ⟨hd.trans he.symm, by omega⟩
    | thread j =>
      simp only [rank_init hd, rank_thread he] at h h'
      omega
  | thread i =>
    cases he : e.owner with
    | init =>
      simp only [rank_thread hd, rank_init he] at h h'
      omega
    | thread j =>
      simp only [rank_thread hd, rank_thread he] at h h'
      have hij : i = j := by omega
      exact ⟨hd.trans (hij ▸ he.symm), by omega⟩

/-- The events of the graph are in strict order. -/
theorem events_ordered (hn : c.Numbered) (h : c.Reachable p s) :
    (ofState c s).events.toList.Pairwise fun d e => comesFirst e d = false := by
  have hapart := (events_perm c s).symm.pairwise (placed_of_reachable hn h).apart
    fun hne hsame => hne ⟨hsame.1.symm, hsame.2.symm⟩
  refine (events_sorted c s).imp₂ (fun d e hde hne => ?_) hapart
  rw [Bool.eq_false_iff]
  exact fun hed => hne (samePlace_of_comesFirst hde hed)

theorem readSymbols_nodup (hn : c.Numbered) (hc : c.Initialized) (h : c.Reachable p s) :
    (Query.readSymbols (ofState c s)).Nodup := by
  have howner : ∀ e ∈ Query.readsOf (ofState c s), ∃ i, e.owner = .thread i := by
    intro e he
    obtain ⟨hmem, hread⟩ := List.mem_filter.1 he
    cases ho : e.owner with
    | thread i => exact ⟨i, rfl⟩
    | init =>
      have hwrite := (Composition.regular_of_reachable hc h).writes e
        ((events_perm c s).mem_iff.1 hmem) (by simp [Event.isInit, ho])
      rw [Event.isRead_iff.1 hread] at hwrite
      exact absurd hwrite (by decide)
  rw [Query.readSymbols, List.Nodup, List.pairwise_map]
  refine ((events_ordered hn h).filter _).imp_of_mem fun {d e} hd he hlt hsame => ?_
  obtain ⟨i, hi⟩ := howner d hd
  obtain ⟨j, hj⟩ := howner e he
  rw [Event.symbol, Event.symbol, hi, hj] at hsame
  obtain ⟨hij, hindex⟩ := readSymbol_injective hsame
  have hback : comesFirst e d = true := by
    rw [comesFirst_iff, rank_thread hi, rank_thread hj]
    exact .inr ⟨rfl, .inr ⟨hij.symm, Nat.le_of_eq hindex.symm⟩⟩
  rw [hback] at hlt
  exact absurd hlt (by decide)

/-- States that have emitted events of the same shapes have alike graphs. -/
theorem shapes_of_perm (hn : c.Numbered) (hu : c.Reachable p u)
    (h : (s.emitted.map Event.shape).Perm (u.emitted.map Event.shape)) :
    (ofState c s).shapes = (ofState c u).shapes :=
  shapes_ofState c (h.trans ((events_perm c u).map Event.shape).symm) (events_ordered hn hu)

end Consistency.EventGraph
