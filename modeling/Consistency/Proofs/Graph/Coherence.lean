import Mathlib.Data.List.Pairwise
import Consistency.Graph.Execution
import Consistency.Proofs.Relation.Denotation

/-!
# Orders read off assignments

Writes are put in order by the number of writes chosen to come before them.
Initial writes have no symbols: like the first write behind it, an initial write
has nothing before it, and comes first because its node does. The neighbours in
such an order give back the order chosen.
-/

set_option autoImplicit false

namespace Consistency
open Query (isInit)

/-- Members of a list follow each other through neighbours. -/
theorem pairwise_transGen_zip_tail {α : Type} (xs : List α) :
    xs.Pairwise (Relation.TransGen fun a b => (a, b) ∈ xs.zip xs.tail) := by
  induction xs with
  | nil => exact .nil
  | cons x xs ih =>
    have hmono : ∀ a b, (a, b) ∈ xs.zip xs.tail → (a, b) ∈ (x :: xs).zip xs := by
      intro a b h
      cases xs with
      | nil => exact absurd h (by simp)
      | cons z zs => exact List.mem_cons_of_mem _ h
    have htail := ih.imp fun {a b} h => Relation.TransGen.mono hmono a b h
    refine List.pairwise_cons.2 ⟨fun b hb => ?_, htail⟩
    cases xs with
    | nil => exact absurd hb (by simp)
    | cons z zs =>
      have hfirst : (x, z) ∈ (x :: z :: zs).zip (z :: zs) := by simp
      rcases List.mem_cons.1 hb with rfl | hb
      · exact .single hfirst
      · exact .head hfirst ((List.pairwise_cons.1 htail).1 b hb)

/-- Neighbours in a list are in its order. -/
theorem rel_of_mem_zip_tail {α : Type} {R : α → α → Prop} {xs : List α} (h : xs.Pairwise R)
    {a b : α} (hab : (a, b) ∈ xs.zip xs.tail) : R a b := by
  induction h with
  | nil => exact absurd hab (by simp)
  | @cons x xs hx _ ih =>
    cases xs with
    | nil => exact absurd hab (by simp)
    | cons z zs =>
      rcases List.mem_cons.1 hab with he | hab
      · obtain ⟨rfl, rfl⟩ := Prod.mk.inj he
        exact hx b (by simp)
      · exact ih hab

/-- Of two members of a list one comes first. -/
theorem rel_or_rel {α : Type} {R : α → α → Prop} {xs : List α} (h : xs.Pairwise R) {a b : α}
    (ha : a ∈ xs) (hb : b ∈ xs) (hne : a ≠ b) : R a b ∨ R b a := by
  have hsymm : Std.Symm fun a b => R a b ∨ R b a := ⟨fun _ _ h => h.symm⟩
  have hall : xs.Pairwise fun a b => R a b ∨ R b a := h.imp .inl
  exact hall.forall ha hb hne

namespace Execution
variable {g : EventGraph} {w : Assignment} {x : Choice} {y : String} {a b : Nat}

structure Follows (g : EventGraph) (w : Assignment) (x : Choice) : Prop where
  proper : x.Proper g
  chosen : ∀ a b, a ∈ g.writes → b ∈ g.writesSameVar a → a ≠ b →
    (chosen w (coSymbol a b) = true ↔ isInit g a = false ∧ x.co a b)
  first : ∀ a b, a ∈ g.writes → b ∈ g.writesSameVar a → isInit g a = true → a ≠ b → a < b

theorem writesTo_nodup (g : EventGraph) (y : String) : (g.writesTo y).Nodup :=
  (List.nodup_range.filter _).filter _

theorem write_of_writesTo (ha : a ∈ g.writesTo y) : a ∈ g.writes := List.mem_of_mem_filter ha

namespace Follows
variable (h : Follows g w x)
include h

theorem chosen_iff (ha : a ∈ g.writesTo y) (hb : b ∈ g.writesTo y) (hne : a ≠ b) :
    Execution.chosen w (coSymbol a b) = true ↔ isInit g a = false ∧ x.co a b :=
  h.chosen a b (write_of_writesTo ha) (EventGraph.mem_writesSameVar_of_writesTo ha hb) hne

theorem predecessors_initial (ha : a ∈ g.writesTo y) (hi : isInit g a = true) :
    predecessors w (g.writesTo y) a = 0 := by
  rw [predecessors, List.length_eq_zero_iff, List.filter_eq_nil_iff]
  intro c hc hca
  rw [Bool.and_eq_true, bne_iff_ne] at hca
  have hco := ((h.chosen_iff hc ha hca.1).1 hca.2).2
  rw [Choice.not_init_of_co h.proper hco] at hi
  exact absurd hi (by decide)

/-- What comes before a write comes before what it comes before. -/
theorem predecessors_lt (ha : a ∈ g.writesTo y) (hb : b ∈ g.writesTo y)
    (hi : isInit g a = false) (hab : x.co a b) :
    predecessors w (g.writesTo y) a < predecessors w (g.writesTo y) b := by
  have hne : a ≠ b := by
    rintro rfl
    exact h.proper.irrefl a hab
  have hmore : ∀ c ∈ g.writesTo y, (c != a && Execution.chosen w (coSymbol c a)) = true →
      (c != b && Execution.chosen w (coSymbol c b)) = true := by
    intro c hc hca
    rw [Bool.and_eq_true, bne_iff_ne] at hca ⊢
    obtain ⟨hic, hco⟩ := (h.chosen_iff hc ha hca.1).1 hca.2
    have hcb := h.proper.trans c a b hco hab
    have hcne : c ≠ b := by
      rintro rfl
      exact h.proper.irrefl c hcb
    exact ⟨hcne, (h.chosen_iff hc hb hcne).2 ⟨hic, hcb⟩⟩
  have hself : (a != b && Execution.chosen w (coSymbol a b)) = true := by
    rw [Bool.and_eq_true, bne_iff_ne]
    exact ⟨hne, (h.chosen_iff ha hb hne).2 ⟨hi, hab⟩⟩
  -- The writes before `a` are among those before `b`, of which `a` itself is left out.
  have hfilter : (g.writesTo y).filter (fun c => c != a && Execution.chosen w (coSymbol c a)) =
      ((g.writesTo y).filter fun c => c != b && Execution.chosen w (coSymbol c b)).filter
        fun c => c != a && Execution.chosen w (coSymbol c a) := by
    rw [List.filter_filter]
    refine List.filter_congr fun c hc => ?_
    cases hca : c != a && Execution.chosen w (coSymbol c a) with
    | false => rfl
    | true => exact (hmore c hc hca).symm
  rw [predecessors, predecessors, hfilter, List.length_filter_lt_length_iff_exists]
  exact ⟨a, List.mem_filter.2 ⟨ha, hself⟩, by simp⟩

/-- An order of writes by the number before them, and then by their nodes. -/
theorem rank_lt (ha : a ∈ g.writesTo y) (hb : b ∈ g.writesTo y) (hab : x.co a b) :
    predecessors w (g.writesTo y) a < predecessors w (g.writesTo y) b ∨
      predecessors w (g.writesTo y) a = predecessors w (g.writesTo y) b ∧ a < b := by
  by_cases hi : isInit g a = true
  · have hne : a ≠ b := by
      rintro rfl
      exact h.proper.irrefl a hab
    have hsame := EventGraph.mem_writesSameVar_of_writesTo ha hb
    have hlt := h.first a b (write_of_writesTo ha) hsame hi hne
    rw [h.predecessors_initial ha hi]
    omega
  · exact .inl (h.predecessors_lt ha hb (Bool.eq_false_iff.2 hi) hab)

end Follows

theorem coherenceOrder_perm (w : Assignment) (ws : List Nat) : (coherenceOrder w ws).Perm ws := by
  have hperm := (List.mergeSort_perm (ws.map fun a => (predecessors w ws a, a))
    fun a b => a.1 < b.1 || (a.1 == b.1 && a.2 ≤ b.2)).map Prod.snd
  rwa [List.map_map, show Prod.snd ∘ (fun a => (predecessors w ws a, a)) = id from rfl,
    List.map_id] at hperm

theorem coherenceOrder_sorted (w : Assignment) (ws : List Nat) :
    (coherenceOrder w ws).Pairwise fun a b => predecessors w ws a < predecessors w ws b ∨
      predecessors w ws a = predecessors w ws b ∧ a ≤ b := by
  have hsorted := @List.pairwise_mergeSort (Nat × Nat)
    (fun a b => a.1 < b.1 || (a.1 == b.1 && a.2 ≤ b.2))
    (fun a b c hab hbc => by
      simp only [Bool.or_eq_true, Bool.and_eq_true, decide_eq_true_eq, beq_iff_eq] at hab hbc ⊢
      omega)
    (fun a b => by
      simp only [Bool.or_eq_true, Bool.and_eq_true, decide_eq_true_eq, beq_iff_eq]
      omega)
    (ws.map fun a => (predecessors w ws a, a))
  refine List.pairwise_map.2 (hsorted.imp_of_mem fun {p q} hp hq hle => ?_)
  obtain ⟨a, -, rfl⟩ := List.mem_map.1 (List.mem_mergeSort.1 hp)
  obtain ⟨b, -, rfl⟩ := List.mem_map.1 (List.mem_mergeSort.1 hq)
  simpa only [Bool.or_eq_true, Bool.and_eq_true, decide_eq_true_eq, beq_iff_eq] using hle

namespace Follows
variable (h : Follows g w x)
include h

theorem coherenceOrder_pairwise (y : String) :
    (coherenceOrder w (g.writesTo y)).Pairwise x.co := by
  have hperm := coherenceOrder_perm w (g.writesTo y)
  have hnodup : (coherenceOrder w (g.writesTo y)).Nodup := hperm.nodup_iff.2 (writesTo_nodup g y)
  refine (hnodup.and (coherenceOrder_sorted w (g.writesTo y))).imp_of_mem
    fun {a b} ha hb ⟨hne, hle⟩ => ?_
  have ha := hperm.mem_iff.1 ha
  have hb := hperm.mem_iff.1 hb
  have hsame := EventGraph.mem_writesSameVar_of_writesTo ha hb
  rcases h.proper.total a (write_of_writesTo ha) b hsame hne with hab | hba
  · exact hab
  · have hlt := h.rank_lt hb ha hba
    omega

/-- An initial write is the first. -/
theorem coherenceOrder_head (hg : g.Regular) (ha : a ∈ g.writesTo y) :
    ∃ i rest, coherenceOrder w (g.writesTo y) = i :: rest ∧ isInit g i = true := by
  obtain ⟨e, he, -, rfl⟩ := EventGraph.mem_writesTo.1 ha
  obtain ⟨i, d, hd, hid, hv⟩ := hg.initial a e he
  have hi : isInit g i = true := EventGraph.isNode_iff.2 ⟨d, hd, hid⟩
  have hperm := coherenceOrder_perm w (g.writesTo e.var)
  have hmem := hperm.mem_iff.2 (EventGraph.mem_writesTo.2 ⟨d, hd, hg.writes i d hd hid, hv⟩)
  have hpair := h.coherenceOrder_pairwise e.var
  generalize coherenceOrder w (g.writesTo e.var) = order at hmem hpair
  cases order with
  | nil => exact absurd hmem (by simp)
  | cons b rest =>
    refine ⟨b, rest, rfl, ?_⟩
    rcases List.mem_cons.1 hmem with rfl | hrest
    · exact hi
    · have hbi := (List.pairwise_cons.1 hpair).1 i hrest
      rw [Choice.not_init_of_co h.proper hbi] at hi
      exact absurd hi (by decide)

end Follows
end Execution
end Consistency
