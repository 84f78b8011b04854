import Consistency.Proofs.Check.Position
import Consistency.Proofs.Graph.Place
import Consistency.Proofs.Query.Adequacy

/-!
# The graph of an execution

A terminal state that has made all moves of an execution has its events in the
same order. What the execution shows of the events, the graph of the state shows
as well, so that the query about it can be satisfied.
-/

set_option autoImplicit false

namespace Consistency
open Query

namespace Scenario
open Consistency.Composition EventGraph
variable {x : Scenario} {c : Composition} {p : Precision} {m : MemoryModel} {o : Outcome}
  {v : Valuation} {u : GlobalState}

def Before (a b : Occurrence) : Prop := comesFirst b.event a.event = false

theorem before_of_rank {a b : Occurrence} {i j k i' j' k' : Nat} (ha : rank a.event = (i, j, k))
    (hb : rank b.event = (i', j', k')) (h : i < i' ∨ i = i' ∧ (j < j' ∨ j = j' ∧ k < k')) :
    Before a b := by
  rw [Before, Bool.eq_false_iff, ne_eq, comesFirst_iff, ha, hb]
  simp only
  omega

theorem initialOccurrences_before (c : Composition) : c.initialOccurrences.Pairwise Before := by
  refine List.pairwise_iff_getElem.2 fun i j hi hj hij => ?_
  have hrank : ∀ k (hk : k < c.initialOccurrences.length),
      rank c.initialOccurrences[k].event = (0, 0, k) := by
    intro k hk
    simp [initialOccurrences, rank, Event.make]
  exact before_of_rank (hrank i hi) (hrank j hj) (.inr ⟨rfl, .inr ⟨rfl, hij⟩⟩)

theorem rank_of_mem {t : Thread} {a : Occurrence} (h : a ∈ x.occurrencesOf p t) :
    rank a.event = (1, t.id, a.event.index) :=
  rank_thread (Thread.occurrences_position h).1

theorem occurrences_before (x : Scenario) (p : Precision) (hn : c.Numbered) :
    (x.occurrences c p).Pairwise Before := by
  refine List.pairwise_append.2 ⟨initialOccurrences_before c, ?_, fun a ha b hb => ?_⟩
  · refine List.pairwise_flatMap.2 ⟨fun t _ => ?_, hn.increasing.imp fun {s t} hlt a ha b hb => ?_⟩
    · refine (Thread.occurrences_increasing t p _ _).imp_of_mem fun {a b} ha hb hlt => ?_
      exact before_of_rank (rank_of_mem ha) (rank_of_mem hb) (.inr ⟨rfl, .inr ⟨rfl, hlt⟩⟩)
    · exact before_of_rank (rank_of_mem ha) (rank_of_mem hb) (.inr ⟨rfl, .inl hlt⟩)
  · obtain ⟨⟨⟨y, n⟩, i⟩, -, rfl⟩ := List.mem_map.1 ha
    obtain ⟨t, -, hb⟩ := List.mem_flatMap.1 hb
    exact before_of_rank (rank_init rfl) (rank_of_mem hb) (.inl Nat.one_pos)

theorem shapes_graph (x : Scenario) (c : Composition) (p : Precision) :
    (x.graph c p).shapes = ((x.occurrences c p).map Occurrence.event).map Event.shape := rfl

/-- A state that has made all moves has the graph of the execution. -/
theorem At.shapes_eq {pos : Nat → Nat} (h : x.At c p v pos u) (hn : c.Numbered)
    (hdone : ∀ t ∈ c.threads, pos t.id = (x.moves t.id).length) :
    (ofState c u).shapes = (x.graph c p).shapes := by
  rw [shapes_graph]
  refine shapes_ofState c ?_ (List.pairwise_map.2 (occurrences_before x p hn))
  have hall : c.threads.flatMap (x.shapesAt p pos) =
      (c.threads.flatMap (x.occurrencesOf p)).map fun o => o.event.shape := by
    rw [List.map_flatMap]
    refine List.flatMap_congr fun t ht => ?_
    rw [shapesAt, hdone t ht, List.take_length]
    rfl
  rw [List.map_map, occurrences, List.map_append]
  have hshapes := h.shapes
  rw [hall] at hshapes
  exact hshapes

theorem value?_computes (hx : x.Exhibits c p m o) (hv : x.Recalled c p v) {a : Nat} {n : Int}
    (h : x.value? c p a = some n) : (valueAt (x.graph c p) a).Computes v.environment n := by
  obtain ⟨b, hb, rfl⟩ := Option.map_eq_some_iff.1 h
  have hevent : (x.graph c p).event? a = some b.event := by
    simp [event?, graph, hb]
  rw [valueAt, hevent]
  rcases List.mem_append.1 (List.mem_of_getElem? hb) with hmem | hmem
  · obtain ⟨⟨⟨y, k⟩, i⟩, -, rfl⟩ := List.mem_map.1 hmem
    exact Term.computes_int _ k
  · obtain ⟨t, ht, hmem⟩ := List.mem_flatMap.1 hmem
    obtain ⟨μ, hμ, -, -⟩ := hx.ends t ht
    exact Thread.occurrences_compute (LocalState.start_agrees v _) (hv t ht) hμ b hmem

theorem exists_value {a : Nat} {e : Event} (h : (x.graph c p).event? a = some e) :
    ∃ n, x.value? c p a = some n := by
  have hlt : a < (x.occurrences c p).length := by simpa [graph, size] using lt_size h
  exact ⟨_, by rw [value?, List.getElem?_eq_getElem hlt]; rfl⟩

/-- The local state of a thread that has made all moves. -/
theorem At.final {pos : Nat → Nat} (h : x.At c p v pos u) (hx : x.Exhibits c p m o)
    (hv : x.Recalled c p v) (hdone : ∀ t ∈ c.threads, pos t.id = (x.moves t.id).length) {i : Nat}
    {t : Thread} {l : LocalState} (ht : c.threads[i]? = some t) (hl : u.locals[i]? = some l) :
    ∃ μ, x.machine? t = some μ ∧ l.Agrees v μ ∧ t.automaton.isFinal l.location = true ∧
      t.isTerminated l = true := by
  have hmem := List.mem_of_getElem? ht
  obtain ⟨hbare, -⟩ := h.locals i t l ht hl
  obtain ⟨μ, hμ, hfinal, hterminal⟩ := hx.ends t hmem
  rw [stateAt, hdone t hmem, List.take_length] at hbare
  have hagrees : l.bare.Agrees v μ := by
    rw [hbare]
    exact Thread.trackAll_agrees (LocalState.start_agrees v _) (hv t hmem) hμ
  have hlocation : l.location = μ.location := hagrees.location
  refine ⟨μ, hμ, ⟨hlocation, hagrees.registers⟩, ?_, ?_⟩
  · rw [hlocation]
    exact hfinal
  · rw [Thread.isTerminated, hlocation]
    exact hterminal

/-- The state is asked about. -/
theorem At.terminal {pos : Nat → Nat} (h : x.At c p v pos u) (hx : x.Exhibits c p m o)
    (hv : x.Recalled c p v) (hdone : ∀ t ∈ c.threads, pos t.id = (x.moves t.id).length)
    (hu : c.Tidy u) : u.isTerminal = true ∧ Exploration.endsInFinal c u = true := by
  refine ⟨hu.isTerminal_iff.2 fun i t l ht hl => ?_, List.all_eq_true.2 fun z hz => ?_⟩
  · obtain ⟨μ, -, -, -, hterm⟩ := h.final hx hv hdone ht hl
    exact hterm
  · obtain ⟨t, l⟩ := z
    obtain ⟨i, hi⟩ := List.mem_iff_getElem?.1 hz
    obtain ⟨ht, hl⟩ := List.getElem?_zip_eq_some.1 hi
    obtain ⟨μ, -, -, hfinal, -⟩ := h.final hx hv hdone ht hl
    exact hfinal

theorem At.ends {pos : Nat → Nat} (h : x.At c p v pos u) (hx : x.Exhibits c p m o)
    (hv : x.Recalled c p v) (hdone : ∀ t ∈ c.threads, pos t.id = (x.moves t.id).length)
    (hu : c.Tidy u) (hshape : (ofState c u).shapes = (x.graph c p).shapes) {a : Atom}
    (ha : x.Ends c p a) : a.Ends (ofState c u) x.choice v := by
  cases a with
  | register i reg n =>
    obtain ⟨t, μ, ht, hμ, rfl⟩ := ha
    have hi : i < u.locals.length := hu.length ▸ (List.getElem?_eq_some_iff.1 ht).1
    have hl := List.getElem?_eq_getElem hi
    obtain ⟨μ', hμ', hagrees, -, -⟩ := h.final hx hv hdone ht hl
    obtain rfl := Option.some.inj (hμ.symm.trans hμ')
    refine ⟨u.locals[i].register reg, ?_, hagrees.registers reg⟩
    rw [registerTerm, ofState, List.getElem?_map, hl]
    rfl
  | memory y n =>
    obtain ⟨w, hw, hlast, hvalue⟩ := ha
    rw [Atom.Ends, writesTo_eq (layout_of_shapes hshape), valueAt_eq hshape]
    exact ⟨w, hw, hlast, value?_computes hx hv hvalue⟩

theorem At.realizes {pos : Nat → Nat} (h : x.At c p v pos u) (hn : c.Numbered)
    (hc : c.Initialized) (hx : x.Exhibits c p m o) (hv : x.Recalled c p v)
    (hdone : ∀ t ∈ c.threads, pos t.id = (x.moves t.id).length) (hu : c.Reachable p u)
    (hground : x.choice.Grounded (x.graph c p)) :
    Evaluates (ofState c u) v ∧ x.choice.Realizes (ofState c u) m o v := by
  have hshape := h.shapes_eq hn hdone
  have hlayout := layout_of_shapes hshape
  have htidy := tidy_of_reachable hn hu
  have hproper : x.choice.Proper (ofState c u) := hx.proper.alike hlayout.symm
  have hconstraints : ∀ t ∈ (ofState c u).constraints, t.Decides v.environment true := by
    intro t ht
    obtain ⟨l, hl, ht⟩ := GlobalState.mem_constraints.1 ht
    obtain ⟨i, hi⟩ := List.mem_iff_getElem?.1 hl
    have hlt : i < c.threads.length := htidy.length ▸ (List.getElem?_eq_some_iff.1 hi).1
    exact (h.locals i _ l (List.getElem?_eq_getElem hlt) hi).2 t ht
  have hflow : ∀ w r, x.choice.rf w r → ∃ n, (valueAt (ofState c u) r).Computes v.environment n ∧
      (valueAt (ofState c u) w).Computes v.environment n := by
    intro w r hrf
    obtain ⟨e, he, -⟩ := mem_reads.1 (hx.proper.source w r hrf).1
    obtain ⟨n, hvalue⟩ := exists_value he
    rw [valueAt_eq hshape]
    exact ⟨n, value?_computes hx hv hvalue, value?_computes hx hv ((hx.loads w r hrf).trans hvalue)⟩
  refine ⟨fun w hw => ?_, hproper, hflow, hx.admitted.alike hlayout.symm, hconstraints, ?_, ?_⟩
  · rw [writes_eq hlayout] at hw
    obtain ⟨e, he, -⟩ := mem_writes.1 hw
    obtain ⟨n, hvalue⟩ := exists_value he
    rw [valueAt_eq hshape]
    exact ⟨n, value?_computes hx hv hvalue⟩
  · intro domains hdomains symbol hs
    obtain ⟨values, hvalues, hmem⟩ := domains_of_grounded (symbolic_ofState hu)
      (EventGraph.readSymbols_nodup hn hc hu) (hproper.feeds hflow) hconstraints
      (hground.alike hshape.symm) hdomains symbol hs
    rw [hvalues]
    exact hmem
  · exact fun a ha => h.ends hx hv hdone htidy hshape (hx.outcome a ha)

/-- Symbols can stand for what the execution reads and picks. -/
theorem exists_recalled (hn : c.Numbered) (hx : x.Exhibits c p m o) :
    ∃ v, x.Recalled c p v := by
  obtain ⟨v, hpicked, hseen⟩ := exists_valuation
    (fun q => ((x.moves q.1)[q.2]?.map Move.value).getD 0)
    fun q => ((c.threads[q.1]?.bind fun t => (x.occurrencesOf p t)[q.2]?).map
      Occurrence.value).getD 0
  refine ⟨v, fun t ht => ?_⟩
  obtain ⟨i, hi⟩ := List.mem_iff_getElem?.1 ht
  obtain ⟨μ, hμ, -, -⟩ := hx.ends t ht
  refine Thread.recallsAll_of_numbered hμ (fun k m hk => ?_) fun k b hb => ?_
  · rw [hpicked]
    simp [Thread.initialState, LocalState.start, hk]
  · have hi : c.threads[t.id]? = some t := by rwa [hn i t hi]
    have hb : (x.occurrencesOf p t)[k]? = some b := hb
    rw [hseen]
    simp [Thread.initialState, LocalState.start, hi, hb]

end Scenario
end Consistency
