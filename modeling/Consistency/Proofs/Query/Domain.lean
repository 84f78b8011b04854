import Consistency.Proofs.Query.Execution
import Consistency.Proofs.Query.Values
import Consistency.Proofs.Relation.Paths
import Consistency.Proofs.Term.Domain

/-!
# Domains of reads

When the search for the values of reads ends, no write can add a value to them.
In an execution where no read feeds the write it takes its value from, all
reads then see values found by the search.
-/

set_option autoImplicit false

namespace Consistency
open Query

/-- The write that `r` takes its value from stores a term over the value of `s`. -/
def Choice.Needs (g : EventGraph) (x : Choice) (r s : Nat) : Prop :=
  ∃ w e, x.rf w r ∧ g.event? s = some e ∧ e.isRead = true ∧ e.symbol ∈ (valueAt g w).consts

def Choice.Grounded (g : EventGraph) (x : Choice) : Prop :=
  ∀ r, ¬ Relation.TransGen (x.Needs g) r r

theorem Choice.Grounded.wellFounded {g : EventGraph} {x : Choice} (h : x.Grounded g) :
    WellFounded (flip (x.Needs g)) :=
  wellFounded_of_acyclic (fun _ _ ⟨_, _, _, he, _⟩ => EventGraph.lt_size he) h

def Choice.Feeds (g : EventGraph) (x : Choice) (v : Valuation) : Prop :=
  ∀ r ∈ g.reads, ∃ w ∈ g.writesSameVar r, x.rf w r ∧ ∃ n,
    (valueAt g r).Computes v.environment n ∧ (valueAt g w).Computes v.environment n

theorem Choice.Proper.feeds {g : EventGraph} {x : Choice} {v : Valuation} (hx : x.Proper g)
    (hflow : ∀ w r, x.rf w r → ∃ n, (valueAt g r).Computes v.environment n ∧
      (valueAt g w).Computes v.environment n) : x.Feeds g v := by
  intro r hr
  obtain ⟨w, hrf, -⟩ := hx.sourced r hr
  exact ⟨w, (hx.source w r hrf).2, hrf, hflow w r hrf⟩

namespace Query
variable {g : EventGraph} {v : Valuation} {domains symbols vars : OrderedMap String Values}

theorem contribute_unchanged {es : List Event} {changed : Bool}
    {after : OrderedMap String Values}
    (h : contribute symbols es vars changed = some (after, false)) : changed = false ∧
      valuesOf after = valuesOf vars ∧ ∀ e ∈ es, ∃ values,
        possibleValues e.valueTerm symbols = some values ∧
          values.toList ⊆ (valuesOf vars e.var).toList := by
  induction es generalizing vars changed with
  | nil =>
    obtain ⟨rfl, rfl⟩ := Prod.mk.inj (Option.some.inj h)
    exact ⟨rfl, rfl, by simp⟩
  | cons e es ih =>
    simp only [contribute, Option.bind_eq_bind, Option.bind_eq_some_iff] at h
    obtain ⟨values, hvalues, h⟩ := h
    split at h
    · exact absurd h (by simp)
    · obtain ⟨hchanged, hafter, hrest⟩ := ih h
      rw [Bool.or_eq_false_iff] at hchanged
      have hsize : ((valuesOf vars e.var).insertMany values.toList).size =
          (valuesOf vars e.var).size := by simpa [valuesOf] using hchanged.2
      have hkept := OrderedSet.insertMany_eq_self hsize
      have hsame : valuesOf (vars.insert e.var ((valuesOf vars e.var).insertMany values.toList)) =
          valuesOf vars := by
        funext x
        rw [valuesOf, OrderedMap.get?_insert, hkept]
        by_cases hx : x = e.var
        · simp [hx]
        · simp [hx, valuesOf]
      have hsub : values.toList ⊆ (valuesOf vars e.var).toList := by
        intro n hn
        rw [← hkept]
        exact OrderedSet.mem_insertMany.2 (.inl hn)
      rw [← valuesOf, hsame] at hafter hrest
      exact ⟨hchanged.1, hafter, List.forall_mem_cons.2 ⟨⟨values, hvalues, hsub⟩, hrest⟩⟩

theorem observeAll_other {es : List Event} {x : String} (h : x ∉ es.map Event.symbol) :
    (es.foldl (fun m e => m.insert e.symbol (valuesOf vars e.var)) symbols).get? x =
      symbols.get? x := by
  induction es generalizing symbols with
  | nil => rfl
  | cons e es ih =>
    rw [List.map_cons, List.mem_cons, not_or] at h
    rw [List.foldl_cons, ih h.2, OrderedMap.get?_insert, if_neg (by simpa using h.1)]

theorem observeAll_read {es : List Event} (hn : (es.map Event.symbol).Nodup) {e : Event}
    (he : e ∈ es) :
    (es.foldl (fun m e => m.insert e.symbol (valuesOf vars e.var)) symbols).get? e.symbol =
      some (valuesOf vars e.var) := by
  induction es generalizing symbols with
  | nil => exact absurd he (by simp)
  | cons d es ih =>
    rw [List.map_cons, List.nodup_cons] at hn
    rw [List.foldl_cons]
    rcases List.mem_cons.1 he with rfl | he
    · rw [observeAll_other hn.1, OrderedMap.get?_insert, if_pos (by simp)]
    · exact ih hn.2 he

structure Settled (g : EventGraph) (domains : OrderedMap String Values)
    (vars : OrderedMap String Values) : Prop where
  reads : ∀ e ∈ readsOf g, domains.get? e.symbol = some (valuesOf vars e.var)
  writes : ∀ e ∈ writesOf g, ∃ values, possibleValues e.valueTerm domains = some values ∧
    values.toList ⊆ (valuesOf vars e.var).toList
  others : ∀ x ∉ readSymbols g, domains.get? x = (statedDomains g).get? x

theorem settled_of_iterate (hn : (readSymbols g).Nodup) {rounds : Nat}
    (hs : ∀ x ∉ readSymbols g, symbols.get? x = (statedDomains g).get? x)
    (h : iterate g rounds vars symbols = some domains) : ∃ vars, Settled g domains vars := by
  induction rounds generalizing vars symbols with
  | zero => exact absurd h (by simp [iterate])
  | succ rounds ih =>
    simp only [iterate, Option.bind_eq_bind, Option.bind_eq_some_iff] at h
    obtain ⟨⟨after, changed⟩, hround, h⟩ := h
    have hothers : ∀ x ∉ readSymbols g,
        (observe g vars symbols).get? x = (statedDomains g).get? x := fun x hx =>
      (observeAll_other hx).trans (hs x hx)
    cases changed with
    | true => exact ih hothers h
    | false =>
      obtain rfl := Option.some.inj h
      obtain ⟨-, -, hwrites⟩ := contribute_unchanged hround
      exact ⟨vars, fun e he => observeAll_read hn he, hwrites, hothers⟩

theorem statedDomains_inside (hc : ∀ t ∈ g.constraints, t.Decides v.environment true)
    (x : String) : Inside (statedDomains g) v x := by
  intro values hx
  obtain ⟨⟨y, ns⟩, hd, he⟩ := List.mem_map.1 (OrderedMap.mem_of_get?_ofList hx)
  obtain ⟨rfl, rfl⟩ := Prod.mk.inj he
  obtain ⟨t, ht, hdom⟩ := List.mem_filterMap.1 hd
  obtain ⟨n, hn, hv⟩ := Term.domain?_sound hdom (hc t ht)
  obtain rfl := Value.int.inj (Option.some.inj hv)
  exact OrderedSet.mem_ofList.2 hn

theorem mem_readsOf {e : Event} :
    e ∈ readsOf g ↔ ∃ r, g.event? r = some e ∧ e.isRead = true := by
  rw [readsOf, List.mem_filter, Array.mem_toList_iff, Array.mem_iff_getElem?]
  constructor
  · intro h
    obtain ⟨r, hr⟩ := h.1
    exact ⟨r, hr, h.2⟩
  · intro h
    obtain ⟨r, hr, hread⟩ := h
    exact ⟨⟨r, hr⟩, hread⟩

theorem mem_writesOf {e : Event} {w : Nat} (he : g.event? w = some e) (hw : e.isWrite = true) :
    e ∈ writesOf g :=
  List.mem_filter.2 ⟨Array.mem_toList_iff.2 (Array.mem_of_getElem? he), hw⟩

/-- By induction on what reads need: the write a read sees stores a value that is known to be
possible, as the reads it is computed from see possible values. -/
theorem read_inside {x : Choice} {vars : OrderedMap String Values} (hg : g.Symbolic)
    (hx : x.Feeds g v) (hd : Settled g domains vars)
    (hc : ∀ t ∈ g.constraints, t.Decides v.environment true) (hground : x.Grounded g) (r : Nat) :
    ∀ e, g.event? r = some e → e.isRead = true → v e.symbol ∈ (valuesOf vars e.var).toList := by
  induction r using hground.wellFounded.induction with
  | _ r ih =>
    intro e he hr
    obtain ⟨w, hsame, hrf, n, hn, hstored⟩ := hx r (EventGraph.mem_reads.2 ⟨e, he, hr⟩)
    obtain ⟨e', d, he', hw, hdw, hvar⟩ := EventGraph.mem_writesSameVar.1 hsame
    obtain rfl := Option.some.inj (he.symm.trans he')
    rw [valueAt_of_read hg he hr] at hn
    obtain rfl : v e.symbol = n := Value.int.inj (Option.some.inj hn)
    obtain ⟨values, hvalues, hsub⟩ := hd.writes d (mem_writesOf hw hdw)
    have hterm : valueAt g w = d.valueTerm := by rw [valueAt, hw]
    rw [hterm] at hstored
    have hin : ∀ y ∈ d.valueTerm.consts, Inside domains v y := by
      intro y hy
      by_cases hread : y ∈ readSymbols g
      · obtain ⟨f, hf, rfl⟩ := List.mem_map.1 hread
        obtain ⟨s, hs, hfr⟩ := mem_readsOf.1 hf
        have hneeds : x.Needs g r s := ⟨w, f, hrf, hs, hfr, by rwa [hterm]⟩
        intro known hknown
        rw [hd.reads f hf] at hknown
        obtain rfl := Option.some.inj hknown
        exact ih s hneeds f hs hfr
      · intro known hknown
        rw [hd.others y hread] at hknown
        exact statedDomains_inside hc y known hknown
    have hmem := hsub (mem_possibleValues hvalues hin hstored)
    rwa [hvar]

theorem domains_of_grounded {x : Choice} (hg : g.Symbolic) (hn : (readSymbols g).Nodup)
    (hx : x.Feeds g v) (hc : ∀ t ∈ g.constraints, t.Decides v.environment true)
    (hground : x.Grounded g) (h : valueDomains g = some domains) : ∀ symbol ∈ readSymbols g,
      ∃ values, domains.get? symbol = some values ∧ v symbol ∈ values.toList := by
  obtain ⟨vars, hd⟩ := settled_of_iterate hn (fun _ _ => rfl) h
  intro symbol hs
  obtain ⟨e, he, rfl⟩ := List.mem_map.1 hs
  obtain ⟨r, hr, hread⟩ := mem_readsOf.1 he
  exact ⟨_, hd.reads e he, read_inside hg hx hd hc hground r e hr hread⟩

end Query
end Consistency
