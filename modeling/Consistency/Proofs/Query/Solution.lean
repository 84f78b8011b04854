import Consistency.Proofs.Graph.Coherence
import Consistency.Proofs.Graph.Place
import Consistency.Proofs.Query.Adequacy
import Consistency.Proofs.Solver.FiniteDomain

/-!
# Executions read off solutions

What the solver finds for a query is read back into an execution: the sources
of reads, an order of the writes to each variable, and values. The execution is
the one that the query asks for.
-/

set_option autoImplicit false

namespace Consistency
open Query

namespace Assignment
variable {w : Assignment} {name : String} {n : Int}

theorem environment_bool {b : Bool} :
    w.environment name = some (.bool b) ↔ w.getBool? name = some b := by
  unfold environment getBool?
  cases w.get? name with
  | none => simp
  | some text =>
    simp only [Option.bind_some, readValue]
    cases readBool text with
    | none => cases readInt text <;> simp
    | some c => simp

theorem getInt?_of_environment (h : w.environment name = some (.int n)) :
    w.getInt? name = some n := by
  unfold environment at h
  unfold getInt?
  cases hg : w.get? name with
  | none => simp [hg] at h
  | some text =>
    simp only [hg, Option.bind_some, readValue] at h ⊢
    cases hb : readBool text with
    | none => simpa [hb] using h
    | some c => simp [hb] at h

end Assignment

namespace Execution
variable {g : EventGraph} {w : Assignment} {y : String} {a b : Nat}

theorem coherenceOf_nodup (g : EventGraph) (w : Assignment) : (coherenceOf g w).keys.Nodup := by
  have hsub := (List.filter_sublist (p := fun e : String × List Nat => !e.2.isEmpty)
    (l := g.sharedVars.toList.map fun x => (x, coherenceOrder w (g.writesTo x)))).map Prod.fst
  rw [List.map_map, show Prod.fst ∘ (fun x => (x, coherenceOrder w (g.writesTo x))) = id from rfl,
    List.map_id] at hsub
  exact hsub.nodup (OrderedSet.ofList_nodup _)

theorem get?_coherenceOf {order : List Nat} : (coherenceOf g w).get? y = some order ↔
    y ∈ g.sharedVars.toList ∧ order = coherenceOrder w (g.writesTo y) ∧ order ≠ [] := by
  rw [OrderedMap.get?, lookup_eq_some_iff (coherenceOf_nodup g w)]
  simp only [coherenceOf, List.mem_filter, List.mem_map, Prod.mk.injEq, Bool.not_eq_true',
    List.isEmpty_eq_false_iff]
  constructor
  · rintro ⟨⟨z, hz, rfl, rfl⟩, hne⟩
    exact ⟨hz, rfl, hne⟩
  · rintro ⟨hy, rfl, hne⟩
    exact ⟨⟨y, hy, rfl, rfl⟩, hne⟩

theorem mem_coEdges : (a, b) ∈ (ofAssignment g w).coEdges ↔ ∃ y ∈ g.sharedVars.toList,
    (a, b) ∈ (coherenceOrder w (g.writesTo y)).zip (coherenceOrder w (g.writesTo y)).tail := by
  rw [coEdges, List.mem_flatMap]
  constructor
  · rintro ⟨order, horder, hab⟩
    obtain ⟨⟨y, order⟩, he, rfl⟩ := List.mem_map.1 horder
    obtain ⟨hy, rfl, -⟩ := get?_coherenceOf.1 ((lookup_eq_some_iff (coherenceOf_nodup g w)).2 he)
    exact ⟨y, hy, hab⟩
  · rintro ⟨y, hy, hab⟩
    refine ⟨_, List.mem_map.2 ⟨(y, coherenceOrder w (g.writesTo y)), ?_, rfl⟩, hab⟩
    refine mem_of_lookup (get?_coherenceOf.2 ⟨hy, rfl, ?_⟩)
    rintro hnil
    simp [hnil] at hab

theorem chosen_iff {w : Assignment} {name : String} :
    chosen w name = true ↔ (Term.const name).Decides w.environment true := by
  rw [chosen, beq_iff_eq, ← Assignment.environment_bool]
  rfl

theorem mem_rf {r : Nat} : (a, r) ∈ (ofAssignment g w).rf ↔
    (Choice.ofEnvironment g w.environment).rf a r := by
  simp only [ofAssignment, readsFrom, List.mem_map, List.mem_filter, chosen_iff, Prod.mk.injEq]
  constructor
  · rintro ⟨⟨r', a'⟩, hmem, rfl, rfl⟩
    exact hmem
  · exact fun hmem => ⟨(r, a), hmem, rfl, rfl⟩

theorem rf_nodup (g : EventGraph) (w : Assignment) : (ofAssignment g w).rf.Nodup := by
  have hcandidates : g.rfCandidates.Nodup := by
    refine List.nodup_flatMap.2 ⟨fun r _ => ?_, ?_⟩
    · exact (writesSameVar_nodup g r).map fun a b hab => (Prod.mk.inj hab).2
    · refine (List.nodup_range.filter _).imp fun {r s} hne p hp hp' => ?_
      obtain ⟨a, -, rfl⟩ := List.mem_map.1 hp
      obtain ⟨b, -, hb⟩ := List.mem_map.1 hp'
      exact hne (Prod.mk.inj hb).1.symm
  exact (hcandidates.filter _).map fun p q hpq => Prod.ext (Prod.mk.inj hpq).2 (Prod.mk.inj hpq).1

theorem intOf_eq_some {env : Environment} {t : Term} {n : Int} :
    intOf env t = some n ↔ t.Computes env n := by
  rw [intOf, Option.bind_eq_some_iff]
  simp only [Value.int?_eq_some, Term.Computes]
  constructor
  · rintro ⟨u, hu, rfl⟩
    exact hu
  · exact fun ht => ⟨_, ht, rfl⟩

/-- The value of the last write of an order. -/
theorem get?_finalMemory (g : EventGraph) (w : Assignment) (y : String) :
    (ofAssignment g w).finalMemory.get? y = ((ofAssignment g w).coherence.get? y).bind
      fun order => order.getLast?.bind (ofAssignment g w).writeValues.get? := by
  refine Eq.trans ?_ (OrderedMap.get?_filterMap_entries (coherenceOf_nodup g w) _ y)
  refine congrArg (fun es => (⟨es⟩ : OrderedMap String Int).get? y) ?_
  refine congrArg (List.filterMap · (coherenceOf g w).entries) (funext fun e => ?_)
  show (e.2.getLast?.bind fun last => _) = _
  cases e.2.getLast? with
  | none => rfl
  | some last =>
    show ((ofAssignment g w).writeValues.get? last).bind _ = _
    rw [Option.bind_some]
    cases (ofAssignment g w).writeValues.get? last <;> rfl

theorem get?_writeValues (ha : a ∈ g.writes) : (ofAssignment g w).writeValues.get? a =
    ((g.event? a).bind Event.value).bind
      (intOf (environment w (readEntries g w (readsFrom g w)))) := by
  have hnodup : (g.writes.map id).Nodup := by
    rw [List.map_id]
    exact List.nodup_range.filter _
  refine (OrderedMap.get?_filterMap (k := id) (fun s d hd => ?_) hnodup ha).trans ?_
  · obtain ⟨_, -, hd⟩ := Option.bind_eq_some_iff.1 hd
    obtain ⟨_, -, hd⟩ := Option.bind_eq_some_iff.1 hd
    obtain ⟨_, -, hd⟩ := Option.bind_eq_some_iff.1 hd
    rw [← Option.some.inj hd]
    rfl
  · cases he : g.event? a with
    | none => rfl
    | some e =>
      cases ht : e.value with
      | none => simp [ht]
      | some t =>
        simp only [ht, Option.bind_eq_bind, Option.bind_some]
        cases intOf _ t <;> rfl

def choice (x : Execution) : Choice where
  rf a r := (a, r) ∈ x.rf
  co := Relation.TransGen fun a b => (a, b) ∈ x.coEdges

structure WellFormed (m : MemoryModel) (w : Assignment) (x : Execution) : Prop where
  sources : ∀ r ∈ x.graph.reads, ∃ a ∈ x.graph.writesSameVar r,
    x.rf.filter (fun e => e.2 == r) = [(a, r)] ∧
      ∃ n, x.readValues.get? r = some n ∧ x.writeValues.get? a = some n
  orders : ∀ y ∈ x.graph.sharedVars.toList, ∃ i rest, x.coherence.get? y = some (i :: rest) ∧
    isInit x.graph i = true ∧ (i :: rest).Nodup ∧ (∀ a, a ∈ i :: rest ↔ a ∈ x.graph.writesTo y) ∧
      (i :: rest).Pairwise (Choice.ofEnvironment x.graph w.environment).co
  chosen : ∀ a b, Relation.TransGen (fun a b => (a, b) ∈ x.coEdges) a b ↔
    (Choice.ofEnvironment x.graph w.environment).co a b
  stored : ∀ a ∈ x.graph.writes, ∀ n, x.writeValues.get? a = some n ↔
    (valueAt x.graph a).Computes (Valuation.ofEnvironment w.environment).environment n
  memory : ∀ y order, x.coherence.get? y = some order →
    x.finalMemory.get? y = order.getLast?.bind x.writeValues.get?
  admitted : m.Admits x.graph x.choice

end Execution

structure EventGraph.Arranged (g : EventGraph) : Prop where
  regular : g.Regular
  symbolic : g.Symbolic
  stores : ∀ a e, g.event? a = some e → e.isWrite = true → ∃ t, e.value = some t
  first : ∀ a b, a ∈ g.nodes → b ∈ g.nodes → isInit g a = true → isInit g b = false → a < b

namespace Query
variable {g : EventGraph} {m : MemoryModel} {o : Outcome} {w : Assignment} {y : String}
  {a b r : Nat} {n : Int}

structure Solves (g : EventGraph) (m : MemoryModel) (o : Outcome) (w : Assignment) : Prop where
  meets : (Choice.ofEnvironment g w.environment).Meets g m (.ofEnvironment w.environment)
  fits : Fits w.environment g o (.ofEnvironment g w.environment) (.ofEnvironment w.environment)
  outcome : ∀ a ∈ o.atoms, (atomTerm g a).Decides w.environment true
  values : ∀ name ∈ (intSymbols g o).toList,
    w.getInt? name = some (Valuation.ofEnvironment w.environment name)
  unnamed : ∀ a b, Execution.chosen w (coSymbol a b) = true →
    isInit g a = false ∧ isInit g b = false

namespace Solves
variable (h : Solves g m o w) (hg : g.Arranged)
include h hg

theorem follows : Execution.Follows g w (Choice.ofEnvironment g w.environment) where
  proper := h.meets.proper
  chosen := by
    intro a b ha hb hne
    have hc : (a, b) ∈ g.coCandidates := mem_coCandidates.2 ⟨ha, hb, hne⟩
    constructor
    · intro hchosen
      obtain ⟨hia, hib⟩ := h.unnamed a b hchosen
      refine ⟨hia, hc, ?_⟩
      rw [coTerm, hia, hib]
      exact Execution.chosen_iff.1 hchosen
    · rintro ⟨hia, hco⟩
      have hterm := hco.2
      rw [coTerm, hia, Choice.not_init_of_co h.meets.proper hco] at hterm
      exact Execution.chosen_iff.2 hterm
  first := by
    intro a b ha hb hi hne
    have hib := Choice.not_init_of_co h.meets.proper (h.meets.proper.initial a ha hi b hb hne)
    exact hg.first a b (List.mem_of_mem_filter ha)
      (List.mem_of_mem_filter (EventGraph.mem_writes_of_sameVar hb)) hi hib

theorem transGen_coEdges :
    Relation.TransGen (fun a b => (a, b) ∈ (Execution.ofAssignment g w).coEdges) a b ↔
      (Choice.ofEnvironment g w.environment).co a b := by
  have hf := h.follows hg
  constructor
  · intro hab
    induction hab with
    | single hab =>
      obtain ⟨y, -, hab⟩ := Execution.mem_coEdges.1 hab
      exact rel_of_mem_zip_tail (hf.coherenceOrder_pairwise y) hab
    | tail _ hbc ih =>
      obtain ⟨y, -, hbc⟩ := Execution.mem_coEdges.1 hbc
      exact h.meets.proper.trans _ _ _ ih (rel_of_mem_zip_tail (hf.coherenceOrder_pairwise y) hbc)
  · intro hco
    obtain ⟨ha, hb⟩ := h.meets.proper.writes a b hco
    obtain ⟨y, hy, hay, hall⟩ := exists_variable ha
    have hperm := Execution.coherenceOrder_perm w (g.writesTo y)
    have hne : a ≠ b := by
      rintro rfl
      exact h.meets.proper.irrefl a hco
    have hneighbour : ∀ c d, (c, d) ∈ (Execution.coherenceOrder w (g.writesTo y)).zip
        (Execution.coherenceOrder w (g.writesTo y)).tail →
        (c, d) ∈ (Execution.ofAssignment g w).coEdges :=
      fun c d hcd => Execution.mem_coEdges.2 ⟨y, hy, hcd⟩
    -- One of the two is behind the other through neighbours and in coherence order.
    rcases rel_or_rel ((pairwise_transGen_zip_tail _).and (hf.coherenceOrder_pairwise y))
      (hperm.mem_iff.2 hay) (hperm.mem_iff.2 (hall b hb)) hne with ⟨hab, -⟩ | ⟨-, hba⟩
    · exact Relation.TransGen.mono hneighbour a b hab
    · exact absurd hba (h.meets.proper.asymm hco)

theorem orders (hy : y ∈ g.sharedVars.toList) : ∃ i rest,
    (Execution.ofAssignment g w).coherence.get? y = some (i :: rest) ∧ isInit g i = true ∧
      (i :: rest).Nodup ∧ (∀ a, a ∈ i :: rest ↔ a ∈ g.writesTo y) ∧
        (i :: rest).Pairwise (Choice.ofEnvironment g w.environment).co := by
  have hf := h.follows hg
  have hperm := Execution.coherenceOrder_perm w (g.writesTo y)
  obtain ⟨e, he, rfl⟩ := List.mem_map.1 (OrderedSet.mem_ofList.1 hy)
  obtain ⟨a, ha⟩ := Array.mem_iff_getElem?.1 (Array.mem_toList_iff.1 he)
  obtain ⟨k, d, hd, hdi, hv⟩ := hg.regular.initial a e ha
  have hk : k ∈ g.writesTo e.var :=
    EventGraph.mem_writesTo.2 ⟨d, hd, hg.regular.writes k d hd hdi, hv⟩
  obtain ⟨i, rest, horder, hi⟩ := hf.coherenceOrder_head hg.regular hk
  have hpair := hf.coherenceOrder_pairwise e.var
  rw [horder] at hperm hpair
  refine ⟨i, rest, ?_, hi, hperm.nodup_iff.2 (Execution.writesTo_nodup g e.var),
    fun _ => hperm.mem_iff, hpair⟩
  exact Execution.get?_coherenceOf.2 ⟨hy, horder.symm, by simp⟩

omit hg in
theorem filter_rf (ha : (Choice.ofEnvironment g w.environment).rf a r) :
    (Execution.ofAssignment g w).rf.filter (fun e => e.2 == r) = [(a, r)] := by
  have hr := (h.meets.proper.source a r ha).1
  refine List.perm_singleton.1 ((List.perm_ext_iff_of_nodup
    ((Execution.rf_nodup g w).filter _) (List.nodup_singleton _)).2 fun ⟨b, s⟩ => ?_)
  rw [List.mem_filter, List.mem_singleton, beq_iff_eq]
  constructor
  · rintro ⟨hb, rfl⟩
    rw [(h.meets.proper.sourced s hr).unique (Execution.mem_rf.1 hb) ha]
  · intro he
    obtain ⟨rfl, rfl⟩ := Prod.mk.inj he
    exact ⟨Execution.mem_rf.2 ha, rfl⟩

omit hg in
/-- Read and chosen values stand for the integer symbols. -/
theorem environment_eq {name : String} (hn : name ∈ (intSymbols g o).toList)
    (entries : List (Nat × String × Int)) : Execution.environment w entries name =
      (Valuation.ofEnvironment w.environment).environment name := by
  simp [Execution.environment, h.values name hn, Valuation.environment]

omit hg in
theorem eval_environment {t : Term} (ht : Speaks g o t) (entries : List (Nat × String × Int)) :
    t.eval (Execution.environment w entries) =
      t.eval (Valuation.ofEnvironment w.environment).environment :=
  Term.eval_congr t fun name hn => h.environment_eq (ht.mem_intSymbols name hn) entries

theorem get?_readValues {e : Event} (he : g.event? r = some e) (hr : e.isRead = true) :
    (Execution.ofAssignment g w).readValues.get? r =
      some (Valuation.ofEnvironment w.environment e.symbol) := by
  have hvalue := h.values e.symbol (symbol_mem_intSymbols hg.symbolic he hr)
  have hnodup : (g.reads.map id).Nodup := by
    rw [List.map_id]
    exact List.nodup_range.filter _
  rw [Execution.ofAssignment, Execution.readEntries, List.map_filterMap]
  refine (OrderedMap.get?_filterMap (k := id) (fun s d hd => ?_) hnodup
    (EventGraph.mem_reads.2 ⟨e, he, hr⟩)).trans ?_
  · obtain ⟨entry, hentry, rfl⟩ := Option.map_eq_some_iff.1 hd
    obtain ⟨_, -, hentry⟩ := Option.bind_eq_some_iff.1 hentry
    obtain ⟨_, -, hentry⟩ := Option.bind_eq_some_iff.1 hentry
    obtain ⟨_, -, hentry⟩ := Option.bind_eq_some_iff.1 hentry
    rw [← Option.some.inj hentry]
    rfl
  · simp [he, Event.symbol?, hr, Execution.readValue, hvalue]

theorem get?_writeValues (ha : a ∈ g.writes) :
    (Execution.ofAssignment g w).writeValues.get? a = some n ↔
      (valueAt g a).Computes (Valuation.ofEnvironment w.environment).environment n := by
  obtain ⟨e, he, hw⟩ := EventGraph.mem_writes.1 ha
  obtain ⟨t, ht⟩ := hg.stores a e he hw
  have hvalue : valueAt g a = t := by
    simp only [valueAt, he, Event.valueTerm, ht]
  have hspeaks := speaks_valueAt (o := o) he
  rw [hvalue] at hspeaks
  rw [Execution.get?_writeValues ha, he, Option.bind_some, ht, Option.bind_some,
    Execution.intOf_eq_some, hvalue, Term.Computes, h.eval_environment hspeaks, ← Term.Computes]

theorem choice_eq : (Execution.ofAssignment g w).choice = .ofEnvironment g w.environment := by
  rw [Execution.choice, Choice.ofEnvironment, Choice.mk.injEq]
  exact ⟨funext fun a => funext fun r => propext Execution.mem_rf,
    funext fun a => funext fun b => propext (h.transGen_coEdges hg)⟩

theorem wellFormed : (Execution.ofAssignment g w).WellFormed m w where
  sources := by
    intro r hr
    obtain ⟨a, hrf, -⟩ := h.meets.proper.sourced r hr
    obtain ⟨n, hn, hn'⟩ := h.meets.flow a r hrf
    have hsource := (h.meets.proper.source a r hrf).2
    obtain ⟨e, he, her⟩ := EventGraph.mem_reads.1 hr
    refine ⟨a, hsource, h.filter_rf hrf, n, ?_,
      (h.get?_writeValues hg (EventGraph.mem_writes_of_sameVar hsource)).2 hn'⟩
    rw [valueAt_of_read hg.symbolic he her] at hn
    rw [h.get?_readValues hg he her]
    exact congrArg some (Value.int.inj (Option.some.inj hn))
  orders := fun y hy => h.orders hg hy
  chosen := fun a b => h.transGen_coEdges hg
  stored := fun a ha n => h.get?_writeValues hg ha
  memory := fun y order horder => by rw [Execution.get?_finalMemory, horder, Option.bind_some]
  admitted := by
    rw [h.choice_eq hg]
    exact h.meets.admitted

end Solves

/-- The first letters of a declared symbol tell its sort. -/
theorem sort_of_declared {q : QueryState} {ds ts : List Term} (hw : Written g o q ds ts)
    (hsym : ∀ name ∈ (intSymbols g o).toList, ValueSymbol name) {name : String} {sort : ValueSort}
    (h : (name, sort) ∈ q.declared) :
    sort = .int ∧ ValueSymbol name ∨ sort = .bool ∧ ¬ ValueSymbol name := by
  rcases (hw.declared _).1 h with h | ⟨k, -, he⟩
  · rcases mem_declarations.1 h with ⟨hchoice, rfl⟩ | ⟨hint, rfl⟩
    · cases hchoice <;> exact .inr ⟨rfl, by simp [ValueSymbol]⟩
    · exact .inl ⟨rfl, hsym name hint⟩
  · obtain ⟨rfl, rfl⟩ := Prod.mk.inj he
    exact .inr ⟨rfl, by simp [ValueSymbol]⟩

/-- Symbols of coherence are declared for writes that are not initial. -/
theorem not_init_of_declared {q : QueryState} {ds ts : List Term} (hw : Written g o q ds ts)
    (hsym : ∀ name ∈ (intSymbols g o).toList, ValueSymbol name) {sort : ValueSort}
    (h : (coSymbol a b, sort) ∈ q.declared) : isInit g a = false ∧ isInit g b = false := by
  rcases (hw.declared _).1 h with h | ⟨k, -, he⟩
  · rcases mem_declarations.1 h with ⟨hchoice, -⟩ | ⟨hint, -⟩
    · generalize hname : coSymbol a b = name at hchoice
      cases hchoice with
      | rf hr hw => exact absurd (congrArg stem hname) (by simp)
      | co hc hd hne hic hid =>
        obtain ⟨rfl, rfl⟩ := coSymbol_injective hname
        exact ⟨hic, hid⟩
    · exact absurd (hsym _ hint) (by simp [ValueSymbol])
  · exact absurd (congrArg stem (Prod.mk.inj he).1) (by simp)

theorem mem_declared {q : QueryState} {d : String × ValueSort} :
    d ∈ Script.declared ⟨q.commands.reverse⟩ ↔ d ∈ q.declared := by
  simp [Script.declared, QueryState.declared]

/-- No symbol is declared with two sorts. -/
theorem sort?_of_declared {q : QueryState} {ds ts : List Term} (hw : Written g o q ds ts)
    (hsym : ∀ name ∈ (intSymbols g o).toList, ValueSymbol name) {x : String} {sort : ValueSort}
    (hx : (x, sort) ∈ Script.declared ⟨q.commands.reverse⟩) :
    Script.sort? ⟨q.commands.reverse⟩ x = some sort ∧ (sort = .bool ∨ sort = .int) := by
  have hsort := sort_of_declared hw hsym (mem_declared.1 hx)
  refine ⟨?_, hsort.symm.imp And.left And.left⟩
  rw [Script.sort?]
  cases hlast : (Script.declared ⟨q.commands.reverse⟩).reverse.lookup x with
  | none =>
    exact absurd (List.lookup_eq_none_iff.1 hlast _ (List.mem_reverse.2 hx)) (by simp)
  | some last =>
    have hlast' := sort_of_declared hw hsym
      (mem_declared.1 (List.mem_reverse.1 (mem_of_lookup hlast)))
    rcases hsort with ⟨rfl, hv⟩ | ⟨rfl, hv⟩
    · exact congrArg some (hlast'.resolve_right fun h => h.2 hv).1
    · exact congrArg some (hlast'.resolve_left fun h => hv h.2).1

theorem solves_of_decide (hg : g.Arranged) (hm : m.validate = .ok ())
    (hsym : ∀ name ∈ (intSymbols g o).toList, ValueSymbol name) {script : Script}
    (hscript : encode g m o = .ok script) {solve : SatSolver} {found : Option Assignment}
    (hfound : script.decide solve = .ok (.sat found)) : ∃ w, found = some w ∧ Solves g m o w := by
  obtain ⟨q, hencode, hwritten⟩ := encode_written hg.regular hg.symbolic hm o
  obtain rfl := Except.ok.inj (hscript.symm.trans hencode)
  obtain ⟨_, _, hw, -⟩ := hwritten ⟨fun _ _ => False, fun _ _ => False⟩ fun _ => 0
  obtain ⟨w, hw', htrue, htyped, honly⟩ :=
    Script.decide_typed hfound fun _ _ => sort?_of_declared hw hsym
  have hsat : Script.Satisfied ⟨q.commands.reverse⟩ w.environment := ⟨htyped, htrue⟩
  rw [satisfied_iff] at hsat
  have hfits : Fits w.environment g o (.ofEnvironment g w.environment)
      (.ofEnvironment w.environment) :=
    fits_ofEnvironment fun name sort h => hsat.1 name sort ((hw.declared _).2 (.inl h))
  obtain ⟨ds, ts, hasserts, hmeans⟩ := hwritten (.ofEnvironment g w.environment)
    (.ofEnvironment w.environment)
  obtain ⟨hmeets, houtcome⟩ := (hmeans w.environment hfits fun t ht =>
    hsat.2 t ((hasserts.asserted t).2 (.inl ht))).1 fun t ht =>
      hsat.2 t ((hasserts.asserted t).2 (.inr ht))
  refine ⟨w, hw', hmeets, hfits, houtcome, fun name hn => ?_, fun a b hab => ?_⟩
  · exact Assignment.getInt?_of_environment (hfits.values name hn)
  · obtain ⟨sort, hsort⟩ := honly _ _ (Execution.chosen_iff.1 hab)
    exact not_init_of_declared hw hsym (mem_declared.1 hsort)

theorem arranged_ofState {c : Composition} {p : Precision} {s : GlobalState} (hc : c.Initialized)
    (h : c.Reachable p s) : (EventGraph.ofState c s).Arranged where
  regular := EventGraph.regular_ofState hc h
  symbolic := symbolic_ofState h
  stores := by
    intro a e he hw
    exact ((Composition.overValues_of_reachable h).events e (EventGraph.mem_emitted he)).write hw
  first := by
    intro a b ha hb hia hib
    obtain ⟨d, hd, hdi⟩ := EventGraph.isNode_iff.1 hia
    obtain ⟨e, he⟩ := EventGraph.mem_nodes.1 hb
    have hei : e.isInit = false := by
      rw [Bool.eq_false_iff]
      intro hei
      rw [isInit, EventGraph.isNode_iff.2 ⟨e, he, hei⟩] at hib
      exact absurd hib (by decide)
    obtain ⟨i, hi⟩ : ∃ i, e.owner = .thread i := by
      cases ho : e.owner with
      | thread i => exact ⟨i, rfl⟩
      | init => exact absurd hei (by simp [Event.isInit, ho])
    rcases Nat.lt_trichotomy a b with hlt | rfl | hlt
    · exact hlt
    · rw [Option.some.inj (hd.symm.trans he), hei] at hdi
      exact absurd hdi (by decide)
    · rw [EventGraph.event?, ← Array.getElem?_toList] at hd he
      have hle := rel_of_pairwise (EventGraph.events_sorted c s) hlt he hd
      rw [EventGraph.comesFirst_iff, EventGraph.rank_thread hi,
        EventGraph.rank_init (eq_of_beq hdi)] at hle
      omega

end Query
end Consistency
