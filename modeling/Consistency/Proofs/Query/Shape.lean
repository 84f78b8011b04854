import Consistency.Proofs.Exploration.Canonical

/-!
# What a query depends on

A query about a graph reads its events by their shapes only, and so does the
execution that an assignment stands for.
-/

set_option autoImplicit false

namespace Consistency
open Query

variable {g k : EventGraph}

namespace EventGraph

section Events
variable (h : g.shapes = k.shapes)
include h

/-- What is read off the shape of each event is the same. -/
theorem map_events {β : Type} (f : EventShape → β) :
    g.events.toList.map (fun e => f e.shape) = k.events.toList.map fun e => f e.shape := by
  have hmap := congrArg (List.map f) h
  rwa [shapes, shapes, List.map_map, List.map_map] at hmap

theorem flatMap_events {β : Type} (f : EventShape → List β) :
    g.events.toList.flatMap (fun e => f e.shape) = k.events.toList.flatMap fun e => f e.shape := by
  rw [List.flatMap_def, List.flatMap_def, map_events h f]

theorem filter_events (q : EventShape → Bool) :
    (g.events.toList.filter fun e => q e.shape).map Event.shape =
      (k.events.toList.filter fun e => q e.shape).map Event.shape := by
  have hfilter := congrArg (List.filter q) h
  rwa [shapes, shapes, List.filter_map, List.filter_map] at hfilter

theorem sharedVars_eq : g.sharedVars = k.sharedVars := by
  rw [sharedVars, sharedVars]
  exact congrArg OrderedSet.ofList (map_events h EventShape.var)

theorem rfCandidates_eq : g.rfCandidates = k.rfCandidates := by
  have hlayout := layout_of_shapes h
  rw [rfCandidates, rfCandidates, reads_eq hlayout, writesSameVar_eq hlayout]

theorem coCandidates_eq : g.coCandidates = k.coCandidates := by
  have hlayout := layout_of_shapes h
  rw [coCandidates, coCandidates, writes_eq hlayout, writesSameVar_eq hlayout]

theorem owners_eq : g.owners = k.owners := by
  rw [owners, owners]
  exact congrArg OrderedSet.ofList (map_events h EventShape.owner)

theorem render_eq (hn : g.threadNames = k.threadNames) : g.render = k.render := by
  have hlabel : ∀ (f : EventGraph) (o : Owner),
      (f.events.toList.filter fun e => e.owner == o).map Event.label =
        ((f.events.toList.filter fun e => e.owner == o).map Event.shape).map
          fun s => s.event.label := fun f o => by
    rw [List.map_map]
    rfl
  have hown : ∀ o, (g.events.toList.filter fun e => e.owner == o).map Event.label =
      (k.events.toList.filter fun e => e.owner == o).map Event.label := fun o => by
    rw [hlabel, hlabel]
    exact congrArg (List.map _) (filter_events h fun s => s.owner == o)
  have hname : g.ownerName = k.ownerName := by
    funext o
    cases o with
    | init => rfl
    | thread id => simp only [ownerName, hn]
  unfold render
  simp only [hown, hname, owners_eq h]

theorem writesOf_eq : (writesOf g).map Event.shape = (writesOf k).map Event.shape :=
  filter_events h fun s => s.kind == .write

theorem readsOf_eq : (readsOf g).map Event.shape = (readsOf k).map Event.shape :=
  filter_events h fun s => s.kind == .read

end Events

end EventGraph

namespace Query
open EventGraph

theorem contribute_eq (symbols : OrderedMap String Values) {ds es : List Event}
    (h : ds.map Event.shape = es.map Event.shape) (vars : OrderedMap String Values)
    (changed : Bool) : contribute symbols ds vars changed = contribute symbols es vars changed := by
  induction ds generalizing es vars changed with
  | nil =>
    obtain rfl := List.map_eq_nil_iff.1 h.symm
    rfl
  | cons d ds ih =>
    obtain ⟨e, es, rfl, he, hes⟩ := List.map_eq_cons_iff.1 h.symm
    have hterm : d.valueTerm = e.valueTerm := congrArg (fun s => s.event.valueTerm) he.symm
    have hvar : d.var = e.var := congrArg EventShape.var he.symm
    simp only [contribute, hterm, hvar, ih hes.symm]

section Domains
variable (h : g.shapes = k.shapes)
include h

theorem observe_eq (vars symbols : OrderedMap String Values) :
    observe g vars symbols = observe k vars symbols := by
  have hfold : ∀ f : EventGraph, observe f vars symbols = ((readsOf f).map Event.shape).foldl
      (fun m s => m.insert s.event.symbol ((vars.get? s.var).getD .empty)) symbols := fun f => by
    rw [List.foldl_map]
    rfl
  rw [hfold, hfold, readsOf_eq h]

theorem iterate_eq (rounds : Nat) (vars symbols : OrderedMap String Values) :
    iterate g rounds vars symbols = iterate k rounds vars symbols := by
  induction rounds generalizing vars symbols with
  | zero => rfl
  | succ rounds ih =>
    simp only [iterate, observe_eq h, contribute_eq _ (writesOf_eq h), ih]

end Domains

section Queries
variable (h : g.shape = k.shape)
include h

theorem valueDomains_eq : valueDomains g = valueDomains k := by
  have hshapes : g.shapes = k.shapes := congrArg GraphShape.events h
  have hconstraints : g.constraints = k.constraints := congrArg GraphShape.constraints h
  rw [valueDomains, valueDomains, iterate_eq hshapes, statedDomains, statedDomains, hconstraints]

theorem registerTerm_eq : g.registerTerm = k.registerTerm := by
  have hregisters : g.registers = k.registers := congrArg GraphShape.registers h
  funext i reg
  rw [registerTerm, registerTerm, hregisters]

theorem intSymbols_eq (o : Outcome) : intSymbols g o = intSymbols k o := by
  have hshapes : g.shapes = k.shapes := congrArg GraphShape.events h
  have hconstraints : g.constraints = k.constraints := congrArg GraphShape.constraints h
  have hevents := flatMap_events hshapes fun s =>
    s.event.symbol?.toList ++ s.value.toList.flatMap Term.consts
  unfold intSymbols
  rw [hconstraints, registerTerm_eq h]
  exact congrArg (fun l => OrderedSet.ofList (l ++ _ ++ _)) hevents

theorem readSymbols_eq : readSymbols g = readSymbols k := by
  have hsymbols := congrArg (List.map fun s => s.event.symbol)
    (readsOf_eq (congrArg GraphShape.events h))
  rwa [List.map_map, List.map_map] at hsymbols

theorem coTerm_eq : coTerm g = coTerm k := by
  funext a b
  rw [coTerm, coTerm, isInit_eq (layout_of_shapes (congrArg GraphShape.events h))]

theorem base_eq (rel : BaseRelation) : base g rel = base k rel := by
  have hlayout := layout_of_shapes (congrArg GraphShape.events h)
  have hread : g.isNode Event.isRead = k.isNode Event.isRead :=
    isNode_eq hlayout fun s => s.kind == .read
  have hwrite : g.isNode Event.isWrite = k.isNode Event.isWrite :=
    isNode_eq hlayout fun s => s.kind == .write
  have hrf : rfEntry g = rfEntry k := by
    funext w r
    simp only [rfEntry, hread, hwrite, sameVar_eq hlayout]
  have hco : coEntry g = coEntry k := by
    funext a b
    simp only [coEntry, hwrite, sameVar_eq hlayout, coTerm_eq h]
  have hfr : fromRead g = fromRead k := by
    funext r w
    simp only [fromRead, hread, hwrite, sameVar_eq hlayout, writesSameVar_eq hlayout, coTerm_eq h]
  cases rel <;> simp only [base, size_eq hlayout, programOrder_eq hlayout, sameVar_eq hlayout,
    sameThread_eq hlayout, hrf, hco, hfr]

theorem relation_eq (lookup : String → QueryM Matrix) (e : RelExpr) :
    relation g lookup e = relation k lookup e := by
  have hlayout := layout_of_shapes (congrArg GraphShape.events h)
  induction e with
  | base rel => simp only [relation, base_eq h]
  | named x => rfl
  | product s t => simp only [relation, product, size_eq hlayout, inSet_eq hlayout]
  | identity s => simp only [relation, identity, size_eq hlayout, inSet_eq hlayout]
  | binary op a b iha ihb => simp only [relation, iha, ihb]
  | suffixed op a ih =>
    simp only [relation, ih, identity, size_eq hlayout, inSet_eq hlayout]

theorem namedRelation_eq (m : MemoryModel) (fuel : Nat) :
    namedRelation g m fuel = namedRelation k m fuel := by
  induction fuel with
  | zero => rfl
  | succ fuel ih =>
    funext x
    simp only [namedRelation, ih, relation_eq h]

theorem assertAxiom_eq (m : MemoryModel) : assertAxiom g m = assertAxiom k m := by
  funext a
  simp only [assertAxiom, namedRelation_eq h, relation_eq h]

theorem atomTerm_eq : atomTerm g = atomTerm k := by
  have hshapes : g.shapes = k.shapes := congrArg GraphShape.events h
  funext a
  cases a with
  | register i reg n => simp only [atomTerm, registerTerm_eq h]
  | memory x n =>
    simp only [atomTerm, finalMemory, writesTo_eq (layout_of_shapes hshapes), coTerm_eq h,
      valueAt_eq hshapes]

/-- The script of a query is made from shapes. -/
theorem encode_eq (m : MemoryModel) (o : Outcome) : encode g m o = encode k m o := by
  have hshapes : g.shapes = k.shapes := congrArg GraphShape.events h
  have hlayout := layout_of_shapes hshapes
  have hnames : g.threadNames = k.threadNames := congrArg GraphShape.threadNames h
  have hconstraints : g.constraints = k.constraints := congrArg GraphShape.constraints h
  have hbuild : build g m o = build k m o := by
    simp only [build, declare, assertDomains, assertReadsFrom, assertCoherence, assertDataFlow,
      assertOutcome, render_eq hshapes hnames, rfCandidates_eq hshapes, coCandidates_eq hshapes,
      isInit_eq hlayout, intSymbols_eq h, valueDomains_eq h, readSymbols_eq h, reads_eq hlayout,
      writesSameVar_eq hlayout, sharedVars_eq hshapes, writesTo_eq hlayout, coTerm_eq h,
      valueAt_eq hshapes, assertAxiom_eq h, hconstraints, atomTerm_eq h]
  rw [encode, encode, hbuild]

end Queries

end Query

namespace Execution
open EventGraph

section Readings
variable (h : g.shapes = k.shapes)
include h

theorem bind_event {β : Type} (a : Nat) (f : EventShape → Option β) :
    ((g.event? a).bind fun e => f e.shape) = (k.event? a).bind fun e => f e.shape := by
  have hbind := congrArg (fun s : Option EventShape => s.bind f) (shape_eq h a)
  simp only [Option.bind_map] at hbind
  exact hbind

theorem readValue_eq (m : Assignment) (rf : List (Nat × Nat)) :
    readValue g m rf = readValue k m rf := by
  funext r symbol
  simp only [readValue]
  refine congrArg (Option.or _) (congrArg (Option.bind _) (funext fun e => ?_))
  exact bind_event h e.1 fun s => s.value.bind (intOf (intEnvironment m))

theorem readEntries_eq (m : Assignment) (rf : List (Nat × Nat)) :
    readEntries g m rf = readEntries k m rf := by
  rw [readEntries, readEntries, reads_eq (layout_of_shapes h)]
  refine congrArg (List.filterMap · k.reads) (funext fun r => ?_)
  rw [readValue_eq h]
  exact bind_event h r fun s => s.event.symbol?.bind fun symbol =>
    (readValue k m rf r symbol).bind fun v => some (r, symbol, v)

end Readings

/-- But for its graph, an execution is made from shapes. -/
theorem ofAssignment_eq (h : g.shape = k.shape) (m : Assignment) :
    ofAssignment g m = { ofAssignment k m with graph := g } := by
  have hshapes : g.shapes = k.shapes := congrArg GraphShape.events h
  have hregisters : g.registers = k.registers := congrArg GraphShape.registers h
  have hwrites : ∀ env : Environment,
      (g.writes.filterMap fun w => (g.event? w).bind fun e => e.value.bind fun t =>
        (intOf env t).bind fun n => some (w, n)) =
      k.writes.filterMap fun w => (k.event? w).bind fun e => e.value.bind fun t =>
        (intOf env t).bind fun n => some (w, n) := fun env => by
    rw [writes_eq (layout_of_shapes hshapes)]
    exact congrArg (List.filterMap · k.writes) (funext fun w =>
      bind_event hshapes w fun s => s.value.bind fun t => (intOf env t).bind fun n => some (w, n))
  have hrf : readsFrom g m = readsFrom k m := by
    rw [readsFrom, readsFrom, rfCandidates_eq hshapes]
  have hcoherence : coherenceOf g m = coherenceOf k m := by
    simp only [coherenceOf, sharedVars_eq hshapes, writesTo_eq (layout_of_shapes hshapes)]
  unfold ofAssignment
  simp only [bind, pure]
  rw [hrf, hcoherence, readEntries_eq hshapes, hregisters, hwrites]

end Execution
end Consistency
