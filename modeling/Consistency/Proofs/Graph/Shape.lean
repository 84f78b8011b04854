import Consistency.Proofs.Query.Domain

/-!
# Shapes of graphs

What a memory model says of a graph depends on the layout of its events alone,
not on the identities that events were given nor on what they store. The events
of a state are put in order by their positions, so that their shapes fix the
graph.
-/

set_option autoImplicit false

namespace Consistency
open Query (isInit inSet valueAt)

def EventShape.event (s : EventShape) : Event := ⟨0, s.owner, s.var, s.kind, s.index, s.value⟩

def EventShape.bare (s : EventShape) : EventShape := { s with value := none }

namespace EventGraph

def shapes (g : EventGraph) : List EventShape := g.events.toList.map Event.shape

def layout (g : EventGraph) : List EventShape := g.shapes.map EventShape.bare

variable {g k : EventGraph}

theorem layout_of_shapes (h : g.shapes = k.shapes) : g.layout = k.layout :=
  congrArg (List.map EventShape.bare) h

section Nodes
variable (h : g.layout = k.layout)
include h

theorem bare_eq (a : Nat) : (g.event? a).map (fun e => e.shape.bare) =
    (k.event? a).map fun e => e.shape.bare := by
  have ha := congrArg (fun es => es[a]?) h
  simp only [layout, shapes, List.getElem?_map, Array.getElem?_toList, Option.map_map] at ha
  exact ha

theorem exists_alike {a : Nat} {e : Event} (he : g.event? a = some e) :
    ∃ d, k.event? a = some d ∧ d.shape.bare = e.shape.bare := by
  have hbare := bare_eq h a
  rw [he, Option.map_some] at hbare
  exact Option.map_eq_some_iff.1 hbare.symm

theorem size_eq : g.size = k.size := by
  have hl := congrArg List.length h
  simp only [layout, shapes, List.length_map, Array.length_toList] at hl
  exact hl

theorem nodes_eq : g.nodes = k.nodes := by rw [nodes, nodes, size_eq h]

/-- A test of the shape of an event. -/
theorem isNode_eq (p : EventShape → Bool) :
    g.isNode (fun e => p e.shape.bare) = k.isNode fun e => p e.shape.bare := by
  funext a
  have ha := congrArg (Option.any p) (bare_eq h a)
  simpa only [isNode, Option.any_map] using ha

theorem related_eq (p : EventShape → EventShape → Bool) :
    g.related (fun d e => p d.shape.bare e.shape.bare) =
      k.related fun d e => p d.shape.bare e.shape.bare := by
  have hpair : ∀ (f : EventGraph) (a b : Nat),
      f.related (fun d e => p d.shape.bare e.shape.bare) a b =
        ((f.event? a).map fun e => e.shape.bare).any fun s =>
          ((f.event? b).map fun e => e.shape.bare).any fun t => p s t := by
    intro f a b
    unfold related
    cases f.event? a <;> cases f.event? b <;> rfl
  funext a b
  rw [hpair, hpair, bare_eq h a, bare_eq h b]

theorem reads_eq : g.reads = k.reads := by
  rw [reads, reads, nodes_eq h]
  exact congrArg (k.nodes.filter ·) (isNode_eq h fun s => s.kind == .read)

theorem writes_eq : g.writes = k.writes := by
  rw [writes, writes, nodes_eq h]
  exact congrArg (k.nodes.filter ·) (isNode_eq h fun s => s.kind == .write)

theorem sameVar_eq : g.sameVar = k.sameVar := related_eq h fun s t => s.var == t.var

theorem sameThread_eq : g.sameThread = k.sameThread := related_eq h fun s t => s.owner == t.owner

theorem programOrder_eq : g.programOrder = k.programOrder :=
  related_eq h fun s t => !(s.owner == .init) && s.owner == t.owner && s.index < t.index

theorem writesSameVar_eq : g.writesSameVar = k.writesSameVar := by
  funext a
  rw [writesSameVar, writesSameVar, writes_eq h, sameVar_eq h]

theorem writesTo_eq (x : String) : g.writesTo x = k.writesTo x := by
  rw [writesTo, writesTo, writes_eq h]
  exact congrArg (k.writes.filter ·) (isNode_eq h fun s => s.var == x)

theorem isInit_eq : isInit g = isInit k := isNode_eq h fun s => s.owner == .init

theorem inSet_eq (s : EventSet) : inSet g s = inSet k s := by
  cases s with
  | reads => exact isNode_eq h fun s => s.kind == .read
  | writes => exact isNode_eq h fun s => s.kind == .write
  | memory => exact isNode_eq h fun _ => true
  | initWrites => exact isNode_eq h fun s => s.owner == .init

end Nodes

section Values
variable (h : g.shapes = k.shapes)
include h

theorem shape_eq (a : Nat) : (g.event? a).map Event.shape = (k.event? a).map Event.shape := by
  have ha := congrArg (fun es => es[a]?) h
  simp only [shapes, List.getElem?_map, Array.getElem?_toList] at ha
  exact ha

/-- The value of a node is made from the shape of its event. -/
theorem valueAt_eq : valueAt g = valueAt k := by
  have hterm : ∀ (f : EventGraph) (a : Nat), valueAt f a =
      (((f.event? a).map Event.shape).map fun s => s.event.valueTerm).getD (.int 0) := by
    intro f a
    unfold valueAt
    cases f.event? a <;> rfl
  funext a
  rw [hterm, hterm, shape_eq h a]

end Values
end EventGraph

variable {g k : EventGraph} {x : Choice}

section Models
variable (h : g.layout = k.layout)
include h
open EventGraph

theorem Choice.Proper.alike (hx : x.Proper g) : x.Proper k where
  source := by
    rw [← reads_eq h, ← writesSameVar_eq h]
    exact hx.source
  sourced := by
    rw [← reads_eq h]
    exact hx.sourced
  writes := by
    rw [← writes_eq h, ← writesSameVar_eq h]
    exact hx.writes
  irrefl := hx.irrefl
  trans := hx.trans
  total := by
    rw [← writes_eq h, ← writesSameVar_eq h]
    exact hx.total
  initial := by
    rw [← writes_eq h, ← writesSameVar_eq h, ← isInit_eq h]
    exact hx.initial

theorem RelExpr.denotes_alike (ρ : Meaning) (e : RelExpr) :
    e.Denotes g x ρ = e.Denotes k x ρ := by
  funext a b
  induction e generalizing a b with
  | base rel =>
    cases rel <;> simp only [Denotes, BaseRelation.Holds, programOrder_eq h, sameVar_eq h,
      sameThread_eq h, nodes_eq h]
  | named name => rfl
  | product s t => simp only [Denotes, inSet_eq h]
  | identity s => simp only [Denotes, inSet_eq h]
  | binary op d e ihd ihe =>
    have hd := funext fun a => funext (ihd a)
    have he := funext fun a => funext (ihe a)
    simp only [Denotes, hd, he]
  | suffixed op e ih =>
    have he := funext fun a => funext (ih a)
    cases op <;> simp only [Denotes, RelSuffix.Apply, he, nodes_eq h]

theorem MemoryModel.Admits.alike {m : MemoryModel} (hm : m.Admits g x) : m.Admits k x := by
  obtain ⟨ρ, hρ, hax⟩ := hm
  refine ⟨ρ, fun name e he a b => ?_, fun d hd => ?_⟩
  · rw [← RelExpr.denotes_alike h]
    exact hρ name e he a b
  · rw [← RelExpr.denotes_alike h]
    exact hax d hd

end Models

open EventGraph in
theorem Choice.Grounded.alike (h : g.shapes = k.shapes) (hx : x.Grounded g) : x.Grounded k := by
  have hneeds : ∀ r s, x.Needs k r s → x.Needs g r s := by
    rintro r s ⟨w, e, hrf, he, hr, hs⟩
    have hshape := shape_eq h s
    rw [he] at hshape
    obtain ⟨d, hd, hde⟩ := Option.map_eq_some_iff.1 hshape
    have hkind : d.kind = e.kind := congrArg EventShape.kind hde
    have howner : d.owner = e.owner := congrArg EventShape.owner hde
    have hindex : d.index = e.index := congrArg EventShape.index hde
    refine ⟨w, d, hrf, hd, ?_, ?_⟩
    · rw [Event.isRead, hkind]
      exact hr
    · rw [valueAt_eq h, Event.symbol, howner, hindex]
      exact hs
  intro r hr
  exact hx r (Relation.TransGen.mono hneeds r r hr)

namespace EventGraph
variable {d e f : Event}

theorem comesFirst_iff : comesFirst d e = true ↔ (rank d).1 < (rank e).1 ∨
    (rank d).1 = (rank e).1 ∧ ((rank d).2.1 < (rank e).2.1 ∨
      (rank d).2.1 = (rank e).2.1 ∧ (rank d).2.2 ≤ (rank e).2.2) := by
  simp only [comesFirst, rankOrder, Ordering.isLE_then_iff_or, Nat.compare_eq_lt,
    Nat.compare_eq_eq, Nat.isLE_compare]

theorem comesFirst_trans (h : comesFirst d e = true) (k : comesFirst e f = true) :
    comesFirst d f = true := by
  rw [comesFirst_iff] at h k ⊢
  omega

theorem comesFirst_total (d e : Event) : (comesFirst d e || comesFirst e d) = true := by
  rw [Bool.or_eq_true, comesFirst_iff, comesFirst_iff]
  omega

theorem events_sorted (c : Composition) (s : GlobalState) :
    (ofState c s).events.toList.Pairwise fun d e => comesFirst d e = true :=
  @List.pairwise_mergeSort _ comesFirst (fun _ _ _ => comesFirst_trans) comesFirst_total s.events

/-- Events that are in strict order already have the shapes of the graph. -/
theorem shapes_ofState (c : Composition) {s : GlobalState} {es : List Event}
    (hp : (s.emitted.map Event.shape).Perm (es.map Event.shape))
    (hs : es.Pairwise fun d e => comesFirst e d = false) :
    (ofState c s).shapes = es.map Event.shape := by
  have hsorted := events_sorted c s
  have hperm : (ofState c s).shapes.Perm (es.map Event.shape) :=
    ((events_perm c s).map Event.shape).trans hp
  have hstrict : es.Pairwise fun d e => ¬ (comesFirst d e = true ∧ comesFirst e d = true) :=
    hs.imp fun hlt h => by
      rw [hlt] at h
      exact absurd h.2 (by decide)
  have hsymm : Std.Symm fun d e => ¬ (comesFirst d e = true ∧ comesFirst e d = true) :=
    ⟨fun _ _ h k => h k.symm⟩
  refine @List.Perm.eq_of_pairwise _ (fun u t => comesFirst u.event t.event = true) _ _ ?_ ?_ ?_
    hperm
  · intro u t hu ht hut htu
    obtain ⟨d, hd, rfl⟩ := List.mem_map.1 (hperm.mem_iff.1 hu)
    obtain ⟨e, he, rfl⟩ := List.mem_map.1 ht
    by_contra hne
    exact hstrict.forall hd he (fun h => hne (by rw [h])) ⟨hut, htu⟩
  · exact List.pairwise_map.2 hsorted
  · refine List.pairwise_map.2 (hs.imp fun {d e} h => ?_)
    have htotal := comesFirst_total d e
    rw [h, Bool.or_false] at htotal
    exact htotal

end EventGraph
end Consistency
