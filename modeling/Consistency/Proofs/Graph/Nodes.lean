import Mathlib.Data.List.Basic
import Consistency.Proofs.Composition.Reachable
import Consistency.Query

/-!
# Nodes of event graphs

What it means to be a node of some kind, and what the graphs of reachable
states have in common.
-/

set_option autoImplicit false

namespace Consistency
open Query (isInit)

/-- No event is both a read and a write. -/
theorem Event.isRead_iff {e : Event} : e.isRead = true ↔ e.isWrite = false := by
  unfold isRead isWrite
  cases e.kind <;> decide

/-- What a write stores, or else the symbol of a read. -/
theorem Event.valueTerm_cases {P : Term → Prop} {e : Event} (hstored : ∀ t, e.value = some t → P t)
    (hread : e.isRead = true → P (.const e.symbol)) (hzero : P (.int 0)) : P e.valueTerm := by
  rw [Event.valueTerm]
  cases hvalue : e.value with
  | some t => exact hstored t hvalue
  | none =>
    cases hkind : e.kind with
    | read => exact hread (beq_of_eq hkind)
    | write => exact hzero

theorem rel_of_pairwise {α : Type} {R : α → α → Prop} {xs : List α} (h : xs.Pairwise R) {a b : Nat}
    (hab : a < b) {x y : α} (hx : xs[a]? = some x) (hy : xs[b]? = some y) : R x y := by
  obtain ⟨ha, rfl⟩ := List.getElem?_eq_some_iff.1 hx
  obtain ⟨hb, rfl⟩ := List.getElem?_eq_some_iff.1 hy
  exact List.pairwise_iff_getElem.1 h a b ha hb hab

namespace EventGraph
variable {g : EventGraph} {a b v w r : Nat}

theorem mem_nodes : a ∈ g.nodes ↔ ∃ e, g.event? a = some e := by
  rw [nodes, List.mem_range, event?, size]
  constructor
  · exact fun h => ⟨_, Array.getElem?_eq_getElem h⟩
  · rintro ⟨e, he⟩
    exact (Array.getElem?_eq_some_iff.1 he).1

theorem lt_size {e : Event} (h : g.event? a = some e) : a < g.size :=
  (Array.getElem?_eq_some_iff.1 h).1

theorem isNode_iff {p : Event → Bool} :
    g.isNode p a = true ↔ ∃ e, g.event? a = some e ∧ p e = true := by
  rw [isNode, Option.any_eq_true]

theorem related_iff {p : Event → Event → Bool} : g.related p a b = true ↔
    ∃ d e, g.event? a = some d ∧ g.event? b = some e ∧ p d e = true := by
  unfold related
  cases g.event? a <;> cases g.event? b <;> simp

theorem mem_filter_nodes {p : Event → Bool} :
    a ∈ g.nodes.filter (g.isNode p) ↔ ∃ e, g.event? a = some e ∧ p e = true := by
  rw [List.mem_filter, isNode_iff, mem_nodes]
  constructor
  · exact fun h => h.2
  · exact fun h => ⟨h.imp fun _ h => h.1, h⟩

theorem mem_reads : a ∈ g.reads ↔ ∃ e, g.event? a = some e ∧ e.isRead = true :=
  mem_filter_nodes

theorem mem_writes : a ∈ g.writes ↔ ∃ e, g.event? a = some e ∧ e.isWrite = true :=
  mem_filter_nodes

theorem sameVar_iff : g.sameVar a b = true ↔
    ∃ d e, g.event? a = some d ∧ g.event? b = some e ∧ d.var = e.var := by
  rw [sameVar, related_iff]
  simp

theorem mem_writesSameVar : b ∈ g.writesSameVar a ↔ ∃ d e, g.event? a = some d ∧
    g.event? b = some e ∧ e.isWrite = true ∧ d.var = e.var := by
  rw [writesSameVar, List.mem_filter, mem_writes, sameVar_iff]
  constructor
  · rintro ⟨⟨e, he, hw⟩, d, e', hd, he', hv⟩
    obtain rfl := Option.some.inj (he.symm.trans he')
    exact ⟨d, e, hd, he, hw, hv⟩
  · rintro ⟨d, e, hd, he, hw, hv⟩
    exact ⟨⟨e, he, hw⟩, d, e, hd, he, hv⟩

theorem mem_writesTo {x : String} :
    a ∈ g.writesTo x ↔ ∃ e, g.event? a = some e ∧ e.isWrite = true ∧ e.var = x := by
  rw [writesTo, List.mem_filter, mem_writes, isNode_iff]
  constructor
  · rintro ⟨⟨e, he, hw⟩, e', he', hv⟩
    obtain rfl := Option.some.inj (he.symm.trans he')
    exact ⟨e, he, hw, by simpa using hv⟩
  · rintro ⟨e, he, hw, hv⟩
    exact ⟨⟨e, he, hw⟩, e, he, by simpa using hv⟩

theorem mem_writesSameVar_of_writesTo {x : String} (ha : a ∈ g.writesTo x)
    (hb : b ∈ g.writesTo x) : b ∈ g.writesSameVar a := by
  obtain ⟨d, hd, -, hv⟩ := mem_writesTo.1 ha
  obtain ⟨e, he, hw, hv'⟩ := mem_writesTo.1 hb
  exact mem_writesSameVar.2 ⟨d, e, hd, he, hw, hv.trans hv'.symm⟩

theorem mem_writes_of_sameVar {w r : Nat} (h : w ∈ g.writesSameVar r) : w ∈ g.writes :=
  List.mem_of_mem_filter h

/-- Writes to the variable of one node are writes to the same variable. -/
theorem writesSameVar_of_both {n v w : Nat} (hv : v ∈ g.writesSameVar n)
    (hw : w ∈ g.writesSameVar n) : w ∈ g.writesSameVar v := by
  obtain ⟨d, e, hd, he, -, hde⟩ := mem_writesSameVar.1 hv
  obtain ⟨d', f, hd', hf, hfw, hdf⟩ := mem_writesSameVar.1 hw
  obtain rfl := Option.some.inj (hd.symm.trans hd')
  exact mem_writesSameVar.2 ⟨e, f, he, hf, hfw, hde.symm.trans hdf⟩

theorem writesSameVar_trans {n v w : Nat} (hv : v ∈ g.writesSameVar n)
    (hw : w ∈ g.writesSameVar v) : w ∈ g.writesSameVar n := by
  obtain ⟨d, e, hd, he, -, hde⟩ := mem_writesSameVar.1 hv
  obtain ⟨e', f, he', hf, hfw, hef⟩ := mem_writesSameVar.1 hw
  obtain rfl := Option.some.inj (he.symm.trans he')
  exact mem_writesSameVar.2 ⟨d, f, hd, hf, hfw, hde.trans hef⟩

theorem related_lt {p : Event → Event → Bool} (h : g.related p a b = true) :
    a < g.size ∧ b < g.size := by
  obtain ⟨d, e, hd, he, -⟩ := related_iff.1 h
  exact ⟨lt_size hd, lt_size he⟩

theorem programOrder_iff : g.programOrder a b = true ↔ ∃ d e, g.event? a = some d ∧
    g.event? b = some e ∧ d.isInit = false ∧ d.owner = e.owner ∧ d.index < e.index := by
  rw [programOrder, related_iff]
  simp [and_assoc]

theorem sameVar_of_mem (h : w ∈ g.writesSameVar r) :
    g.sameVar w r = true ∧ g.sameVar r w = true := by
  obtain ⟨d, e, hd, he, -, hv⟩ := mem_writesSameVar.1 h
  exact ⟨sameVar_iff.2 ⟨e, d, he, hd, hv.symm⟩, sameVar_iff.2 ⟨d, e, hd, he, hv⟩⟩

theorem self_mem_writesSameVar (h : w ∈ g.writes) : w ∈ g.writesSameVar w := by
  obtain ⟨e, he, hw⟩ := mem_writes.1 h
  exact mem_writesSameVar.2 ⟨e, e, he, he, hw, rfl⟩

theorem writesSameVar_symm (hv : v ∈ g.writes) (hw : w ∈ g.writesSameVar v) :
    v ∈ g.writesSameVar w := by
  obtain ⟨d, e, hd, he, -, hde⟩ := mem_writesSameVar.1 hw
  obtain ⟨d', hd', hwrite⟩ := mem_writes.1 hv
  obtain rfl := Option.some.inj (hd.symm.trans hd')
  exact mem_writesSameVar.2 ⟨e, d, he, hd, hwrite, hde.symm⟩

theorem mem_nodes_of_writes (h : w ∈ g.writes) : w ∈ g.nodes := List.mem_of_mem_filter h

theorem mem_nodes_of_reads (h : r ∈ g.reads) : r ∈ g.nodes := List.mem_of_mem_filter h

theorem ne_of_reads_writes (hr : r ∈ g.reads) (hw : w ∈ g.writes) : r ≠ w := by
  rintro rfl
  obtain ⟨d, hd, hread⟩ := mem_reads.1 hr
  obtain ⟨e, he, hwrite⟩ := mem_writes.1 hw
  obtain rfl := Option.some.inj (hd.symm.trans he)
  rw [Event.isRead_iff, hwrite] at hread
  exact absurd hread (by decide)

theorem not_init_of_programOrder (h : g.programOrder a b = true) :
    isInit g a = false ∧ isInit g b = false := by
  obtain ⟨d, e, hd, he, hi, ho, -⟩ := programOrder_iff.1 h
  have hinit : e.isInit = false := by rwa [Event.isInit, ← ho]
  constructor
  · simpa [isInit, isNode, hd] using hi
  · simpa [isInit, isNode, he] using hinit

structure Regular (g : EventGraph) : Prop where
  writes : ∀ a e, g.event? a = some e → e.isInit = true → e.isWrite = true
  initial : ∀ a e, g.event? a = some e →
    ∃ i d, g.event? i = some d ∧ d.isInit = true ∧ d.var = e.var
  once : ∀ a b d e, g.event? a = some d → g.event? b = some e → d.isInit = true →
    e.isInit = true → d.var = e.var → a = b

theorem Regular.not_init_of_read (hg : g.Regular) (h : r ∈ g.reads) : isInit g r = false := by
  obtain ⟨e, he, hr⟩ := mem_reads.1 h
  have hinit : e.isInit = false := by
    by_contra hi
    rw [Event.isRead_iff, hg.writes r e he (by simpa using hi)] at hr
    exact absurd hr (by decide)
  simpa [isInit, isNode, he] using hinit

/-- No other initial write is to the variable. -/
theorem Regular.init_unique (hg : g.Regular) (hv : v ∈ g.writesSameVar r)
    (hw : w ∈ g.writesSameVar r) (hiv : isInit g v = true) (hiw : isInit g w = true) : v = w := by
  obtain ⟨d, e, hd, he, -, hde⟩ := mem_writesSameVar.1 hv
  obtain ⟨d', f, hd', hf, -, hdf⟩ := mem_writesSameVar.1 hw
  obtain rfl := Option.some.inj (hd.symm.trans hd')
  rw [isInit, isNode, he] at hiv
  rw [isInit, isNode, hf] at hiw
  exact hg.once v w e f he hf hiv hiw (hde.symm.trans hdf)

theorem Regular.exists_init (hg : g.Regular) (h : r ∈ g.nodes) :
    ∃ w ∈ g.writesSameVar r, isInit g w = true := by
  obtain ⟨e, he⟩ := mem_nodes.1 h
  obtain ⟨i, d, hd, hi, hv⟩ := hg.initial r e he
  refine ⟨i, mem_writesSameVar.2 ⟨e, d, he, hd, hg.writes i d hd hi, hv.symm⟩, ?_⟩
  simpa [isInit, isNode, hd] using hi

variable {c : Composition} {p : Precision} {s : GlobalState}

theorem events_perm (c : Composition) (s : GlobalState) :
    (ofState c s).events.toList.Perm s.emitted :=
  (List.mergeSort_perm s.events comesFirst).trans s.emitted.reverse_perm

theorem mem_emitted {e : Event} (h : (ofState c s).event? a = some e) : e ∈ s.emitted :=
  (events_perm c s).mem_iff.1 (Array.mem_toList_iff.2 (Array.mem_of_getElem? h))

theorem exists_event {e : Event} (h : e ∈ s.emitted) : ∃ a, (ofState c s).event? a = some e := by
  have hm := Array.mem_toList_iff.1 ((events_perm c s).mem_iff.2 h)
  exact Array.mem_iff_getElem?.1 hm

theorem exists_local {i : Nat} {reg : String} {t : Term}
    (h : (ofState c s).registerTerm i reg = some t) : ∃ l ∈ s.locals, t = l.register reg := by
  obtain ⟨valuation, hv, rfl⟩ := Option.map_eq_some_iff.1 h
  rw [ofState, List.getElem?_map] at hv
  obtain ⟨l, hl, rfl⟩ := Option.map_eq_some_iff.1 hv
  exact ⟨l, List.mem_of_getElem? hl, rfl⟩

theorem regular_ofState (hc : c.Initialized) (h : c.Reachable p s) : (ofState c s).Regular where
  writes := fun a e he => (Composition.regular_of_reachable hc h).writes e (mem_emitted he)
  initial := by
    intro a e he
    obtain ⟨d, hd, hi⟩ := (Composition.regular_of_reachable hc h).initial e (mem_emitted he)
    obtain ⟨i, hn⟩ := exists_event hd
    exact ⟨i, d, hn, hi⟩
  once := by
    intro a b d e hd he hdi hei hv
    have hreg := (Composition.regular_of_reachable hc h).perm (events_perm c s).symm
    rw [event?, ← Array.getElem?_toList] at hd he
    rcases Nat.lt_trichotomy a b with hlt | rfl | hlt
    · exact absurd hv (rel_of_pairwise hreg.once hlt hd he hdi hei)
    · rfl
    · exact absurd hv.symm (rel_of_pairwise hreg.once hlt he hd hei hdi)

end EventGraph
end Consistency
