import Mathlib
import Consistency.Proofs.Composition.Alone
import Consistency.Proofs.Graph.Place

/-!
# Program order

The sort that numbers the nodes of a graph puts the events of each thread next to
each other, in the order of their emission. So the edges between neighbours are
the steps of program order, and lead along all of it.
-/

set_option autoImplicit false

namespace Consistency

/-- Things of a kind stand next to each other if all between two of them is of that kind. -/
theorem exists_stretch {α : Type} {R : α → α → Prop} {P : α → Bool} {xs : List α}
    (h : xs.Pairwise R)
    (hbetween : ∀ x y z, R x y → R y z → P x = true → P z = true → P y = true) :
    ∃ before after, xs = before ++ (xs.filter P ++ after) ∧
      (∀ x ∈ before, P x = false) ∧ ∀ x ∈ after, P x = false := by
  induction h with
  | nil => exact ⟨[], [], rfl, by simp, by simp⟩
  | @cons x xs hx hxs ih =>
    obtain ⟨before, after, hsplit, hbefore, hafter⟩ := ih
    cases hP : P x with
    | false =>
      refine ⟨x :: before, after, ?_, ?_, hafter⟩
      · rw [List.filter_cons_of_neg (by simp [hP]), List.cons_append, ← hsplit]
      · rintro y (_ | ⟨_, hy⟩)
        · exact hP
        · exact hbefore y hy
    | true =>
      rw [List.filter_cons_of_pos hP]
      cases hkind : xs.filter P with
      | nil =>
        refine ⟨[], xs, rfl, by simp, fun y hy => ?_⟩
        rw [Bool.eq_false_iff]
        exact List.filter_eq_nil_iff.1 hkind y hy
      | cons z zs =>
        -- a thing of another kind before `z` would lie between `x` and `z`
        have hnone : before = [] := by
          refine List.eq_nil_iff_forall_not_mem.2 fun y hy => ?_
          rw [hsplit, hkind] at hx hxs
          have hxy := hx y (List.mem_append_left _ hy)
          have hyz := (List.pairwise_append.1 hxs).2.2 y hy z (by simp)
          have hz : P z = true := List.of_mem_filter (hkind ▸ List.mem_cons_self)
          have hy' := hbetween x y z hxy hyz hP hz
          rw [hbefore y hy] at hy'
          exact absurd hy' (by decide)
        rw [hnone, List.nil_append, hkind] at hsplit
        exact ⟨[], after, congrArg (x :: ·) hsplit, by simp, hafter⟩

/-- The numbers of a stretch among all. -/
theorem filter_range {size first count : Nat} {P : Nat → Bool} (hle : first + count ≤ size)
    (hP : ∀ a, P a = true ↔ first ≤ a ∧ a < first + count) :
    (List.range size).filter P = (List.range count).map (first + ·) := by
  obtain ⟨rest, rfl⟩ := Nat.exists_eq_add_of_le hle
  rw [List.range_add, List.range_add, List.filter_append, List.filter_append]
  have hbefore : (List.range first).filter P = [] := by
    refine List.filter_eq_nil_iff.2 fun a ha => ?_
    have hlt := List.mem_range.1 ha
    rw [hP]
    omega
  have hinside : ((List.range count).map (first + ·)).filter P =
      (List.range count).map (first + ·) := by
    refine List.filter_eq_self.2 fun a ha => ?_
    obtain ⟨k, hk, rfl⟩ := List.mem_map.1 ha
    have hlt := List.mem_range.1 hk
    rw [hP]
    omega
  have hafter : ((List.range rest).map (first + count + ·)).filter P = [] := by
    refine List.filter_eq_nil_iff.2 fun a ha => ?_
    obtain ⟨k, -, rfl⟩ := List.mem_map.1 ha
    rw [hP]
    omega
  rw [hbefore, hinside, hafter, List.nil_append, List.append_nil]

namespace EventGraph
variable {g : EventGraph} {i first count a b : Nat}

def ofThread (g : EventGraph) (i : Nat) : Nat → Bool := g.isNode fun e => e.owner == .thread i

theorem ofThread_iff :
    g.ofThread i a = true ↔ ∃ e, g.event? a = some e ∧ e.owner = .thread i := by
  rw [ofThread, isNode_iff]
  simp only [beq_iff_eq]

theorem ofThread_unique {j : Nat} (h : g.ofThread i a = true) (h' : g.ofThread j a = true) :
    i = j := by
  obtain ⟨d, hd, hi⟩ := ofThread_iff.1 h
  obtain ⟨e, he, hj⟩ := ofThread_iff.1 h'
  obtain rfl := Option.some.inj (hd.symm.trans he)
  exact Owner.thread.inj (hi.symm.trans hj)

theorem mem_poEdges : (a, b) ∈ g.poEdges ↔ b = a + 1 ∧ g.programOrder a b = true := by
  rw [poEdges, List.mem_filter, List.mem_map]
  constructor
  · rintro ⟨⟨n, -, heq⟩, hpo⟩
    obtain ⟨rfl, rfl⟩ := Prod.mk.inj heq
    exact ⟨rfl, hpo⟩
  · rintro ⟨rfl, hpo⟩
    exact ⟨⟨a, List.mem_range.2 (related_lt hpo).1, rfl⟩, hpo⟩

theorem poEdges_nodup (g : EventGraph) : g.poEdges.Nodup :=
  (List.nodup_range.map fun _ _ h => (Prod.mk.inj h).1).filter _

structure Stretch (g : EventGraph) (i first count : Nat) : Prop where
  nodes : ∀ a, g.ofThread i a = true ↔ first ≤ a ∧ a < first + count
  index : ∀ a e, g.event? a = some e → e.owner = .thread i → first + e.index = a

def Stretched (g : EventGraph) : Prop :=
  ∀ i a, g.ofThread i a = true → ∃ first count, g.Stretch i first count

/-- Both nodes are events of one thread. -/
theorem ofThread_of_programOrder (h : g.programOrder a b = true) :
    ∃ i, g.ofThread i a = true ∧ g.ofThread i b = true := by
  obtain ⟨d, e, hd, he, hinit, howner, -⟩ := programOrder_iff.1 h
  cases hi : d.owner with
  | init => exact absurd hinit (by simp [Event.isInit, hi])
  | thread i => exact ⟨i, ofThread_iff.2 ⟨d, hd, hi⟩, ofThread_iff.2 ⟨e, he, howner.symm.trans hi⟩⟩

theorem programOrder_trans {d : Nat} (hab : g.programOrder a b = true)
    (hbd : g.programOrder b d = true) : g.programOrder a d = true := by
  obtain ⟨x, y, hx, hy, hinit, hxy, hlt⟩ := programOrder_iff.1 hab
  obtain ⟨y', z, hy', hz, -, hyz, hlt'⟩ := programOrder_iff.1 hbd
  obtain rfl := Option.some.inj (hy.symm.trans hy')
  exact programOrder_iff.2 ⟨x, z, hx, hz, hinit, hxy.trans hyz, Nat.lt_trans hlt hlt'⟩

/-- Among the events of a thread program order is the order of the nodes. -/
theorem Stretch.programOrder_iff_lt (h : g.Stretch i first count) (ha : g.ofThread i a = true)
    (hb : g.ofThread i b = true) : g.programOrder a b = true ↔ a < b := by
  obtain ⟨d, hd, hdi⟩ := ofThread_iff.1 ha
  obtain ⟨e, he, hei⟩ := ofThread_iff.1 hb
  have hda := h.index a d hd hdi
  have heb := h.index b e he hei
  rw [programOrder_iff]
  constructor
  · rintro ⟨d', e', hd', he', -, -, hlt⟩
    obtain rfl := Option.some.inj (hd.symm.trans hd')
    obtain rfl := Option.some.inj (he.symm.trans he')
    omega
  · intro hlt
    exact ⟨d, e, hd, he, by simp [Event.isInit, hdi], hdi.trans hei.symm, by omega⟩

/-- An edge for each event of the thread but the last. -/
theorem Stretch.edges (h : g.Stretch i first count) :
    (g.poEdges.filter fun edge => g.ofThread i edge.1) =
      (List.range (count - 1)).map fun k => (first + k, first + k + 1) := by
  have hsource : ∀ a, (g.programOrder a (a + 1) && g.ofThread i a) = true ↔
      first ≤ a ∧ a < first + (count - 1) := by
    intro a
    rw [Bool.and_eq_true]
    constructor
    · rintro ⟨hpo, ha⟩
      obtain ⟨j, haj, hbj⟩ := ofThread_of_programOrder hpo
      obtain rfl := ofThread_unique ha haj
      have hle := (h.nodes a).1 ha
      have hlt := (h.nodes (a + 1)).1 hbj
      omega
    · intro ha
      have hfirst : g.ofThread i a = true := (h.nodes a).2 (by omega)
      have hsecond : g.ofThread i (a + 1) = true := (h.nodes (a + 1)).2 (by omega)
      exact ⟨(h.programOrder_iff_lt hfirst hsecond).2 (Nat.lt_succ_self a), hfirst⟩
  have hle : first + (count - 1) ≤ g.size ∨ count - 1 = 0 := by
    rcases Nat.eq_zero_or_pos (count - 1) with hzero | hpos
    · exact .inr hzero
    · have hlast := (h.nodes (first + (count - 1))).2 (by omega)
      obtain ⟨e, he, -⟩ := ofThread_iff.1 hlast
      exact .inl (Nat.le_of_lt (lt_size he))
  have hnodes : (g.nodes.filter fun a => g.programOrder a (a + 1) && g.ofThread i a) =
      (List.range (count - 1)).map (first + ·) := by
    rcases hle with hle | hzero
    · exact filter_range hle hsource
    · rw [hzero]
      refine List.filter_eq_nil_iff.2 fun a _ => ?_
      rw [hsource]
      omega
  rw [poEdges, List.filter_filter, List.filter_map]
  have hsame : ((fun edge : Nat × Nat => g.ofThread i edge.1 && g.programOrder edge.1 edge.2) ∘
      fun a => (a, a + 1)) = fun a => g.programOrder a (a + 1) && g.ofThread i a :=
    funext fun a => Bool.and_comm _ _
  rw [hsame, hnodes, List.map_map]
  rfl

namespace Stretched
variable (h : g.Stretched)
include h

/-- Nodes in program order are in order, and so is all that lies between. -/
theorem between (hab : g.programOrder a b = true) : a < b ∧
    ∀ m, a ≤ m → m ≤ b → ∀ n, m < n → n ≤ b → g.programOrder m n = true := by
  obtain ⟨i, ha, hb⟩ := ofThread_of_programOrder hab
  obtain ⟨first, count, hi⟩ := h i a ha
  have hle := (hi.nodes a).1 ha
  have hlt := (hi.nodes b).1 hb
  refine ⟨(hi.programOrder_iff_lt ha hb).1 hab, fun m ham hmb n hmn hnb => ?_⟩
  exact (hi.programOrder_iff_lt ((hi.nodes m).2 (by omega)) ((hi.nodes n).2 (by omega))).2 hmn

/-- The edges between neighbours are the pairs in program order with nothing in between. -/
theorem mem_poEdges_iff : (a, b) ∈ g.poEdges ↔ g.programOrder a b = true ∧
    ∀ m, ¬ (g.programOrder a m = true ∧ g.programOrder m b = true) := by
  rw [mem_poEdges]
  constructor
  · rintro ⟨rfl, hab⟩
    refine ⟨hab, fun m hm => ?_⟩
    have hlt := (h.between hm.1).1
    have hlt' := (h.between hm.2).1
    omega
  · rintro ⟨hab, hnone⟩
    obtain ⟨hlt, hinside⟩ := h.between hab
    refine ⟨?_, hab⟩
    by_contra hne
    exact hnone (a + 1) ⟨hinside a (Nat.le_refl a) (Nat.le_of_lt hlt) _ (Nat.lt_succ_self a) hlt,
      hinside (a + 1) (Nat.le_succ a) hlt b (by omega) (Nat.le_refl b)⟩

/-- By induction on the distance of the nodes. -/
theorem transGen_poEdges_iff :
    Relation.TransGen (fun a b => (a, b) ∈ g.poEdges) a b ↔ g.programOrder a b = true := by
  constructor
  · intro hpath
    induction hpath with
    | single hedge => exact (mem_poEdges.1 hedge).2
    | tail _ hedge ih => exact programOrder_trans ih (mem_poEdges.1 hedge).2
  · intro hab
    obtain ⟨hlt, hinside⟩ := h.between hab
    obtain ⟨k, rfl⟩ := Nat.exists_eq_add_of_lt hlt
    have hchain : ∀ j ≤ k, Relation.TransGen (fun a b => (a, b) ∈ g.poEdges) a (a + j + 1) := by
      intro j hj
      have hedge : (a + j, a + j + 1) ∈ g.poEdges :=
        mem_poEdges.2 ⟨rfl, hinside _ (by omega) (by omega) _ (Nat.lt_succ_self _) (by omega)⟩
      induction j with
      | zero => exact .single hedge
      | succ j ih =>
        refine .tail (ih (by omega) ?_) hedge
        exact mem_poEdges.2 ⟨rfl, hinside _ (by omega) (by omega) _ (Nat.lt_succ_self _) (by omega)⟩
    exact hchain k (Nat.le_refl k)

end Stretched

section OfState
open Consistency.Composition
variable {c : Composition} {p : Precision} {s : GlobalState} {l : LocalState} {th : Thread}

def emittedBy (s : GlobalState) (i : Nat) : List Event :=
  s.events.filter fun e => e.owner == .thread i

theorem comesFirst_thread {d e : Event} (hd : d.owner = .thread i) (he : e.owner = .thread i) :
    comesFirst d e = true ↔ d.index ≤ e.index := by
  rw [comesFirst_iff, rank_thread hd, rank_thread he]
  simp

/-- The sort leaves the events of a thread in the order of their emission. -/
theorem events_ofThread (hn : c.Numbered) (h : c.Reachable p s) (ht : c.threads[i]? = some th)
    (hl : s.locals[i]? = some l) :
    ((ofState c s).events.toList.filter fun e => e.owner == .thread i) = emittedBy s i := by
  have hperm := ((events_perm c s).trans s.emitted.reverse_perm.symm).filter
    fun e : Event => e.owner == .thread i
  have hnumbered := (separate_of_reachable hn h).numbered ht hl
  have hindices : (emittedBy s i).Pairwise fun d e => d.index < e.index := by
    refine List.pairwise_map.1 ?_
    rw [emittedBy, hnumbered]
    exact List.pairwise_lt_range
  have hsorted : ((ofState c s).events.toList.filter fun e => e.owner == .thread i).Pairwise
      fun d e => d.index < e.index := by
    refine ((events_ordered hn h).filter _).imp_of_mem fun {d e} hd he hde => ?_
    have hcomes := comesFirst_thread (eq_of_beq (List.mem_filter.1 he).2)
      (eq_of_beq (List.mem_filter.1 hd).2)
    rw [hde] at hcomes
    by_contra hle
    exact absurd (hcomes.2 (Nat.le_of_not_lt hle)) (by decide)
  exact hperm.eq_of_pairwise (fun d e _ _ hde hed => absurd hde (Nat.lt_asymm hed)) hsorted hindices

theorem between_owner {d e f : Event} (hde : comesFirst e d = false) (hef : comesFirst f e = false)
    (hd : d.owner = .thread i) (hf : f.owner = .thread i) : e.owner = .thread i := by
  rw [Bool.eq_false_iff, ne_eq, comesFirst_iff] at hde hef
  rw [rank_thread hd] at hde
  rw [rank_thread hf] at hef
  cases he : e.owner with
  | init =>
    rw [rank_init he] at hde
    exact absurd (.inl Nat.zero_lt_one) hde
  | thread j =>
    rw [rank_thread he] at hde hef
    simp only [Nat.lt_irrefl, false_or, true_and, not_or] at hde hef
    exact congrArg Owner.thread (by omega)

/-- The events of a thread are a stretch, along which they stand as they were emitted. -/
theorem exists_stretch_ofState (hn : c.Numbered) (h : c.Reachable p s)
    (hl : s.locals[i]? = some l) : ∃ first, (ofState c s).Stretch i first l.accesses ∧
      ∀ k < l.accesses, (ofState c s).event? (first + k) = (emittedBy s i)[k]? := by
  have hi := (List.getElem?_eq_some_iff.1 hl).1
  have ht := List.getElem?_eq_getElem ((tidy_of_reachable hn h).length ▸ hi)
  obtain ⟨before, after, hsplit, hbefore, hafter⟩ :=
    exists_stretch (events_ordered hn h) (P := fun e => e.owner == .thread i)
      fun d e f hde hef hd hf => beq_iff_eq.2 (between_owner hde hef (eq_of_beq hd) (eq_of_beq hf))
  rw [events_ofThread hn h ht hl] at hsplit
  have hnumbered : (emittedBy s i).map Event.index = List.range l.accesses :=
    (separate_of_reachable hn h).numbered ht hl
  have hlength : (emittedBy s i).length = l.accesses := by
    rw [← List.length_map, hnumbered, List.length_range]
  have hevent : ∀ a, (ofState c s).event? a = (before ++ (emittedBy s i ++ after))[a]? := by
    intro a
    rw [← hsplit, event?, Array.getElem?_toList]
  have hinside : ∀ k < l.accesses,
      (ofState c s).event? (before.length + k) = (emittedBy s i)[k]? := by
    intro k hk
    rw [hevent, List.getElem?_append_right (by omega), Nat.add_sub_cancel_left,
      List.getElem?_append_left (by omega)]
  have howned : ∀ a e, (ofState c s).event? a = some e → e.owner = .thread i →
      before.length ≤ a ∧ a < before.length + l.accesses := by
    intro a e he howner
    rw [hevent] at he
    by_contra hout
    rcases Nat.lt_or_ge a before.length with hlt | hge
    · rw [List.getElem?_append_left hlt] at he
      simpa [howner] using hbefore e (List.mem_of_getElem? he)
    · rw [List.getElem?_append_right hge, List.getElem?_append_right (by omega)] at he
      simpa [howner] using hafter e (List.mem_of_getElem? he)
  refine ⟨before.length, ⟨fun a => ⟨fun ha => ?_, fun hbounds => ?_⟩, fun a e he howner => ?_⟩,
    hinside⟩
  · obtain ⟨e, he, howner⟩ := ofThread_iff.1 ha
    exact howned a e he howner
  · obtain ⟨hle, hlt⟩ := hbounds
    obtain ⟨k, rfl⟩ := Nat.exists_eq_add_of_le hle
    have hk : k < (emittedBy s i).length := by omega
    have hget := List.getElem?_eq_getElem hk
    refine ofThread_iff.2 ⟨_, (hinside k (by omega)).trans hget, ?_⟩
    exact eq_of_beq (List.mem_filter.1 (List.getElem_mem hk)).2
  · obtain ⟨hle, hlt⟩ := howned a e he howner
    obtain ⟨k, rfl⟩ := Nat.exists_eq_add_of_le hle
    rw [hinside k (by omega)] at he
    have hindex : ((emittedBy s i).map Event.index)[k]? = some e.index := by
      rw [List.getElem?_map, he]
      rfl
    rw [hnumbered, List.getElem?_range (by omega)] at hindex
    rw [Option.some.inj hindex]

/-- The events of a thread stand at the nodes from `first` on as they were emitted. Program order is
the order of these nodes, and the edges lead from each to the next. -/
structure Chain (g : EventGraph) (s : GlobalState) (i : Nat) (l : LocalState) (first : Nat) : Prop
    extends g.Stretch i first l.accesses where
  events : ∀ k < l.accesses, g.event? (first + k) = (emittedBy s i)[k]?
  order : ∀ a b, g.ofThread i a = true → g.ofThread i b = true →
    (g.programOrder a b = true ↔ a < b)
  edges : (g.poEdges.filter fun edge => g.ofThread i edge.1) =
    (List.range (l.accesses - 1)).map fun k => (first + k, first + k + 1)

/-- Program order is that of the paths of the threads, and nothing else. -/
structure PathOrdered (g : EventGraph) (s : GlobalState) : Prop where
  chains : ∀ i l, s.locals[i]? = some l → ∃ first, g.Chain s i l first
  within : ∀ a b, g.programOrder a b = true → ∃ i, g.ofThread i a = true ∧ g.ofThread i b = true
  once : g.poEdges.Nodup
  covers : ∀ a b, (a, b) ∈ g.poEdges ↔ g.programOrder a b = true ∧
    ∀ m, ¬ (g.programOrder a m = true ∧ g.programOrder m b = true)
  closure : ∀ a b, Relation.TransGen (fun a b => (a, b) ∈ g.poEdges) a b ↔
    g.programOrder a b = true

theorem stretched_ofState (hn : c.Numbered) (h : c.Reachable p s) : (ofState c s).Stretched := by
  intro i a ha
  obtain ⟨e, he, howner⟩ := ofThread_iff.1 ha
  obtain ⟨l, hl, -⟩ := (placed_of_reachable hn h).below e (mem_emitted he) i howner
  obtain ⟨first, hstretch, -⟩ := exists_stretch_ofState hn h hl
  exact ⟨first, _, hstretch⟩

theorem pathOrdered_of_reachable {automata : List Automaton} {initial : List (String × Int)}
    (h : (ofAutomata automata initial).Reachable p s) :
    (ofState (ofAutomata automata initial) s).PathOrdered s := by
  have hn := ofAutomata_numbered automata initial
  have hstretched := stretched_ofState hn h
  refine ⟨fun i l hl => ?_, fun _ _ => ofThread_of_programOrder, poEdges_nodup _,
    fun _ _ => hstretched.mem_poEdges_iff, fun _ _ => hstretched.transGen_poEdges_iff⟩
  obtain ⟨first, hstretch, hevents⟩ := exists_stretch_ofState hn h hl
  exact ⟨first, hstretch, hevents, fun _ _ => hstretch.programOrder_iff_lt, hstretch.edges⟩

def crossing : Composition :=
  ofAutomata [.straightLine "P" [.store "x" (.int 1), .load "r" "y"],
    .straightLine "Q" [.store "y" (.int 1), .load "r" "x"]] []

def crossingAfter (actions : List Action) : GlobalState :=
  actions.foldl (fun s a => (crossing.trans .default s a 0).1.headD s) (crossing.init 0).1

theorem crossing_reachable :
    crossing.Reachable .default (crossingAfter [⟨0, 0⟩, ⟨1, 0⟩, ⟨0, 1⟩, ⟨1, 1⟩]) := by
  have hstep : ∀ {s t : GlobalState} (a : Action), crossing.Reachable .default s →
      (crossing.trans .default s a 0).1.head? = some t → crossing.Reachable .default t :=
    fun a hs ht => hs.step a 0 (List.mem_of_head? ht)
  have hfirst : crossing.Reachable .default (crossingAfter [⟨0, 0⟩]) :=
    hstep ⟨0, 0⟩ (.init 0) (by cbv)
  have hsecond : crossing.Reachable .default (crossingAfter [⟨0, 0⟩, ⟨1, 0⟩]) :=
    hstep ⟨1, 0⟩ hfirst (by cbv)
  have hthird : crossing.Reachable .default (crossingAfter [⟨0, 0⟩, ⟨1, 0⟩, ⟨0, 1⟩]) :=
    hstep ⟨0, 1⟩ hsecond (by cbv)
  exact hstep ⟨1, 1⟩ hthird (by cbv)

/-- The threads take turns, and their events are sorted apart. -/
theorem pathOrdered_of_reachable_crossing :
    (crossingAfter [⟨0, 0⟩, ⟨1, 0⟩, ⟨0, 1⟩, ⟨1, 1⟩]).isTerminal = true ∧
      (ofState crossing (crossingAfter [⟨0, 0⟩, ⟨1, 0⟩, ⟨0, 1⟩, ⟨1, 1⟩])).PathOrdered
        (crossingAfter [⟨0, 0⟩, ⟨1, 0⟩, ⟨0, 1⟩, ⟨1, 1⟩]) ∧
      (ofState crossing (crossingAfter [⟨0, 0⟩, ⟨1, 0⟩, ⟨0, 1⟩, ⟨1, 1⟩])).poEdges =
        [(2, 3), (4, 5)] :=
  ⟨by cbv, pathOrdered_of_reachable crossing_reachable, by cbv⟩

end OfState
end EventGraph
end Consistency
