import Consistency.Outcome
import Consistency.Proofs.Query.Solution

/-!
# Executions recovered from partial assignments

An assignment need not name every value. A read without one sees what its first
chosen source stores, and all else is evaluated with what was recovered for the
reads. What cannot be evaluated is left out of the execution.
-/

set_option autoImplicit false

namespace Consistency

namespace Thread
variable {t : Thread} {p : Precision} {s next : LocalState} {e : Edge}

theorem follow_sorted (hs : s.valuation.Sorted) (h : next ∈ t.follow p s e) :
    next.valuation.Sorted :=
  follow_keeps (I := fun next => next.valuation.Sorted) hs (fun _ _ h => h)
    (fun _ reg value h => OrderedMap.insert_sorted h reg value) h

end Thread

/-- No register of a thread has two terms. -/
theorem Composition.registers_sorted {c : Composition} {p : Precision} {s : GlobalState}
    (h : c.Reachable p s) : ∀ l ∈ s.locals, l.valuation.Sorted := by
  refine h.invariant (I := fun s => ∀ l ∈ s.locals, l.valuation.Sorted) (fun number l hl => ?_) ?_
  · obtain ⟨t, -, rfl⟩ := List.mem_map.1 hl
    exact OrderedMap.empty_sorted
  · rintro s a number t ht hs l' hl'
    obtain ⟨th, l, next, -, hl, hstep, -, rfl⟩ := mem_trans ht
    rcases List.mem_or_eq_of_mem_set hl' with hl' | rfl
    · exact hs l' hl'
    · obtain ⟨e, -, -, -, hf⟩ := Thread.mem_step hstep
      exact Thread.follow_sorted (hs l (List.mem_of_getElem? hl)) hf

namespace EventGraph
variable {g : EventGraph} {w : Assignment} {r r' a b : Nat} {y name : String} {d e : Event}

structure Legible (g : EventGraph) : Prop where
  registers : ∀ valuation ∈ g.registers, valuation.keys.Nodup
  symbols : (Query.readSymbols g).Nodup

theorem legible_ofState {c : Composition} {p : Precision} {s : GlobalState} (hn : c.Numbered)
    (hc : c.Initialized) (h : c.Reachable p s) : (ofState c s).Legible where
  registers := by
    intro valuation hv
    obtain ⟨l, hl, rfl⟩ := List.mem_map.1 hv
    exact (Composition.registers_sorted h l hl).nodup
  symbols := readSymbols_nodup hn hc h

theorem Legible.read_unique (hg : g.Legible) (hd : g.event? r = some d) (he : g.event? r' = some e)
    (hrd : d.isRead = true) (hre : e.isRead = true) (h : d.symbol = e.symbol) : r = r' := by
  have hpair : g.events.toList.Pairwise fun d e =>
      d.isRead = true → e.isRead = true → d.symbol ≠ e.symbol :=
    List.pairwise_filter.1 (List.pairwise_map.1 hg.symbols)
  rw [event?, ← Array.getElem?_toList] at hd he
  rcases Nat.lt_trichotomy r r' with hlt | rfl | hlt
  · exact absurd h (rel_of_pairwise hpair hlt hd he hrd hre)
  · rfl
  · exact absurd h.symm (rel_of_pairwise hpair hlt he hd hre hrd)

end EventGraph

namespace Execution
open EventGraph
variable {g : EventGraph} {w : Assignment} {r a : Nat} {y name : String} {n : Int}
  {env : Environment}

structure Source (g : EventGraph) (w : Assignment) (r a : Nat) : Prop where
  candidate : r ∈ g.reads ∧ a ∈ g.writesSameVar r
  chosen : Execution.chosen w (rfSymbol r a) = true
  first : ∀ b ∈ g.writesSameVar r, Execution.chosen w (rfSymbol r b) = true → a ≤ b

theorem mem_readsFrom : (a, r) ∈ readsFrom g w ↔
    (r ∈ g.reads ∧ a ∈ g.writesSameVar r) ∧ Execution.chosen w (rfSymbol r a) = true := by
  rw [← Query.mem_rfCandidates, readsFrom, List.mem_map]
  constructor
  · rintro ⟨⟨r', a'⟩, hmem, he⟩
    obtain ⟨rfl, rfl⟩ := Prod.mk.inj he
    exact List.mem_filter.1 hmem
  · exact fun h => ⟨(r, a), List.mem_filter.2 h, rfl⟩

theorem readsFrom_sorted (g : EventGraph) (w : Assignment) :
    (readsFrom g w).Pairwise fun d e => d.2 = e.2 → d.1 < e.1 := by
  have hcandidates : g.rfCandidates.Pairwise fun d e => d.1 = e.1 → d.2 < e.2 := by
    refine List.pairwise_flatMap.2 ⟨fun r _ => ?_, ?_⟩
    · have hnodes : (g.writesSameVar r).Pairwise (· < ·) :=
        (List.pairwise_lt_range.filter _).filter _
      refine List.pairwise_map.2 (hnodes.imp ?_)
      exact fun hlt _ => hlt
    · refine (List.pairwise_lt_range.filter _).imp fun {r s} hlt d hd e he hsame => ?_
      obtain ⟨a, -, rfl⟩ := List.mem_map.1 hd
      obtain ⟨b, -, rfl⟩ := List.mem_map.1 he
      exact absurd hsame (Nat.ne_of_lt hlt)
  exact List.pairwise_map.2 (hcandidates.filter _)

theorem source_of_find? {found : Nat × Nat}
    (h : (readsFrom g w).find? (fun e => e.2 == r) = some found) : Source g w r found.1 := by
  obtain ⟨hr, before, after, hsplit, hbefore⟩ := List.find?_eq_some_iff_append.1 h
  obtain ⟨a, s⟩ := found
  obtain rfl : s = r := eq_of_beq hr
  have hsorted := readsFrom_sorted g w
  obtain ⟨hcandidate, hchosen⟩ := mem_readsFrom.1 (List.mem_of_find?_eq_some h)
  refine ⟨hcandidate, hchosen, fun b hb hbs => ?_⟩
  have hother : (b, s) ∈ readsFrom g w := mem_readsFrom.2 ⟨⟨hcandidate.1, hb⟩, hbs⟩
  rw [hsplit] at hother hsorted
  rcases List.mem_append.1 hother with hb | hb
  · exact absurd (hbefore _ hb) (by simp)
  · rcases List.mem_cons.1 hb with he | hb
    · exact Nat.le_of_eq (Prod.mk.inj he).1.symm
    · have hafter := (List.pairwise_append.1 hsorted).2.1
      exact Nat.le_of_lt ((List.pairwise_cons.1 hafter).1 _ hb rfl)

theorem Source.unique {b : Nat} (ha : Source g w r a) (hb : Source g w r b) : a = b :=
  Nat.le_antisymm (ha.first b hb.candidate.2 hb.chosen) (hb.first a ha.candidate.2 ha.chosen)

/-- What is found for a read is its source. -/
theorem bind_find?_readsFrom {β : Type} {f : Nat → Option β} {v : β} :
    (((readsFrom g w).find? fun e => e.2 == r).bind fun e => f e.1) = some v ↔
      ∃ a, Source g w r a ∧ f a = some v := by
  constructor
  · intro h
    obtain ⟨found, hfound, hv⟩ := Option.bind_eq_some_iff.1 h
    exact ⟨found.1, source_of_find? hfound, hv⟩
  · rintro ⟨a, ha, hv⟩
    have hsome : ((readsFrom g w).find? fun e => e.2 == r).isSome = true :=
      List.find?_isSome.2 ⟨(a, r), mem_readsFrom.2 ⟨ha.candidate, ha.chosen⟩, by simp⟩
    obtain ⟨found, hfound⟩ := Option.isSome_iff_exists.1 hsome
    rw [hfound, Option.bind_some, (source_of_find? hfound).unique ha, hv]

/-- The value of a symbol: what the assignment says, or else what the source of the read stores
by the assignment alone. -/
def Recovered (g : EventGraph) (w : Assignment) (name : String) (n : Int) : Prop :=
  w.getInt? name = some n ∨ w.getInt? name = none ∧
    ∃ r e, g.event? r = some e ∧ e.isRead = true ∧ e.symbol = name ∧
      ∃ a t, Source g w r a ∧ (g.event? a).bind Event.value = some t ∧
        t.Computes (intEnvironment w) n

def recovered (g : EventGraph) (w : Assignment) : Environment :=
  environment w (readEntries g w (readsFrom g w))

theorem readValue_eq_some (h : w.getInt? name = none) :
    readValue g w (readsFrom g w) r name = some n ↔
      ∃ a t, Source g w r a ∧ (g.event? a).bind Event.value = some t ∧
        t.Computes (intEnvironment w) n := by
  have hfind : readValue g w (readsFrom g w) r name =
      ((readsFrom g w).find? fun e => e.2 == r).bind fun e =>
        ((g.event? e.1).bind Event.value).bind (intOf (intEnvironment w)) := by
    simp only [readValue, h, Option.none_or, Option.bind_assoc, bind]
  rw [hfind, bind_find?_readsFrom (f := fun a => ((g.event? a).bind Event.value).bind _)]
  simp only [Option.bind_eq_some_iff (x := (g.event? _).bind Event.value), intOf_eq_some,
    exists_and_left]

theorem mem_readEntries {v : Int} : (r, name, v) ∈ readEntries g w (readsFrom g w) ↔
    ∃ e, g.event? r = some e ∧ e.isRead = true ∧ e.symbol = name ∧
      readValue g w (readsFrom g w) r name = some v := by
  rw [readEntries, List.mem_filterMap]
  constructor
  · rintro ⟨r', hr, hentry⟩
    obtain ⟨e, he, hentry⟩ := Option.bind_eq_some_iff.1 hentry
    obtain ⟨symbol, hsymbol, hentry⟩ := Option.bind_eq_some_iff.1 hentry
    obtain ⟨value, hvalue, hentry⟩ := Option.bind_eq_some_iff.1 hentry
    obtain ⟨rfl, rfl, rfl⟩ : r' = r ∧ symbol = name ∧ value = v := by simpa using hentry
    obtain ⟨hr, rfl⟩ : e.isRead = true ∧ e.symbol = symbol := by simpa [Event.symbol?] using hsymbol
    exact ⟨e, he, hr, rfl, hvalue⟩
  · rintro ⟨e, he, hr, rfl, hv⟩
    refine ⟨r, EventGraph.mem_reads.2 ⟨e, he, hr⟩, ?_⟩
    simp [he, Event.symbol?, hr, hv]

/-- Reads have symbols of their own, so that it does not matter which entry is found. -/
theorem find?_readEntries (hg : g.Legible) (hw : w.getInt? name = none) :
    ((readEntries g w (readsFrom g w)).reverse.find? fun e => e.2.1 == name).map (fun e => e.2.2) =
      some n ↔ Recovered g w name n := by
  have hentry : ∀ {found}, ((readEntries g w (readsFrom g w)).reverse.find?
      fun e => e.2.1 == name) = some found → ∃ e, g.event? found.1 = some e ∧ e.isRead = true ∧
        e.symbol = name ∧ readValue g w (readsFrom g w) found.1 name = some found.2.2 := by
    intro found hfound
    obtain ⟨r, symbol, v⟩ := found
    obtain rfl : symbol = name := by simpa using List.find?_some hfound
    exact mem_readEntries.1 (List.mem_reverse.1 (List.mem_of_find?_eq_some hfound))
  constructor
  · intro h
    obtain ⟨found, hfound, rfl⟩ := Option.map_eq_some_iff.1 h
    obtain ⟨e, he, hr, hsymbol, hv⟩ := hentry hfound
    exact .inr ⟨hw, found.1, e, he, hr, hsymbol, (readValue_eq_some hw).1 hv⟩
  · rintro (h | ⟨-, r, e, he, hr, rfl, hsource⟩)
    · rw [hw] at h
      exact absurd h (by simp)
    · have hv := (readValue_eq_some hw).2 hsource
      have hmem := mem_readEntries.2 ⟨e, he, hr, rfl, hv⟩
      have hsome : ((readEntries g w (readsFrom g w)).reverse.find?
          fun d => d.2.1 == e.symbol).isSome = true :=
        List.find?_isSome.2 ⟨_, List.mem_reverse.2 hmem, by simp⟩
      obtain ⟨found, hfound⟩ := Option.isSome_iff_exists.1 hsome
      obtain ⟨d, hd, hrd, hsame, hvd⟩ := hentry hfound
      rw [hg.read_unique hd he hrd hr hsame, hv] at hvd
      rw [hfound, Option.map_some, Option.some.inj hvd]

/-- What the environment says of a symbol. -/
theorem recovered_eq_some (hg : g.Legible) {value : Value} :
    recovered g w name = some value ↔ ∃ n, value = .int n ∧ Recovered g w name n := by
  rw [recovered, environment, Option.map_eq_some_iff]
  cases hw : w.getInt? name with
  | some k =>
    simp only [Option.some_or, Option.some.injEq, exists_eq_left']
    constructor
    · rintro rfl
      exact ⟨k, rfl, .inl hw⟩
    · rintro ⟨n, rfl, h | ⟨h, -⟩⟩
      · rw [Option.some.inj (hw.symm.trans h)]
      · rw [hw] at h
        exact absurd h (by simp)
  | none =>
    simp only [Option.none_or, find?_readEntries hg hw]
    exact exists_congr fun n => and_comm.trans (and_congr_left fun _ => eq_comm)

def Recovers (g : EventGraph) (w : Assignment) (env : Environment) : Prop :=
  ∀ name value, env name = some value ↔ ∃ n, value = .int n ∧ Recovered g w name n

theorem recovers_iff (hg : g.Legible) : Recovers g w env ↔ env = recovered g w := by
  constructor
  · intro h
    funext name
    exact Option.ext fun value => (h name value).trans (recovered_eq_some hg).symm
  · rintro rfl name value
    exact recovered_eq_some hg

/-- The write that is put last: no other has more predecessors, and among those with as many it
is the last node. -/
structure Last (g : EventGraph) (w : Assignment) (y : String) (a : Nat) : Prop where
  write : a ∈ g.writesTo y
  latest : ∀ b ∈ g.writesTo y,
    predecessors w (g.writesTo y) b < predecessors w (g.writesTo y) a ∨
      predecessors w (g.writesTo y) b = predecessors w (g.writesTo y) a ∧ b ≤ a

theorem Last.unique {b : Nat} (ha : Last g w y a) (hb : Last g w y b) : a = b := by
  have hba := ha.latest b hb.write
  have hab := hb.latest a ha.write
  omega

theorem getLast?_coherenceOrder :
    (coherenceOrder w (g.writesTo y)).getLast? = some a ↔ Last g w y a := by
  have hperm := coherenceOrder_perm w (g.writesTo y)
  have hlast : ∀ b, (coherenceOrder w (g.writesTo y)).getLast? = some b → Last g w y b := by
    intro b hb
    obtain ⟨before, hsplit⟩ := List.getLast?_eq_some_iff.1 hb
    have hsorted := coherenceOrder_sorted w (g.writesTo y)
    rw [hsplit] at hperm hsorted
    refine ⟨hperm.mem_iff.1 (by simp), fun d hd => ?_⟩
    rcases List.mem_append.1 (hperm.mem_iff.2 hd) with hd | hd
    · exact (List.pairwise_append.1 hsorted).2.2 d hd b (List.mem_singleton_self b)
    · rw [List.mem_singleton.1 hd]
      exact .inr ⟨rfl, Nat.le_refl b⟩
  refine ⟨hlast a, fun ha => ?_⟩
  cases hb : (coherenceOrder w (g.writesTo y)).getLast? with
  | none =>
    rw [List.getLast?_eq_none_iff] at hb
    rw [hb] at hperm
    exact absurd (hperm.mem_iff.2 ha.write) List.not_mem_nil
  | some b => rw [(hlast b hb).unique ha]

theorem get?_valuesOf (env : Environment) {valuation : OrderedMap String Term} (h : valuation.keys.Nodup)
    (reg : String) : (valuesOf env valuation).get? reg = (valuation.get? reg).bind (intOf env) :=
  OrderedMap.get?_filterMap_entries h (intOf env) reg

theorem getD_intOf {t : Term} : (intOf env t).getD 0 = n ↔
    t.Computes env n ∨ n = 0 ∧ ∀ k, ¬ t.Computes env k := by
  simp only [← intOf_eq_some]
  cases intOf env t with
  | none => simp [eq_comm]
  | some k => simp

theorem mem_sharedVars_of_writesTo (ha : a ∈ g.writesTo y) : y ∈ g.sharedVars.toList := by
  obtain ⟨e, he, -, rfl⟩ := EventGraph.mem_writesTo.1 ha
  exact OrderedSet.mem_ofList.2 (List.mem_map_of_mem
    (Array.mem_toList_iff.2 (Array.mem_of_getElem? he)))

/-- A variable ends with what its last write stores. -/
theorem get?_finalMemory_eq_some : (ofAssignment g w).finalMemory.get? y = some n ↔
    ∃ a t, Last g w y a ∧ (g.event? a).bind Event.value = some t ∧
      t.Computes (recovered g w) n := by
  have hcoherence : (ofAssignment g w).finalMemory.get? y = some n ↔
      ∃ a, (coherenceOrder w (g.writesTo y)).getLast? = some a ∧
        (ofAssignment g w).writeValues.get? a = some n := by
    rw [get?_finalMemory]
    constructor
    · intro h
      obtain ⟨order, horder, h⟩ := Option.bind_eq_some_iff.1 h
      obtain ⟨-, rfl, -⟩ := get?_coherenceOf.1 horder
      exact Option.bind_eq_some_iff.1 h
    · rintro ⟨a, ha, hn⟩
      have hy := mem_sharedVars_of_writesTo (getLast?_coherenceOrder.1 ha).write
      have hne : coherenceOrder w (g.writesTo y) ≠ [] := by
        intro hnil
        simp [hnil] at ha
      have horder : (ofAssignment g w).coherence.get? y = some (coherenceOrder w (g.writesTo y)) :=
        get?_coherenceOf.2 ⟨hy, rfl, hne⟩
      rw [horder, Option.bind_some, ha, Option.bind_some, hn]
  rw [hcoherence]
  refine exists_congr fun a => ?_
  rw [getLast?_coherenceOrder, exists_and_left]
  refine and_congr_right fun ha => ?_
  rw [get?_writeValues (write_of_writesTo ha.write), Option.bind_eq_some_iff]
  exact exists_congr fun t => and_congr_right fun _ => intOf_eq_some

end Execution

open Execution in
/-- The execution ends as the atom asks; a register may also be without a value and be asked
for 0. -/
def Atom.Shown (g : EventGraph) (w : Assignment) (env : Environment) : Atom → Prop
  | .register p reg n => ∃ t, g.registerTerm p reg = some t ∧
      (t.Computes env n ∨ n = 0 ∧ ∀ k, ¬ t.Computes env k)
  | .memory y n => ∃ a t, Last g w y a ∧ (g.event? a).bind Event.value = some t ∧ t.Computes env n

open Execution in
theorem atomHolds_iff {g : EventGraph} {w : Assignment} (hg : g.Legible) {d : Atom} :
    Outcome.atomHolds (.ofAssignment g w) d = true ↔ d.Shown g w (recovered g w) := by
  cases d with
  | memory y n =>
    rw [Outcome.atomHolds, beq_iff_eq]
    exact get?_finalMemory_eq_some
  | register p reg n =>
    have hvalues : (ofAssignment g w).finalRegisters[p]? =
        g.registers[p]?.map (valuesOf (recovered g w)) := List.getElem?_map
    rw [Outcome.atomHolds, hvalues, Atom.Shown, EventGraph.registerTerm]
    cases hp : g.registers[p]? with
    | none => simp
    | some valuation =>
      have hget := get?_valuesOf (recovered g w)
        (hg.registers valuation (List.mem_of_getElem? hp)) reg
      have hdefault : ((valuation.get? reg).bind (intOf (recovered g w))).getD 0 =
          (intOf (recovered g w) ((valuation.get? reg).getD (.int 0))).getD 0 := by
        cases valuation.get? reg <;> rfl
      simp only [Option.map_some, hget, hdefault, beq_iff_eq, Option.some.injEq, exists_eq_left']
      exact getD_intOf

end Consistency
