import Consistency.Proofs.Composition.Typing
import Consistency.Proofs.Query.Asserted
import Consistency.Proofs.Query.Domain
import Consistency.Proofs.Solver.WellFormed

/-!
# Queries in order

Every command of a query may come after those before it: what it declares is new,
and what it asserts is a formula over the constants declared so far. Definitions
are numbered, so that each declares a name that there was not.
-/

set_option autoImplicit false

namespace Consistency

open Command

namespace Matrix
variable {D E : Sorts} {M N : Matrix}

def Typed (D : Sorts) (M : Matrix) : Prop := ∀ row ∈ M.rows, ∀ t ∈ row, t.HasSort D .bool

theorem Typed.mono (h : M.Typed D) (hDE : D ≤ E) : M.Typed E :=
  fun row hrow t ht => (h row hrow t ht).mono t fun x _ => hDE x

theorem Typed.entry (h : M.Typed D) (a b : Nat) : (M.entry a b).HasSort D .bool := by
  unfold Matrix.entry
  rw [Array.getD_eq_getD_getElem?, Array.getD_eq_getD_getElem?]
  cases hrow : M.rows[a]? with
  | none => simp [Term.HasSort]
  | some row =>
    rw [Option.getD_some]
    cases ht : row[b]? with
    | none => simp [Term.HasSort]
    | some t => exact h row (Array.mem_of_getElem? hrow) t (Array.mem_of_getElem? ht)

theorem typed_build {n : Nat} {f : Nat → Nat → Term} (h : ∀ a b, (f a b).HasSort D .bool) :
    (build n f).Typed D := by
  intro row hrow t ht
  obtain ⟨a, rfl⟩ := Array.mem_ofFn.1 hrow
  obtain ⟨b, rfl⟩ := Array.mem_ofFn.1 ht
  exact h a b

theorem typed_ofPredicate (n : Nat) (p : Nat → Nat → Bool) : (ofPredicate n p).Typed D :=
  typed_build fun _ _ => rfl

theorem Typed.union (hM : M.Typed D) (hN : N.Typed D) : (M.union N).Typed D :=
  typed_build fun a b => Term.hasSort_mkOr (by simp [hM.entry a b, hN.entry a b])

theorem Typed.inter (hM : M.Typed D) (hN : N.Typed D) : (M.inter N).Typed D :=
  typed_build fun a b => Term.hasSort_mkAnd (by simp [hM.entry a b, hN.entry a b])

theorem Typed.diff (hM : M.Typed D) (hN : N.Typed D) : (M.diff N).Typed D :=
  typed_build fun a b => Term.hasSort_mkAnd (by simp [hM.entry a b, (hN.entry a b).mkNot])

theorem Typed.seq (hM : M.Typed D) (hN : N.Typed D) : (M.seq N).Typed D := by
  refine typed_build fun a c => Term.hasSort_mkOr fun t ht => ?_
  obtain ⟨b, -, rfl⟩ := List.mem_map.1 ht
  exact Term.hasSort_mkAnd (by simp [hM.entry a b, hN.entry b c])

theorem Typed.inverse (hM : M.Typed D) : M.inverse.Typed D := typed_build fun a b => hM.entry b a

theorem Typed.diagonal (hM : M.Typed D) : ∀ t ∈ M.diagonal, t.HasSort D .bool := by
  intro t ht
  obtain ⟨a, -, rfl⟩ := List.mem_map.1 ht
  exact hM.entry a a

theorem Typed.entries (hM : M.Typed D) : ∀ t ∈ M.entries, t.HasSort D .bool := by
  intro t ht
  obtain ⟨row, hrow, ht⟩ := List.mem_flatMap.1 ht
  exact hM row (Array.mem_toList_iff.1 hrow) t (Array.mem_toList_iff.1 ht)

end Matrix

namespace Query
variable {g : EventGraph} {m : MemoryModel} {o : Outcome} {q q₁ : QueryState} {D E : Sorts}
  {t : Term}

def BaseSorts (g : EventGraph) (o : Outcome) : Sorts := fun x k => (x, k) ∈ declarations g o

/-- A query after its declarations: commands are in order, the names of later definitions are not
taken, and the matrices kept are over what is declared. -/
structure Proper (g : EventGraph) (o : Outcome) (q : QueryState) : Prop where
  orderly : Orderly q.commands
  base : BaseSorts g o ≤ sortsOf q.commands
  fresh : ∀ k l, q.definitions ≤ k → ¬ sortsOf q.commands (definitionSymbol k) l
  named : ∀ y M, q.named.lookup y = some M → M.Typed (sortsOf q.commands)

/-- From where `D` is declared on, the query stays proper, and `Q` says of the result what it is
over the constants declared in the end. -/
def Types {α : Type} (g : EventGraph) (o : Outcome) (D : Sorts) (f : QueryM α)
    (Q : Sorts → α → Prop) : Prop :=
  ∀ ⦃q a q₁⦄, Proper g o q → D ≤ sortsOf q.commands → Runs f q a q₁ →
    Proper g o q₁ ∧ sortsOf q.commands ≤ sortsOf q₁.commands ∧ Q (sortsOf q₁.commands) a

def Keeps (g : EventGraph) (o : Outcome) (D : Sorts) (f : QueryM PUnit) : Prop :=
  Types g o D f fun _ _ => True

section Types
variable {α β : Type} {f : QueryM α} {k : α → QueryM β} {Q : Sorts → α → Prop}
  {R : Sorts → β → Prop}

theorem Types.mono (h : Types g o D f Q) (hDE : D ≤ E) : Types g o E f Q :=
  fun _ _ _ hq hE hrun => h hq (hDE.trans hE) hrun

theorem types_pure {a : α} (h : ∀ E, D ≤ E → Q E a) : Types g o D (pure a) Q := by
  intro q b q₁ hq hD hrun
  obtain ⟨rfl, rfl⟩ := Runs.pure_iff.1 hrun
  exact ⟨hq, le_refl _, h _ hD⟩

theorem types_throw (e : ModelError) : Types g o D (throw e) Q := by
  intro q a q₁ _ _ hrun
  exact absurd hrun (by simp)

theorem Types.bind (hf : Types g o D f Q) (hk : ∀ E a, D ≤ E → Q E a → Types g o E (k a) R) :
    Types g o D (f >>= k) R := by
  intro q b q₂ hq hD hrun
  obtain ⟨a, q₁, hf', hk'⟩ := Runs.bind_iff.1 hrun
  obtain ⟨hq₁, hle, ha⟩ := hf hq hD hf'
  obtain ⟨hq₂, hle', hb⟩ := hk _ a (hD.trans hle) ha hq₁ (le_refl _) hk'
  exact ⟨hq₂, hle.trans hle', hb⟩

theorem Keeps.bind {f : QueryM PUnit} {k : PUnit → QueryM β} (hf : Keeps g o D f)
    (hk : ∀ u, Types g o D (k u) R) : Types g o D (f >>= k) R :=
  Types.bind hf fun _ u hDE _ => (hk u).mono hDE

theorem types_get {k : QueryState → QueryM β}
    (hk : ∀ q, Proper g o q → D ≤ sortsOf q.commands → Types g o (sortsOf q.commands) (k q) R) :
    Types g o D (get >>= k) R := by
  intro q b q₁ hq hD hrun
  obtain ⟨_, _, hget, hrun'⟩ := Runs.bind_iff.1 hrun
  obtain ⟨rfl, rfl⟩ := Runs.get_iff.1 hget
  exact hk _ hq hD hq (le_refl _) hrun'

theorem keeps_forM {xs : List α} {k : α → QueryM PUnit} (hk : ∀ a ∈ xs, Keeps g o D (k a)) :
    Keeps g o D (xs.forM k) := by
  induction xs with
  | nil => exact types_pure fun _ _ => trivial
  | cons x xs ih =>
    rw [List.forall_mem_cons] at hk
    exact Keeps.bind hk.1 fun _ => ih hk.2

/-- What is found for each element stays true while the others are gone through. -/
theorem types_mapM {xs : List α} {k : α → QueryM β} (hk : ∀ a ∈ xs, Types g o D (k a) R)
    (hR : ∀ D E b, D ≤ E → R D b → R E b) :
    Types g o D (xs.mapM k) fun E ys => ∀ y ∈ ys, R E y := by
  induction xs generalizing D with
  | nil => exact types_pure fun _ _ => by simp
  | cons x xs ih =>
    rw [List.forall_mem_cons] at hk
    rw [List.mapM_cons]
    refine hk.1.bind fun E b hDE hb => ?_
    refine (ih fun a ha => (hk.2 a ha).mono hDE).bind fun F ys hEF hys => types_pure fun G hFG => ?_
    exact List.forall_mem_cons.2 ⟨hR E G b (hEF.trans hFG) hb, fun y hy => hR F G y hFG (hys y hy)⟩

theorem types_array_mapM {xs : Array α} {k : α → QueryM β} (hk : ∀ a ∈ xs, Types g o D (k a) R)
    (hR : ∀ D E b, D ≤ E → R D b → R E b) :
    Types g o D (xs.mapM k) fun E ys => ∀ y ∈ ys, R E y := by
  intro q ys q₁ hq hD hrun
  obtain ⟨hq₁, hle, hys⟩ := types_mapM (fun a ha => hk a (Array.mem_toList_iff.1 ha)) hR hq hD
    (Runs.array_mapM_iff.1 hrun)
  exact ⟨hq₁, hle, fun y hy => hys y (Array.mem_toList_iff.2 hy)⟩

end Types

/-- A comment or assertion may be added. -/
theorem Proper.add (hq : Proper g o q) {c : Command} (hc : c.declared = none)
    (h : c.Follows q.commands) : Proper g o { q with commands := c :: q.commands } := by
  have hsorts : sortsOf (c :: q.commands) = sortsOf q.commands := by
    funext x k
    rw [sortsOf, List.filterMap_cons, hc]
    rfl
  obtain ⟨horderly, hbase, hfresh, hnamed⟩ := hq
  exact ⟨⟨h, horderly⟩, hsorts ▸ hbase, hsorts ▸ hfresh, hsorts ▸ hnamed⟩

theorem sortsOf_cons_le (c : Command) (cs : List Command) : sortsOf cs ≤ sortsOf (c :: cs) := by
  intro x k h
  exact ((List.suffix_cons c cs).filterMap declared).subset h

theorem keeps_heading (title : String) : Keeps g o D (heading title) := by
  intro q a q₁ hq _ hrun
  obtain rfl := Runs.modify_iff.1 hrun
  exact ⟨hq.add rfl trivial, sortsOf_cons_le _ _, trivial⟩

theorem keeps_assert (h : t.HasSort D .bool) : Keeps g o D (assert t) := by
  unfold assert
  split
  · exact types_pure fun _ _ => trivial
  · intro q a q₁ hq hD hrun
    obtain rfl := Runs.modify_iff.1 hrun
    exact ⟨hq.add rfl (h.mono t fun x _ => hD x), sortsOf_cons_le _ _, trivial⟩

/-- A definition declares the next name and says what it stands for. -/
theorem Proper.define (hq : Proper g o q) (h : t.HasSort (sortsOf q.commands) .bool) :
    Proper g o (defined q t) := by
  have hsorts : ∀ x k, sortsOf (defined q t).commands x k ↔
      (x = definitionSymbol q.definitions ∧ k = .bool) ∨ sortsOf q.commands x k := by
    intro x k
    show (x, k) ∈ (definitionSymbol q.definitions, .bool) :: q.declared ↔ _
    rw [List.mem_cons, Prod.mk.injEq]
    rfl
  have hle : sortsOf q.commands ≤ sortsOf (defined q t).commands :=
    fun x k hx => (hsorts x k).2 (.inr hx)
  refine ⟨⟨⟨rfl, (hsorts _ _).2 (.inl ⟨rfl, rfl⟩), h.mono t fun x _ => hle x⟩, ⟨.inl rfl, ?_⟩,
    hq.orderly⟩, hq.base.trans hle, fun k l hk hdeclared => ?_,
    fun y M hM => (hq.named y M hM).mono hle⟩
  · exact fun l => hq.fresh _ l (le_refl _)
  · have hlt : q.definitions < k := hk
    rcases (hsorts _ _).1 hdeclared with ⟨hsame, -⟩ | hbefore
    · exact absurd (definitionSymbol_injective hsame) (Nat.ne_of_gt hlt)
    · exact hq.fresh k l hlt.le hbefore

theorem types_name (h : t.HasSort D .bool) :
    Types g o D (name t) fun E u => u.HasSort E .bool := by
  unfold name
  split
  · exact types_pure fun _ _ => h
  · exact types_pure fun _ hDE => h.mono _ fun x _ => hDE x
  · intro q u q₁ hq hD hrun
    have hdefined : q₁ = defined q t ∧ u = .const (definitionSymbol q.definitions) := by
      simpa [assert, add, defined, Runs.map_iff] using hrun
    obtain ⟨rfl, rfl⟩ := hdefined
    have hproper := hq.define (h.mono t fun x _ => hD x)
    refine ⟨hproper, ?_, ?_⟩
    · exact (sortsOf_cons_le _ _).trans (sortsOf_cons_le _ _)
    · simp [Term.HasSort, sortsOf, defined, Command.declared]

theorem types_nameAll {M : Matrix} (h : M.Typed D) :
    Types g o D (nameAll M) fun E N => N.Typed E := by
  have hrows : Types g o D (M.rows.mapM fun row => row.mapM name)
      fun E rows => ∀ row ∈ rows, ∀ t ∈ row, t.HasSort E .bool :=
    types_array_mapM (fun row hrow => types_array_mapM (fun t ht => types_name (h row hrow t ht))
      fun _ _ t hDE ht => ht.mono t fun x _ => hDE x)
      fun _ _ row hDE hrow t ht => (hrow t ht).mono t fun x _ => hDE x
  exact hrows.bind fun E rows _ hrows => types_pure fun F hEF =>
    Matrix.Typed.mono (M := ⟨rows⟩) hrows hEF

theorem types_squareTimes (n : Nat) {M : Matrix} (h : M.Typed D) :
    Types g o D (squareTimes n M) fun E N => N.Typed E := by
  induction n generalizing M D with
  | zero => exact types_pure fun _ hDE => h.mono hDE
  | succ n ih => exact (types_nameAll (h.union (h.seq h))).bind fun _ _ _ hN => ih hN

theorem types_closure {M : Matrix} (h : M.Typed D) :
    Types g o D (closure M) fun E N => N.Typed E :=
  (types_nameAll h).bind fun _ _ _ hN => types_squareTimes _ hN

theorem types_ruledOut (kind : AxiomKind) {M : Matrix} (h : M.Typed D) :
    Types g o D (ruledOut kind M) fun E ts => ∀ t ∈ ts, t.HasSort E .bool := by
  cases kind with
  | acyclic => exact (types_closure h).bind fun _ _ _ hN =>
      types_pure fun _ hEF => (hN.mono hEF).diagonal
  | irreflexive => exact types_pure fun _ hDE => (h.mono hDE).diagonal
  | empty => exact types_pure fun _ hDE => (h.mono hDE).entries

section Choices
variable (hD : BaseSorts g o ≤ D)
include hD

theorem hasSort_rfTerm {r w : Nat} (hr : r ∈ g.reads) (hw : w ∈ g.writesSameVar r) :
    (rfTerm r w).HasSort D .bool := hD _ _ (mem_declarations.2 (.inl ⟨.rf hr hw, rfl⟩))

theorem hasSort_coTerm {a b : Nat} (ha : a ∈ g.writes) (hb : b ∈ g.writesSameVar a) (hne : a ≠ b) :
    (coTerm g a b).HasSort D .bool := by
  unfold coTerm
  split
  · rfl
  · split
    · rfl
    · next hia hib =>
      exact hD _ _ (mem_declarations.2 (.inl
        ⟨.co ha hb hne (Bool.eq_false_iff.2 hia) (Bool.eq_false_iff.2 hib), rfl⟩))

theorem hasSort_fromRead (r w : Nat) : (fromRead g r w).HasSort D .bool := by
  unfold fromRead
  split
  · next h =>
    obtain ⟨hr, hw⟩ := readsFrom_iff.1 h
    refine Term.hasSort_mkOr fun t ht => ?_
    obtain ⟨v, hv, rfl⟩ := List.mem_map.1 ht
    obtain ⟨hvr, hvw, hwv, hne⟩ := mem_earlier hw hv
    exact Term.hasSort_mkAnd
      (by simp [hasSort_rfTerm hD hr hvr, hasSort_coTerm hD hvw hwv hne])
  · rfl

theorem typed_base (rel : BaseRelation) : (base g rel).Typed D := by
  cases rel with
  | rf =>
    refine Matrix.typed_build fun w r => ?_
    unfold rfEntry
    split
    · next h => exact hasSort_rfTerm hD (readsFrom_iff.1 h).1 (readsFrom_iff.1 h).2
    · rfl
  | co =>
    refine Matrix.typed_build fun a b => ?_
    unfold coEntry
    split
    · next h =>
      obtain ⟨ha, hb, hne⟩ := coherence_iff.1 h
      exact hasSort_coTerm hD ha hb hne
    · rfl
  | fr => exact Matrix.typed_build (hasSort_fromRead hD)
  | po | loc | int | ext | id => exact Matrix.typed_ofPredicate _ _

end Choices

theorem types_relation {lookup : String → QueryM Matrix}
    (hl : ∀ E y, D ≤ E → Types g o E (lookup y) fun F N => N.Typed F) (hD : BaseSorts g o ≤ D)
    (e : RelExpr) : Types g o D (relation g lookup e) fun E M => M.Typed E := by
  induction e generalizing D with
  | base rel => exact types_pure fun _ hDE => typed_base (hD.trans hDE) rel
  | named y => exact hl D y (le_refl D)
  | product s t => exact types_pure fun _ _ => Matrix.typed_ofPredicate _ _
  | identity s => exact types_pure fun _ _ => Matrix.typed_ofPredicate _ _
  | binary op d e ihd ihe =>
    rw [relation]
    refine (ihd hl hD).bind fun E M hDE hM => ?_
    refine (ihe (fun F y hEF => hl F y (hDE.trans hEF)) (hD.trans hDE)).bind fun F N hEF hN =>
      types_pure fun G hFG => ?_
    have hM := hM.mono (hEF.trans hFG)
    have hN := hN.mono hFG
    cases op with
    | union => exact hM.union hN
    | inter => exact hM.inter hN
    | diff => exact hM.diff hN
    | seq => exact hM.seq hN
  | suffixed op e ih =>
    rw [relation]
    refine (ih hl hD).bind fun E M hDE hM => ?_
    cases op with
    | inverse => exact types_pure fun _ hEF => (hM.mono hEF).inverse
    | plus => exact types_closure hM
    | star => exact (types_closure hM).bind fun _ N _ hN => types_pure fun _ hFG =>
        (hN.mono hFG).union (Matrix.typed_ofPredicate _ _)
    | optional => exact types_pure fun _ hEF =>
        (hM.mono hEF).union (Matrix.typed_ofPredicate _ _)

/-- A matrix may be kept for a name. -/
theorem keeps_named {M : Matrix} (h : M.Typed D) (y : String) :
    Keeps g o D (modify fun q => { q with named := (y, M) :: q.named }) := by
  intro q a q₁ hq hD hrun
  obtain rfl := Runs.modify_iff.1 hrun
  refine ⟨⟨hq.orderly, hq.base, hq.fresh, fun z N hN => ?_⟩, le_refl _, trivial⟩
  rw [List.lookup_cons] at hN
  split at hN
  · obtain rfl := Option.some.inj hN
    exact h.mono hD
  · exact hq.named z N hN

theorem types_namedRelation (fuel : Nat) (y : String) (hD : BaseSorts g o ≤ D) :
    Types g o D (namedRelation g m fuel y) fun E M => M.Typed E := by
  induction fuel generalizing y D with
  | zero => exact types_throw _
  | succ fuel ih =>
    rw [namedRelation]
    refine types_get fun q hq hDq => ?_
    split
    · next known hknown => exact types_pure fun _ hE => (hq.named y known hknown).mono hE
    · split
      · exact types_throw _
      · refine (types_relation (fun E z hE => ih z ((hD.trans hDq).trans hE)) (hD.trans hDq) _).bind
          fun E M hE hM => ?_
        refine (types_nameAll hM).bind fun F N hEF hN => ?_
        exact Keeps.bind (keeps_named hN y) fun _ => types_pure fun _ hFG => hN.mono hFG

theorem keeps_axiom (hD : BaseSorts g o ≤ D) (d : Axiom) : Keeps g o D (assertAxiom g m d) := by
  unfold assertAxiom
  refine Keeps.bind (keeps_heading _) fun _ => ?_
  refine (types_relation (fun E y hE => types_namedRelation _ y (hD.trans hE)) hD _).bind
    fun E M _ hM => ?_
  refine (types_ruledOut d.kind hM).bind fun F ts _ hts => ?_
  exact keeps_forM fun t ht => keeps_assert (hts t ht).mkNot

theorem keeps_readsFrom (hD : BaseSorts g o ≤ D) : Keeps g o D (assertReadsFrom g) := by
  refine Keeps.bind (keeps_heading _) fun _ => keeps_forM fun r hr => ?_
  refine Keeps.bind (keeps_assert (Term.hasSort_mkOr fun t ht => ?_)) fun _ =>
    keeps_forM fun p hp => keeps_assert (Term.HasSort.mkNot (Term.hasSort_mkAnd ?_))
  · obtain ⟨w, hw, rfl⟩ := List.mem_map.1 ht
    exact hasSort_rfTerm hD hr hw
  · obtain ⟨hv, hw, -⟩ := mem_laterPairs (writesSameVar_nodup g r) hp
    simp [hasSort_rfTerm hD hr hv, hasSort_rfTerm hD hr hw]

theorem hasSort_laterWrites (hD : BaseSorts g o ≤ D) {y : String} {a b : Nat}
    (ha : a ∈ laterWrites g y) (hb : b ∈ laterWrites g y) (hne : a ≠ b) :
    (coTerm g a b).HasSort D .bool := by
  have ha' := List.mem_of_mem_filter ha
  exact hasSort_coTerm hD (List.mem_of_mem_filter ha')
    (EventGraph.mem_writesSameVar_of_writesTo ha' (List.mem_of_mem_filter hb)) hne

theorem keeps_coherence (hD : BaseSorts g o ≤ D) : Keeps g o D (assertCoherence g) := by
  refine Keeps.bind (keeps_heading _) fun _ => keeps_forM fun y _ => ?_
  refine Keeps.bind (keeps_forM fun p hp => ?_) fun _ => keeps_forM fun p hp => ?_
  · obtain ⟨ha, hb, hne⟩ := mem_laterPairs (laterWrites_nodup g y) hp
    have hab := hasSort_laterWrites hD ha hb hne
    have hba := hasSort_laterWrites hD hb ha hne.symm
    exact Keeps.bind (keeps_assert (Term.hasSort_mkOr (by simp [hab, hba]))) fun _ =>
      keeps_assert (Term.HasSort.mkNot (Term.hasSort_mkAnd (by simp [hab, hba])))
  · obtain ⟨ha, hb, hc, hab, hbc, hac⟩ := mem_triples.1 hp
    refine keeps_assert (Term.HasSort.mkImplies (Term.hasSort_mkAnd ?_)
      (hasSort_laterWrites hD ha hc hac))
    simp [hasSort_laterWrites hD ha hb hab, hasSort_laterWrites hD hb hc hbc]

structure TypedGraph (D : Sorts) (g : EventGraph) (o : Outcome) : Prop where
  symbols : ∀ name ∈ (intSymbols g o).toList, ValueSymbol name
  symbolic : g.Symbolic
  stored : ∀ e ∈ g.events, e.valueTerm.HasSort D .int
  constraints : ∀ t ∈ g.constraints, t.HasSort D .bool
  registers : ∀ p reg t, g.registerTerm p reg = some t → t.HasSort D .int

theorem TypedGraph.mono (h : TypedGraph D g o) (hDE : D ≤ E) : TypedGraph E g o where
  symbols := h.symbols
  symbolic := h.symbolic
  stored := fun e he => (h.stored e he).mono _ fun x _ => hDE x
  constraints := fun t ht => (h.constraints t ht).mono t fun x _ => hDE x
  registers := fun p reg t ht => (h.registers p reg t ht).mono t fun x _ => hDE x

theorem TypedGraph.declared (hg : TypedGraph D g o) {name : String}
    (h : name ∈ (intSymbols g o).toList) : ∃ k, D name k := by
  obtain ⟨t, ht, hname⟩ := spoken_of_mem hg.symbolic h
  cases ht with
  | event he => exact (hg.stored _ he).declared _ name hname
  | constraint ht => exact (hg.constraints t ht).declared t name hname
  | register _ ht => exact (hg.registers _ _ t ht).declared t name hname

section Values
variable (hg : TypedGraph AllInt g o) (hD : BaseSorts g o ≤ D)
include hg hD

omit hg in
/-- The integers that a query speaks of are declared. -/
theorem Speaks.hasSort {k : ValueSort} (h : Speaks g o t) (ht : t.HasSort AllInt k) :
    t.HasSort D k := by
  refine ht.mono t fun x hx l hl => hD x l (mem_declarations.2 (.inr ⟨?_, hl⟩))
  exact h.mem_intSymbols x hx

theorem hasSort_valueAt (a : Nat) : (valueAt g a).HasSort D .int := by
  cases he : g.event? a with
  | none =>
    rw [valueAt, he]
    rfl
  | some e =>
    rw [valueAt, he]
    have hmem : e ∈ g.events := Array.mem_of_getElem? he
    exact (Speaks.event hmem).hasSort hD (hg.stored e hmem)

theorem keeps_domains : Keeps g o D (assertDomains g) := by
  unfold assertDomains
  split
  · exact types_pure fun _ _ => trivial
  · refine Keeps.bind (keeps_heading _) fun _ => keeps_forM fun y hy => keeps_assert ?_
    obtain ⟨e, he, rfl⟩ := List.mem_map.1 hy
    obtain ⟨a, ha, hread⟩ := mem_readsOf.1 he
    exact Term.hasSort_oneOf (hD _ _ (mem_declarations.2
      (.inr ⟨symbol_mem_intSymbols hg.symbolic ha hread, rfl⟩))) _

theorem keeps_dataFlow : Keeps g o D (assertDataFlow g) := by
  refine Keeps.bind (keeps_heading _) fun _ => keeps_forM fun p hp => keeps_assert ?_
  obtain ⟨hr, hw⟩ := mem_rfCandidates.1 (show (p.1, p.2) ∈ g.rfCandidates from hp)
  refine Term.HasSort.mkImplies (hasSort_rfTerm hD hr hw) ⟨rfl, .inr ⟨?_, ?_⟩⟩
  · exact hasSort_valueAt hg hD p.1
  · exact hasSort_valueAt hg hD p.2

theorem keeps_constraints : Keeps g o D (g.constraints.forM assert) :=
  keeps_forM fun t ht => keeps_assert ((Speaks.constraint ht).hasSort hD (hg.constraints t ht))

theorem hasSort_atomTerm {a : Atom} (ha : a ∈ o.atoms) : (atomTerm g a).HasSort D .bool := by
  cases a with
  | register p reg n =>
    cases ht : g.registerTerm p reg with
    | none =>
      rw [atomTerm, ht]
      rfl
    | some t =>
      rw [atomTerm, ht]
      exact ⟨rfl, .inr ⟨(Speaks.register ha ht).hasSort hD (hg.registers p reg t ht), rfl⟩⟩
  | memory y n =>
    refine Term.hasSort_mkOr fun t ht => ?_
    obtain ⟨w, hw, rfl⟩ := List.mem_map.1 ht
    refine Term.hasSort_mkAnd (List.forall_mem_append.2 ⟨fun t ht => ?_, ?_⟩)
    · obtain ⟨b, hb, rfl⟩ := List.mem_map.1 ht
      obtain ⟨hb, hne⟩ := List.mem_filter.1 hb
      refine Term.HasSort.mkNot (hasSort_coTerm hD (List.mem_of_mem_filter hw)
        (EventGraph.mem_writesSameVar_of_writesTo hw hb) ?_)
      exact Ne.symm (by simpa using hne)
    · simpa using ⟨rfl, .inr ⟨hasSort_valueAt hg hD w, rfl⟩⟩

theorem keeps_outcome : Keeps g o D (assertOutcome g o) := by
  unfold assertOutcome
  split
  · exact types_pure fun _ _ => trivial
  · exact Keeps.bind (keeps_heading _) fun _ => keeps_forM fun a ha =>
      keeps_assert (hasSort_atomTerm hg hD ha)

end Values

theorem runs_declareAll {α : Type} {f : α → String} {sort : ValueSort} {xs : List α}
    (h : Runs (xs.forM fun a => add (.declareConst (f a) sort)) q ⟨⟩ q₁) :
    q₁ = { q with commands :=
      (xs.map fun a => Command.declareConst (f a) sort).reverse ++ q.commands } := by
  induction xs generalizing q with
  | nil => exact Runs.forM_nil.1 h
  | cons a xs ih =>
    obtain ⟨q', hfirst, hrest⟩ := Runs.forM_cons.1 h
    obtain rfl := Runs.modify_iff.1 hfirst
    rw [ih hrest, List.map_cons, List.reverse_cons, List.append_assoc]
    rfl

theorem runs_declare (h : Runs (declare g o) q ⟨⟩ q₁) : q₁ = { q with commands :=
    ((declarations g o).map fun d => Command.declareConst d.1 d.2).reverse ++ q.commands } := by
  obtain ⟨_, q', h₁, hrest⟩ := Runs.bind_iff.1 h
  obtain ⟨_, q'', h₂, h₃⟩ := Runs.bind_iff.1 hrest
  rw [runs_declareAll h₃, runs_declareAll h₂, runs_declareAll h₁]
  simp [declarations, Function.comp_def]

/-- Constants with different names may be declared one after the other. -/
theorem orderly_declareAll {ds : List (String × ValueSort)} {cs : List Command}
    (hsorts : ∀ d ∈ ds, d.2 = .bool ∨ d.2 = .int) (hn : (ds.map Prod.fst).Nodup)
    (hnew : ∀ d ∈ ds, ∀ l, ¬ sortsOf cs d.1 l) (hcs : Orderly cs) :
    Orderly ((ds.map fun d => Command.declareConst d.1 d.2).reverse ++ cs) := by
  induction ds generalizing cs with
  | nil => exact hcs
  | cons d ds ih =>
    rw [List.forall_mem_cons] at hsorts hnew
    rw [List.map_cons, List.nodup_cons] at hn
    rw [List.map_cons, List.reverse_cons, List.append_assoc]
    refine ih hsorts.2 hn.2 (fun e he l hl => ?_) ⟨⟨hsorts.1, hnew.1⟩, hcs⟩
    rcases List.mem_cons.1 (show (e.1, l) ∈ (d.1, d.2) :: cs.filterMap declared from hl) with
      hsame | hl
    · exact hn.1 (List.mem_map.2 ⟨e, he, (Prod.mk.inj hsame).1⟩)
    · exact hnew.2 e he l hl

theorem nodup_pairs {xs : List Nat} {f : Nat → List Nat} (hx : xs.Nodup) (hf : ∀ a, (f a).Nodup) :
    (xs.flatMap fun a => (f a).map fun b => (a, b)).Nodup := by
  refine List.nodup_flatMap.2 ⟨fun a _ => (hf a).map fun _ _ h => (Prod.mk.inj h).2, ?_⟩
  refine hx.imp fun {a b} hne p hp hp' => ?_
  obtain ⟨c, -, rfl⟩ := List.mem_map.1 hp
  obtain ⟨d, -, hd⟩ := List.mem_map.1 hp'
  exact hne (Prod.mk.inj hd).1.symm

/-- Symbols of one kind differ as they are numbered, those of different kinds by their stems. -/
theorem nodup_declarations (hs : ∀ name ∈ (intSymbols g o).toList, ValueSymbol name) :
    ((declarations g o).map Prod.fst).Nodup := by
  have hrf : (g.rfCandidates.map fun p => rfSymbol p.1 p.2).Nodup :=
    (nodup_pairs (List.nodup_range.filter _) (writesSameVar_nodup g)).map fun _ _ h =>
      Prod.ext (rfSymbol_injective h).1 (rfSymbol_injective h).2
  have hco : ((g.coCandidates.filter fun p => !isInit g p.1 && !isInit g p.2).map
      fun p => coSymbol p.1 p.2).Nodup :=
    ((nodup_pairs (List.nodup_range.filter _) fun a => (writesSameVar_nodup g a).filter _).filter
      _).map fun _ _ h => Prod.ext (coSymbol_injective h).1 (coSymbol_injective h).2
  have hint : (intSymbols g o).toList.Nodup := OrderedSet.ofList_nodup _
  simp only [declarations, List.map_append, List.map_map, Function.comp_def, List.map_id']
  refine List.nodup_append.2 ⟨hrf, List.nodup_append.2 ⟨hco, hint, ?_⟩, ?_⟩
  · intro x hx y hy hxy
    obtain ⟨p, -, rfl⟩ := List.mem_map.1 hx
    have hy := hs y hy
    simp [← hxy, ValueSymbol] at hy
  · intro x hx y hy hxy
    obtain ⟨p, -, rfl⟩ := List.mem_map.1 hx
    rcases List.mem_append.1 hy with hy | hy
    · obtain ⟨p', -, rfl⟩ := List.mem_map.1 hy
      have hstem := congrArg stem hxy
      simp at hstem
    · have hy := hs y hy
      simp [← hxy, ValueSymbol] at hy

theorem proper_declare (hs : ∀ name ∈ (intSymbols g o).toList, ValueSymbol name) {title : String}
    (hrun : Runs (declare g o) ⟨[.comment title], [], 0⟩ ⟨⟩ q) : Proper g o q := by
  obtain rfl := runs_declare hrun
  have hdeclared : ∀ x k, sortsOf (((declarations g o).map fun d =>
      Command.declareConst d.1 d.2).reverse ++ [.comment title]) x k ↔
        (x, k) ∈ declarations g o := by
    simp [sortsOf, Command.declared]
  refine ⟨?_, fun x k h => (hdeclared x k).2 h, fun k l _ hk => ?_, fun y M hM => ?_⟩
  · refine orderly_declareAll (fun d hd => ?_) (nodup_declarations hs)
      (fun d _ l hl => absurd hl (by simp [sortsOf, Command.declared])) ⟨trivial, trivial⟩
    exact (mem_declarations.1 hd).imp And.right And.right
  · rcases mem_declarations.1 ((hdeclared _ _).1 hk) with ⟨h, -⟩ | ⟨h, -⟩
    · exact not_choiceSymbol g k h
    · exact absurd (hs _ h) (by simp [ValueSymbol])
  · exact absurd hM (by simp)

theorem wellFormed_of_encode (hg : TypedGraph AllInt g o) {script : Script}
    (h : encode g m o = .ok script) : script.WellFormed := by
  obtain ⟨q, hrun, rfl⟩ := runs_of_encode h
  obtain ⟨_, q₀, htitle, hrest⟩ := Runs.bind_iff.1 hrun
  obtain rfl := Runs.modify_iff.1 htitle
  obtain ⟨_, q₁, hdeclare, hparts⟩ := Runs.bind_iff.1 hrest
  have hD := le_refl (BaseSorts g o)
  have hkeeps : Keeps g o (BaseSorts g o) (do
      assertDomains g
      assertReadsFrom g
      assertCoherence g
      assertDataFlow g
      m.axioms.forM (assertAxiom g m)
      heading "path constraints"
      g.constraints.forM assert
      assertOutcome g o) :=
    Keeps.bind (keeps_domains hg hD) fun _ => Keeps.bind (keeps_readsFrom hD) fun _ =>
    Keeps.bind (keeps_coherence hD) fun _ => Keeps.bind (keeps_dataFlow hg hD) fun _ =>
    Keeps.bind (keeps_forM fun d _ => keeps_axiom hD d) fun _ =>
    Keeps.bind (keeps_heading _) fun _ => Keeps.bind (keeps_constraints hg hD) fun _ =>
    keeps_outcome hg hD
  have hproper := proper_declare hg.symbols hdeclare
  exact Script.wellFormed_of_orderly (hkeeps hproper hproper.base hparts).1.orderly

end Query
end Consistency
