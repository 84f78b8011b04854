import Consistency.Proofs.Query.Naming
import Consistency.Proofs.MemoryModel.Meaning
import Consistency.Proofs.Relation.Paths

/-!
# Matrices of relation expressions

Where the symbols show a choice of sources and of a coherence order, and the
definitions hold, the matrix made for an expression represents the relation the
expression denotes.
-/

set_option autoImplicit false

namespace Consistency.Query
variable {g : EventGraph} {m : MemoryModel} {x : Choice} {ρ : Meaning} {q q₁ : QueryState}
  {M N : Matrix} {r s : Nat → Nat → Prop} {env : Environment} {a b w : Nat}

inductive ChoiceSymbol (g : EventGraph) : String → Prop where
  | rf {r w : Nat} : r ∈ g.reads → w ∈ g.writesSameVar r → ChoiceSymbol g (rfSymbol r w)
  | co {a b : Nat} : a ∈ g.writes → b ∈ g.writesSameVar a → a ≠ b → isInit g a = false →
      isInit g b = false → ChoiceSymbol g (coSymbol a b)

theorem not_choiceSymbol (g : EventGraph) (k : Nat) : ¬ ChoiceSymbol g (definitionSymbol k) := by
  intro h
  have hk := stem_definitionSymbol k
  generalize definitionSymbol k = name at h hk
  cases h with
  | rf => exact absurd (hk.symm.trans (stem_rfSymbol _ _)) (by decide)
  | co => exact absurd (hk.symm.trans (stem_coSymbol _ _)) (by decide)

structure Shows (env : Environment) (g : EventGraph) (x : Choice) : Prop where
  rf : ∀ r ∈ g.reads, ∀ w ∈ g.writesSameVar r, (rfTerm r w).Tells env (x.rf w r)
  co : ∀ a ∈ g.writes, ∀ b ∈ g.writesSameVar a, a ≠ b → (coTerm g a b).Tells env (x.co a b)
  source : ∀ w r, x.rf w r → r ∈ g.reads ∧ w ∈ g.writesSameVar r
  writes : ∀ a b, x.co a b → a ∈ g.writes ∧ b ∈ g.writesSameVar a ∧ a ≠ b

structure Stands (g : EventGraph) (x : Choice) (q : QueryState) (M : Matrix)
    (r : Nat → Nat → Prop) : Prop where
  formed : Formed (ChoiceSymbol g) q g.size M
  represents : ∀ env, Shows env g x → Settles env q → M.Represents env g.size r

theorem Stands.grows {ds ts : List Term} (h : Stands g x q M r)
    (hq : Grows (ChoiceSymbol g) q ds ts q₁) : Stands g x q₁ M r where
  formed := h.formed.mono hq
  represents := fun env hx hs => h.represents env hx (hq.settles hs)

theorem Stands.mono (h : Stands g x q M r) (hq : Extends (ChoiceSymbol g) q q₁) :
    Stands g x q₁ M r := hq.elim fun _ hq => h.grows hq

theorem Stands.congr (h : Stands g x q M r) (hrs : ∀ a b, r a b ↔ s a b) : Stands g x q M s where
  formed := h.formed
  represents := fun env hx hs => (h.represents env hx hs).congr hrs

def Known (g : EventGraph) (x : Choice) (ρ : Meaning) (q : QueryState) : Prop :=
  ∀ name M, q.named.lookup name = some M → Stands g x q M (ρ name)

theorem Known.grows {ds ts : List Term} (h : Known g x ρ q)
    (hq : Grows (ChoiceSymbol g) q ds ts q₁) (hn : q₁.named = q.named) : Known g x ρ q₁ := by
  intro name M hM
  rw [hn] at hM
  exact (h name M hM).grows hq

theorem Known.defines (h : Known g x ρ q) (hq : Defines (ChoiceSymbol g) q q₁) :
    Known g x ρ q₁ := hq.grown.elim fun _ hg => h.grows hg hq.named

def Yields (g : EventGraph) (x : Choice) (ρ : Meaning) (q : QueryState) (f : QueryM Matrix)
    (r : Nat → Nat → Prop) : Prop :=
  ∃ M q₁, Runs f q M q₁ ∧ Extends (ChoiceSymbol g) q q₁ ∧ Known g x ρ q₁ ∧ Stands g x q₁ M r

theorem yields_pure (hq : Known g x ρ q) (h : Stands g x q M r) :
    Yields g x ρ q (pure M) r :=
  ⟨M, q, Runs.pure_iff.2 ⟨rfl, rfl⟩, .refl _ q, hq, h⟩

/-- What comes next goes on from the matrix found. -/
theorem Yields.bind {f : QueryM Matrix} {k : Matrix → QueryM Matrix} (h : Yields g x ρ q f r)
    (hk : ∀ M q₁, Extends (ChoiceSymbol g) q q₁ → Known g x ρ q₁ → Stands g x q₁ M r →
      Yields g x ρ q₁ (k M) s) : Yields g x ρ q (f >>= k) s := by
  obtain ⟨M, q₁, hrun, hext, hknown, hM⟩ := h
  obtain ⟨N, q₂, hrun', hext', hknown', hN⟩ := hk M q₁ hext hknown hM
  exact ⟨N, q₂, Runs.bind_iff.2 ⟨M, q₁, hrun, hrun'⟩, hext.trans hext', hknown', hN⟩

section Operations
variable {S : String → Prop} {n : Nat}

theorem formed_ofPredicate (p : Nat → Nat → Bool) : Formed S q n (.ofPredicate n p) :=
  formed_build fun _ _ _ _ => formula_bool _

theorem Formed.union (hM : Formed S q n M) (hN : Formed S q n N) :
    Formed S q n (M.union N) := by
  rw [Matrix.union, hM.square.size]
  refine formed_build fun a b ha hb => formula_mkOr ?_
  simpa using ⟨hM.formula a b ha hb, hN.formula a b ha hb⟩

theorem Formed.inter (hM : Formed S q n M) (hN : Formed S q n N) :
    Formed S q n (M.inter N) := by
  rw [Matrix.inter, hM.square.size]
  refine formed_build fun a b ha hb => formula_mkAnd ?_
  simpa using ⟨hM.formula a b ha hb, hN.formula a b ha hb⟩

theorem Formed.diff (hM : Formed S q n M) (hN : Formed S q n N) : Formed S q n (M.diff N) := by
  rw [Matrix.diff, hM.square.size]
  refine formed_build fun a b ha hb => formula_mkAnd ?_
  simpa using ⟨hM.formula a b ha hb, formula_mkNot (hN.formula a b ha hb)⟩

theorem Formed.seq (hM : Formed S q n M) (hN : Formed S q n N) : Formed S q n (M.seq N) := by
  rw [Matrix.seq, hM.square.size]
  refine formed_build fun a c ha hc => formula_mkOr fun t ht => ?_
  obtain ⟨b, hb, rfl⟩ := List.mem_map.1 ht
  rw [Matrix.between, List.mem_filter, List.mem_range, hM.square.size] at hb
  refine formula_mkAnd ?_
  simpa using ⟨hM.formula a b ha hb.1, hN.formula b c hb.1 hc⟩

theorem Formed.inverse (hM : Formed S q n M) : Formed S q n M.inverse := by
  rw [Matrix.inverse, hM.square.size]
  exact formed_build fun a b ha hb => hM.formula b a hb ha

end Operations

theorem Stands.binary (op : RelOp) (hM : Stands g x q M r) (hN : Stands g x q N s) :
    Stands g x q (match op with
      | .union => M.union N
      | .inter => M.inter N
      | .diff => M.diff N
      | .seq => M.seq N) (op.Combine r s) := by
  cases op with
  | union => exact ⟨hM.formed.union hN.formed, fun env hx hs =>
      (hM.represents env hx hs).union (hN.represents env hx hs)⟩
  | diff => exact ⟨hM.formed.diff hN.formed, fun env hx hs =>
      (hM.represents env hx hs).diff (hN.represents env hx hs)⟩
  | inter => exact ⟨hM.formed.inter hN.formed, fun env hx hs =>
      (hM.represents env hx hs).inter (hN.represents env hx hs)⟩
  | seq => exact ⟨hM.formed.seq hN.formed, fun env hx hs =>
      (hM.represents env hx hs).seq (hN.represents env hx hs)⟩

theorem readsFrom_iff {r w : Nat} : (g.isNode Event.isRead r && g.isNode Event.isWrite w &&
    g.sameVar r w) = true ↔ r ∈ g.reads ∧ w ∈ g.writesSameVar r := by
  rw [Bool.and_eq_true, Bool.and_eq_true, EventGraph.isNode_iff, ← EventGraph.mem_reads,
    EventGraph.isNode_iff, ← EventGraph.mem_writes, EventGraph.writesSameVar, List.mem_filter,
    and_assoc]

theorem coherence_iff : (g.isNode Event.isWrite a && g.isNode Event.isWrite b &&
    g.sameVar a b && a != b) = true ↔ a ∈ g.writes ∧ b ∈ g.writesSameVar a ∧ a ≠ b := by
  rw [Bool.and_eq_true, Bool.and_eq_true, Bool.and_eq_true, EventGraph.isNode_iff,
    ← EventGraph.mem_writes, EventGraph.isNode_iff, ← EventGraph.mem_writes, bne_iff_ne,
    EventGraph.writesSameVar, List.mem_filter, and_assoc, and_assoc, and_assoc]

theorem rfTerm_formula {n r w : Nat} (hr : r ∈ g.reads) (hw : w ∈ g.writesSameVar r) :
    (rfTerm r w).Formula (Upto (ChoiceSymbol g) n) := formula_const (.inl (.rf hr hw))

theorem coTerm_formula {n : Nat} (ha : a ∈ g.writes) (hb : b ∈ g.writesSameVar a) (hne : a ≠ b) :
    (coTerm g a b).Formula (Upto (ChoiceSymbol g) n) := by
  unfold coTerm
  split
  · exact formula_bool true
  · split
    · exact formula_bool false
    · next hia hib =>
      exact formula_const (.inl (.co ha hb hne (Bool.eq_false_iff.2 hia) (Bool.eq_false_iff.2 hib)))

theorem stands_ofPredicate {p : Nat → Nat → Bool} (hr : ∀ a b, r a b → a < g.size ∧ b < g.size)
    (h : ∀ a b, a < g.size → b < g.size → (p a b = true ↔ r a b)) :
    Stands g x q (.ofPredicate g.size p) r :=
  ⟨formed_ofPredicate p, fun _ _ _ => Matrix.represents_ofPredicate hr h⟩

theorem stands_related (p : Event → Event → Bool) :
    Stands g x q (.ofPredicate g.size (g.related p)) fun a b => g.related p a b = true :=
  stands_ofPredicate (fun _ _ h => EventGraph.related_lt h) fun _ _ _ _ => Iff.rfl

theorem stands_rf (g : EventGraph) (x : Choice) (q : QueryState) :
    Stands g x q (.build g.size (rfEntry g)) x.rf where
  formed := formed_build fun w r _ _ => by
    unfold rfEntry
    split
    · next h => exact rfTerm_formula (readsFrom_iff.1 h).1 (readsFrom_iff.1 h).2
    · exact formula_bool false
  represents := by
    intro env hx _
    refine Matrix.represents_build (fun w r h => ?_) fun w r _ _ => ?_
    · obtain ⟨d, e, hd, he, -⟩ := EventGraph.mem_writesSameVar.1 (hx.source w r h).2
      exact ⟨EventGraph.lt_size he, EventGraph.lt_size hd⟩
    · unfold rfEntry
      split
      · next h => exact hx.rf r (readsFrom_iff.1 h).1 w (readsFrom_iff.1 h).2
      · next h =>
        have hno : ¬ x.rf w r := fun hrf => h (readsFrom_iff.2 (hx.source w r hrf))
        exact (Term.tells_bool env false).congr (by simp [hno])

theorem stands_co (g : EventGraph) (x : Choice) (q : QueryState) :
    Stands g x q (.build g.size (coEntry g)) x.co where
  formed := formed_build fun a b _ _ => by
    unfold coEntry
    split
    · next h =>
      obtain ⟨ha, hb, hne⟩ := coherence_iff.1 h
      exact coTerm_formula ha hb hne
    · exact formula_bool false
  represents := by
    intro env hx _
    refine Matrix.represents_build (fun a b h => ?_) fun a b _ _ => ?_
    · obtain ⟨d, e, hd, he, -⟩ := EventGraph.mem_writesSameVar.1 (hx.writes a b h).2.1
      exact ⟨EventGraph.lt_size hd, EventGraph.lt_size he⟩
    · unfold coEntry
      split
      · next h =>
        obtain ⟨ha, hb, hne⟩ := coherence_iff.1 h
        exact hx.co a ha b hb hne
      · next h =>
        have hno : ¬ x.co a b := fun hco => h (coherence_iff.2 (hx.writes a b hco))
        exact (Term.tells_bool env false).congr (by simp [hno])

/-- The sources that a read may have when a write comes after its source. -/
theorem mem_earlier {r v w : Nat} (hw : w ∈ g.writesSameVar r)
    (hv : v ∈ (g.writesSameVar r).filter (· != w)) : v ∈ g.writesSameVar r ∧ v ∈ g.writes ∧
      w ∈ g.writesSameVar v ∧ v ≠ w := by
  rw [List.mem_filter, bne_iff_ne] at hv
  exact ⟨hv.1, EventGraph.mem_writes_of_sameVar hv.1,
    EventGraph.writesSameVar_of_both hv.1 hw, hv.2⟩

theorem stands_fr (g : EventGraph) (x : Choice) (q : QueryState) :
    Stands g x q (.build g.size (fromRead g)) fun r w => ∃ v, x.rf v r ∧ x.co v w where
  formed := formed_build fun r w _ _ => by
    unfold fromRead
    split
    · next h =>
      obtain ⟨hr, hw⟩ := readsFrom_iff.1 h
      refine formula_mkOr fun t ht => ?_
      obtain ⟨v, hv, rfl⟩ := List.mem_map.1 ht
      obtain ⟨hvr, hvw, hwv, hne⟩ := mem_earlier hw hv
      refine formula_mkAnd ?_
      simpa using ⟨rfTerm_formula hr hvr, coTerm_formula hvw hwv hne⟩
    · exact formula_bool false
  represents := by
    intro env hx _
    have hin : ∀ r w, (∃ v, x.rf v r ∧ x.co v w) → r ∈ g.reads ∧ w ∈ g.writesSameVar r := by
      rintro r w ⟨v, hrf, hco⟩
      obtain ⟨hr, hv⟩ := hx.source v r hrf
      exact ⟨hr, EventGraph.writesSameVar_trans hv (hx.writes v w hco).2.1⟩
    refine Matrix.represents_build (fun r w h => ?_) fun r w _ _ => ?_
    · obtain ⟨d, e, hd, he, -⟩ := EventGraph.mem_writesSameVar.1 (hin r w h).2
      exact ⟨EventGraph.lt_size hd, EventGraph.lt_size he⟩
    · unfold fromRead
      split
      · next h =>
        obtain ⟨hr, hw⟩ := readsFrom_iff.1 h
        have htells : ∀ v ∈ (g.writesSameVar r).filter (· != w),
            (Term.mkAnd [rfTerm r v, coTerm g v w]).Tells env (x.rf v r ∧ x.co v w) := by
          intro v hv
          obtain ⟨hvr, hvw, hwv, hne⟩ := mem_earlier hw hv
          exact (hx.rf r hr v hvr).mkAnd (hx.co v hvw w hwv hne)
        refine (Term.tells_mkOr htells).congr ?_
        constructor
        · rintro ⟨v, -, hv⟩
          exact ⟨v, hv⟩
        · rintro ⟨v, hrf, hco⟩
          refine ⟨v, ?_, hrf, hco⟩
          rw [List.mem_filter, bne_iff_ne]
          exact ⟨(hx.source v r hrf).2, (hx.writes v w hco).2.2⟩
      · next h =>
        have hno : ¬ ∃ v, x.rf v r ∧ x.co v w := fun hv => h (readsFrom_iff.2 (hin r w hv))
        exact (Term.tells_bool env false).congr (by simp [hno])

theorem mem_nodes_iff : a ∈ g.nodes ↔ a < g.size := by rw [EventGraph.nodes, List.mem_range]

theorem stands_base (g : EventGraph) (x : Choice) (q : QueryState) (rel : BaseRelation) :
    Stands g x q (base g rel) fun a b => rel.Holds g x a b := by
  cases rel with
  | po => exact stands_related _
  | rf => exact stands_rf g x q
  | co => exact stands_co g x q
  | fr => exact stands_fr g x q
  | loc => exact stands_related _
  | int => exact stands_related _
  | ext =>
    refine stands_ofPredicate (fun a b h => ?_) fun a b ha hb => ?_
    · exact ⟨mem_nodes_iff.1 h.1, mem_nodes_iff.1 h.2.1⟩
    · simp [BaseRelation.Holds, mem_nodes_iff, ha, hb]
  | id =>
    refine stands_ofPredicate (fun a b h => ?_) fun a b ha hb => ?_
    · exact ⟨mem_nodes_iff.1 h.1, h.2 ▸ mem_nodes_iff.1 h.1⟩
    · simp [BaseRelation.Holds, mem_nodes_iff, ha]

theorem inSet_lt {s : EventSet} (h : inSet g s a = true) : a < g.size := by
  cases s
  all_goals
    obtain ⟨e, he, -⟩ := EventGraph.isNode_iff.1 h
    exact EventGraph.lt_size he

theorem inSet_memory : inSet g .memory a = true ↔ a ∈ g.nodes := by
  rw [EventGraph.mem_nodes, inSet, EventGraph.isNode_iff]
  simp

theorem stands_identity (g : EventGraph) (x : Choice) (q : QueryState) (s : EventSet) :
    Stands g x q (identity g s) fun a b => inSet g s a = true ∧ a = b := by
  refine stands_ofPredicate (fun a b h => ?_) fun a b _ _ => ?_
  · exact ⟨inSet_lt h.1, h.2 ▸ inSet_lt h.1⟩
  · simp [and_comm]

theorem stands_product (g : EventGraph) (x : Choice) (q : QueryState) (s t : EventSet) :
    Stands g x q (product g s t) fun a b => inSet g s a = true ∧ inSet g t b = true :=
  stands_ofPredicate (fun _ _ h => ⟨inSet_lt h.1, inSet_lt h.2⟩) fun a b _ _ => by simp

theorem nameAll_yields (hq : Known g x ρ q) (h : Stands g x q M r) :
    Yields g x ρ q (nameAll M) r := by
  obtain ⟨M', q₁, hrun, hd, hformed, hrenames⟩ := nameAll_runs h.formed
  refine ⟨M', q₁, hrun, hd.grown, hq.defines hd, hformed, fun env hx hs => ?_⟩
  have hM := h.represents env hx (hd.grown.settles hs)
  exact ⟨hformed.square, hM.inside, fun a b ha hb =>
    (hrenames a b ha hb).tells env _ hs (hM.tells a b ha hb)⟩

theorem squareTimes_yields (k : Nat) (hq : Known g x ρ q) (h : Stands g x q M r) :
    Yields g x ρ q (squareTimes k M) (Doubled r k) := by
  induction k generalizing q M r with
  | zero => exact yields_pure hq h
  | succ k ih =>
    have hsq : Stands g x q (M.union (M.seq M)) (Doubled r 1) :=
      ⟨h.formed.union (h.formed.seq h.formed), fun env hx hs =>
        (h.represents env hx hs).union
          ((h.represents env hx hs).seq (h.represents env hx hs))⟩
    rw [squareTimes]
    refine (nameAll_yields hq hsq).bind fun N q₁ _ hq₁ hN => ?_
    have hdbl : Doubled (Doubled r 1) k = Doubled r (k + 1) := by
      funext a b
      exact propext doubled_succ.symm
    rw [← hdbl]
    exact ih hq₁ hN

theorem le_doublings (n : Nat) : n ≤ 2 ^ doublings n := by
  unfold doublings
  split
  · omega
  · have := Nat.lt_log2_self (n := n - 1)
    omega

theorem closure_yields (hq : Known g x ρ q) (h : Stands g x q M r) :
    Yields g x ρ q (closure M) (Relation.TransGen r) := by
  rw [closure]
  refine (nameAll_yields hq h).bind fun N q₁ _ hq₁ hN => ?_
  obtain ⟨P, q₂, hrun, hext, hknown, hP⟩ := squareTimes_yields (doublings M.size) hq₁ hN
  refine ⟨P, q₂, hrun, hext, hknown, hP.formed, fun env hx hs => ?_⟩
  have hin := (hN.represents env hx (hext.settles hs)).inside
  refine (hP.represents env hx hs).congr fun a b => ?_
  rw [h.formed.square.size]
  exact doubled_iff (fun a b hab => (hin a b hab).2) (le_doublings g.size)

theorem suffix_yields (op : RelSuffix) (hq : Known g x ρ q) (h : Stands g x q M r) :
    Yields g x ρ q (match op with
      | .inverse => return M.inverse
      | .plus => closure M
      | .star => return (← closure M).union (identity g .memory)
      | .optional => return M.union (identity g .memory)) (fun a b => op.Apply g r a b) := by
  have hid : ∀ q, Stands g x q (identity g .memory) fun a b => a ∈ g.nodes ∧ a = b := fun q =>
    (stands_identity g x q .memory).congr fun a b => by rw [inSet_memory]
  cases op with
  | inverse => exact yields_pure hq ⟨h.formed.inverse, fun env hx hs =>
      (h.represents env hx hs).inverse⟩
  | plus => exact closure_yields hq h
  | star =>
    refine (closure_yields hq h).bind fun N q₁ _ hq₁ hN => ?_
    exact yields_pure hq₁ (hN.binary .union (hid q₁))
  | optional => exact yields_pure hq (h.binary .union (hid q))

theorem relation_yields {lookup : String → QueryM Matrix} {e : RelExpr}
    (hl : ∀ y ∈ e.names, ∀ q, Known g x ρ q → Yields g x ρ q (lookup y) (ρ y))
    (hq : Known g x ρ q) : Yields g x ρ q (relation g lookup e) (e.Denotes g x ρ) := by
  induction e generalizing q with
  | base rel => exact yields_pure hq (stands_base g x q rel)
  | named y => exact hl y (by simp [RelExpr.names]) q hq
  | product s t => exact yields_pure hq (stands_product g x q s t)
  | identity s => exact yields_pure hq (stands_identity g x q s)
  | binary op d e ihd ihe =>
    rw [relation]
    refine (ihd (fun y hy => hl y (List.mem_append_left _ hy)) hq).bind fun M q₁ _ hq₁ hM => ?_
    refine (ihe (fun y hy => hl y (List.mem_append_right _ hy)) hq₁).bind
      fun N q₂ hext hq₂ hN => ?_
    exact yields_pure hq₂ ((hM.mono hext).binary op hN)
  | suffixed op e ih =>
    rw [relation]
    refine (ih hl hq).bind fun M q₁ _ hq₁ hM => ?_
    exact suffix_yields op hq₁ hM

theorem Yields.get {f : QueryState → QueryM Matrix} (h : Yields g x ρ q (f q) r) :
    Yields g x ρ q (get >>= f) r := by
  obtain ⟨M, q₁, hrun, hq⟩ := h
  exact ⟨M, q₁, Runs.bind_iff.2 ⟨q, q, Runs.get_iff.2 ⟨rfl, rfl⟩, hrun⟩, hq⟩

/-- A matrix is kept under its name. -/
theorem keep_yields {name : String} (hq : Known g x ρ q) (h : Stands g x q M (ρ name)) :
    Yields g x ρ q (do
      modify fun s => { s with named := (name, M) :: s.named }
      return M) (ρ name) := by
  have hext : Extends (ChoiceSymbol g) q { q with named := (name, M) :: q.named } := by
    obtain ⟨definitions, asserted, declared, formulas⟩ := Grows.refl (ChoiceSymbol g) q
    exact ⟨[], definitions, asserted, declared, formulas⟩
  refine ⟨M, { q with named := (name, M) :: q.named }, ?_, hext, ?_, h.mono hext⟩
  · simp [Runs.map_iff]
  · intro y N hN
    rw [List.lookup_cons] at hN
    split at hN
    · next heq =>
      obtain rfl := eq_of_beq heq
      obtain rfl := Option.some.inj hN
      exact h.mono hext
    · exact (hq y N hN).mono hext

/-- Along the layers of a model each name is found before the fuel is used up. -/
theorem namedRelation_yields (hρ : m.Interprets g x ρ) {names : List String}
    (h : m.Layered names) {fuel : Nat} (hf : names.length ≤ fuel) : ∀ y ∈ names, ∀ q,
      Known g x ρ q → Yields g x ρ q (namedRelation g m fuel y) (ρ y) := by
  induction h generalizing fuel with
  | nil => simp
  | @cons y e rest he hrefs _ _ ih =>
    rw [List.length_cons] at hf
    refine List.forall_mem_cons.2 ⟨fun q hq => ?_, ih (by omega)⟩
    obtain ⟨fuel, rfl⟩ : ∃ k, fuel = k + 1 := ⟨fuel - 1, by omega⟩
    have hlook := @ih fuel (by omega)
    rw [namedRelation]
    refine Yields.get ?_
    cases hknown : q.named.lookup y with
    | some M => exact yields_pure hq (hq y M hknown)
    | none =>
      simp only [he]
      refine (relation_yields (fun z hz => hlook z (hrefs z hz)) hq).bind
        fun M q₁ _ hq₁ hM => ?_
      refine (nameAll_yields hq₁ hM).bind fun N q₂ _ hq₂ hN => ?_
      exact keep_yields hq₂ (hN.congr fun a b => (hρ y e he a b).symm)

/-- The fuel that a valid model is given suffices for all its names. -/
theorem relation_yields_of_valid (hv : m.validate = .ok ()) (hρ : m.Interprets g x ρ)
    {e : RelExpr} (he : ∀ y ∈ e.names, m.defines y = true) (hq : Known g x ρ q) :
    Yields g x ρ q (relation g (namedRelation g m (m.relations.length + 1)) e)
      (e.Denotes g x ρ) := by
  obtain ⟨-, names, hl, hall⟩ := MemoryModel.layered_of_valid hv
  have hlook := namedRelation_yields hρ hl (hl.length_le.trans (Nat.le_succ _))
  exact relation_yields (fun y hy => hlook y (hall y (he y hy))) hq

end Consistency.Query
