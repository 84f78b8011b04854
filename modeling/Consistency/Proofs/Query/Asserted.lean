import Consistency.Proofs.Query.Adequacy
import Consistency.Proofs.Query.Parts
import Consistency.Proofs.Term.Decided

/-!
# Assertions of a query

The domains of reads are asserted before all else. What comes later mentions
values only in the flow of data, in path constraints and in the outcome.
-/

set_option autoImplicit false

namespace Consistency.Query
variable {g : EventGraph} {m : MemoryModel} {o : Outcome} {x : Choice} {ρ : Meaning}
  {q q₁ : QueryState} {t : Term}

def Appends {α : Type} (f : QueryM α) : Prop :=
  ∀ ⦃q a q₁⦄, Runs f q a q₁ → q.commands <:+ q₁.commands

theorem appends_throw {α : Type} (e : ModelError) : Appends (throw e : QueryM α) := by
  intro q a q₁ h
  exact absurd h (by simp)

theorem appends_modify {f : QueryState → QueryState} (hf : ∀ q, q.commands <:+ (f q).commands) :
    Appends (modify f : QueryM PUnit) := by
  intro q a q₁ h
  obtain rfl := Runs.modify_iff.1 h
  exact hf q

theorem appends : Compositional Appends where
  pure := by
    intro α a q b q₁ h
    rw [(Runs.pure_iff.1 h).2]
  bind := by
    intro α β f k hf hk q b q₂ h
    obtain ⟨a, q₁, hf', hk'⟩ := Runs.bind_iff.1 h
    exact (hf hf').trans (hk a hk')
  get := by
    intro q q' q₁ h
    rw [(Runs.get_iff.1 h).2]
  add := fun c => appends_modify fun q => List.suffix_cons c q.commands
  count := fun _ => appends_modify fun q => List.suffix_refl q.commands
  keep := fun _ _ => appends_modify fun q => List.suffix_refl q.commands

theorem appends_namedRelation (fuel : Nat) (y : String) : Appends (namedRelation g m fuel y) := by
  induction fuel generalizing y with
  | zero => exact appends_throw _
  | succ fuel ih =>
    rw [namedRelation_succ]
    exact composes_define appends (fun _ => appends_throw _) fun _ _ z _ => ih z

theorem appends_axiom (d : Axiom) : Appends (assertAxiom g m d) :=
  composes_axiom appends fun y _ => appends_namedRelation _ y

theorem appends_laterParts (g : EventGraph) (m : MemoryModel) (o : Outcome) :
    Appends (laterParts g m o) := composes_laterParts appends o fun d _ => appends_axiom d

def Stated (g : EventGraph) (o : Outcome) (t : Term) : Prop :=
  ∀ y values, t.domain? = some (y, values) → ValueSymbol y →
    t ∈ g.constraints ∨ ∃ a ∈ o.atoms, t = atomTerm g a

theorem stated_of_domain (h : t.domain? = none) : Stated g o t := by
  intro y values hd
  exact absurd (h.symm.trans hd) (by simp)

theorem stated_of_consts (h : ∀ y ∈ t.consts, ¬ ValueSymbol y) : Stated g o t := by
  intro y values hd hy
  exact absurd hy (h y (Term.domain?_mentions hd))

theorem not_value_of_choice {y : String} (h : ChoiceSymbol g y) : ¬ ValueSymbol y := by
  cases h <;> simp [ValueSymbol]

theorem not_value_of_upto {n : Nat} {y : String} (h : Upto (ChoiceSymbol g) n y) :
    ¬ ValueSymbol y := by
  rcases h with h | ⟨k, -, rfl⟩
  · exact not_value_of_choice h
  · simp [ValueSymbol]

theorem stated_of_formula {n : Nat} (h : t.Formula (Upto (ChoiceSymbol g) n)) : Stated g o t :=
  stated_of_consts fun y hy => not_value_of_upto (h.consts y hy)

/-- The part goes through. Its assertions are of this kind, and those of `us` are among them unless
they hold anyway. -/
def Lays (g : EventGraph) (o : Outcome) (x : Choice) (ρ : Meaning) (f : QueryM Unit)
    (us : List Term) : Prop :=
  ∀ q, Known g x ρ q → ∃ q₁ ds ts, Runs f q ⟨⟩ q₁ ∧ Known g x ρ q₁ ∧
    Grows (ChoiceSymbol g) q ds ts q₁ ∧ (∀ t ∈ ts, Stated g o t) ∧
      ∀ u ∈ us, u ≠ .bool true → u ∈ ts

section Lays
variable {f k : QueryM Unit} {us vs : List Term}

theorem lays_nothing : Lays g o x ρ (pure ⟨⟩) [] := fun q hq =>
  ⟨q, [], [], Runs.pure_iff.2 ⟨rfl, rfl⟩, hq, .refl _ q, by simp, by simp⟩

theorem Lays.bind (hf : Lays g o x ρ f us) (hk : Lays g o x ρ k vs) :
    Lays g o x ρ (f >>= fun _ => k) (us ++ vs) := by
  intro q hq
  obtain ⟨q₁, ds, ts, hrun, hknown, hgrows, hall, hus⟩ := hf q hq
  obtain ⟨q₂, es, rs, hrun', hknown', hgrows', hall', hvs⟩ := hk q₁ hknown
  refine ⟨q₂, ds ++ es, ts ++ rs, Runs.bind_iff.2 ⟨_, q₁, hrun, hrun'⟩, hknown',
    hgrows.trans hgrows', List.forall_mem_append.2 ⟨hall, hall'⟩, fun u hu hne => ?_⟩
  rcases List.mem_append.1 hu with hu | hu
  · exact List.mem_append_left _ (hus u hu hne)
  · exact List.mem_append_right _ (hvs u hu hne)

theorem lays_forM {α : Type} {xs : List α} {f : α → QueryM Unit} {us : α → List Term}
    (h : ∀ a ∈ xs, Lays g o x ρ (f a) (us a)) : Lays g o x ρ (xs.forM f) (xs.flatMap us) := by
  induction xs with
  | nil => exact lays_nothing
  | cons a xs ih =>
    rw [List.forall_mem_cons] at h
    exact h.1.bind (ih h.2)

theorem lays_heading (title : String) : Lays g o x ρ (heading title) [] := by
  intro q hq
  have hgrows := grows_add (S := ChoiceSymbol g) (q := q) (c := .comment title) rfl rfl
  exact ⟨_, [], [], runs_add, hq.grows hgrows rfl, hgrows, by simp, by simp⟩

theorem lays_assert (ht : Stated g o t) : Lays g o x ρ (assert t) [t] := by
  intro q hq
  by_cases htrue : t = .bool true
  · refine ⟨q, [], [], ?_, hq, .refl _ q, by simp, by simp [htrue]⟩
    rw [assert, if_pos htrue]
    exact Runs.pure_iff.2 ⟨rfl, rfl⟩
  · refine ⟨{ q with commands := .assert t :: q.commands }, [], [t], ?_,
      hq.grows grows_assert rfl, grows_assert, by simpa using ht, fun u hu _ => hu⟩
    rw [assert, if_neg htrue]
    exact runs_add

theorem lays_assertAll {α : Type} {xs : List α} {f : α → Term}
    (h : ∀ a ∈ xs, Stated g o (f a)) :
    Lays g o x ρ (xs.forM fun a => assert (f a)) (xs.flatMap fun a => [f a]) :=
  lays_forM fun a ha => lays_assert (h a ha)

end Lays

theorem consts_rfTerm {r w : Nat} : (rfTerm r w).consts = [rfSymbol r w] := rfl

theorem not_value_rf {r w : Nat} {y : String} (hy : y ∈ (rfTerm r w).consts) : ¬ ValueSymbol y := by
  rw [consts_rfTerm, List.mem_singleton] at hy
  simp [hy, ValueSymbol]

theorem not_value_co {a b : Nat} {y : String} (hy : y ∈ (coTerm g a b).consts) :
    ¬ ValueSymbol y := by
  unfold coTerm at hy
  split at hy
  · exact absurd hy (by simp [Term.consts])
  · split at hy
    · exact absurd hy (by simp [Term.consts])
    · rw [Term.consts, List.mem_singleton] at hy
      simp [hy, ValueSymbol]

theorem stated_mkOr {ts : List Term} (h : ∀ t ∈ ts, ∀ y ∈ t.consts, ¬ ValueSymbol y) :
    Stated g o (.mkOr ts) := stated_of_consts fun y hy => by
  obtain ⟨t, ht, hyt⟩ := Term.mem_consts_mkOr hy
  exact h t ht y hyt

theorem stated_not_both {s t : Term} (hs : ∀ y ∈ s.consts, ¬ ValueSymbol y)
    (ht : ∀ y ∈ t.consts, ¬ ValueSymbol y) : Stated g o (.mkNot (.mkAnd [s, t])) :=
  stated_of_consts fun y hy => by
    rw [Term.consts_mkNot] at hy
    obtain ⟨u, hu, hyu⟩ := Term.mem_consts_mkAnd hy
    rcases List.mem_cons.1 hu with rfl | hu
    · exact hs y hyu
    · obtain rfl := List.mem_singleton.1 hu
      exact ht y hyu

theorem lays_readsFrom : ∃ us, Lays g o x ρ (assertReadsFrom g) us := by
  refine ⟨_, (lays_heading _).bind (lays_forM fun r hr => Lays.bind
    (lays_assert (stated_mkOr fun t ht => ?_)) (lays_forM fun p hp => lays_assert
      (stated_not_both (fun y hy => not_value_rf hy) fun y hy => not_value_rf hy)))⟩
  obtain ⟨w, -, rfl⟩ := List.mem_map.1 ht
  exact fun y hy => not_value_rf hy

theorem lays_coherence : ∃ us, Lays g o x ρ (assertCoherence g) us := by
  refine ⟨_, (lays_heading _).bind (lays_forM fun y hy => Lays.bind
    (lays_forM fun p hp => Lays.bind (lays_assert (stated_mkOr fun t ht => ?_))
      (lays_assert (stated_not_both (fun z hz => not_value_co hz) fun z hz => not_value_co hz)))
    (lays_forM fun p hp => lays_assert (stated_of_consts fun z hz => ?_)))⟩
  · rcases List.mem_cons.1 ht with rfl | ht
    · exact fun z hz => not_value_co hz
    · obtain rfl := List.mem_singleton.1 ht
      exact fun z hz => not_value_co hz
  · rcases Term.mem_consts_mkImplies hz with hz | hz
    · obtain ⟨u, hu, hzu⟩ := Term.mem_consts_mkAnd hz
      rcases List.mem_cons.1 hu with rfl | hu
      · exact not_value_co hzu
      · obtain rfl := List.mem_singleton.1 hu
        exact not_value_co hzu
    · exact not_value_co hz

def flowTerm (g : EventGraph) (r w : Nat) : Term :=
  .implies (rfTerm r w) (.eq (valueAt g r) (valueAt g w))

theorem lays_dataFlow : Lays g o x ρ (assertDataFlow g)
    ([] ++ g.rfCandidates.flatMap fun p => [flowTerm g p.1 p.2]) :=
  (lays_heading _).bind (lays_assertAll fun _ _ => stated_of_domain rfl)

theorem lays_axiom (hv : m.validate = .ok ()) (hρ : m.Interprets g x ρ) {d : Axiom}
    (hd : d ∈ m.axioms) : Lays g o x ρ (assertAxiom g m d) [] := by
  have hc := (MemoryModel.layered_of_valid hv).1
  unfold assertAxiom
  refine (lays_heading _).bind fun q hq => ?_
  obtain ⟨M, q₁, hrun, ⟨ds, hext⟩, hknown, hM⟩ :=
    relation_yields_of_valid hv hρ (hc.axioms d hd) hq
  obtain ⟨ts, q₂, hruled, ⟨es, hext'⟩, hknown', hts, -⟩ := ruledOut_runs d.kind hknown hM
  have hnots : Lays g o x ρ (ts.forM fun t => assert t.mkNot) (ts.flatMap fun t => [t.mkNot]) :=
    lays_assertAll fun t ht => stated_of_formula (formula_mkNot (hts t ht))
  obtain ⟨q₃, fs, us, hrest, hknown'', hgrows, hstated, -⟩ := hnots q₂ hknown'
  refine ⟨q₃, ds ++ es ++ fs, us, ?_, hknown'', (hext.trans hext').trans hgrows, hstated, by simp⟩
  exact Runs.bind_iff.2 ⟨M, q₁, hrun, Runs.bind_iff.2 ⟨ts, q₂, hruled, hrest⟩⟩

theorem lays_constraints :
    Lays g o x ρ (g.constraints.forM assert) (g.constraints.flatMap fun t => [t]) :=
  lays_forM fun _ ht => lays_assert fun _ _ _ _ => .inl ht

theorem lays_outcome :
    Lays g o x ρ (assertOutcome g o) (o.atoms.flatMap fun a => [atomTerm g a]) := by
  unfold assertOutcome
  split
  · next h =>
    rw [Outcome.isAny, List.isEmpty_iff] at h
    rw [h]
    exact lays_nothing
  · exact (lays_heading _).bind (lays_assertAll fun a ha _ _ _ _ => .inr ⟨a, ha, rfl⟩)

def valueTerms (g : EventGraph) (o : Outcome) : List Term :=
  (g.rfCandidates.map fun p => flowTerm g p.1 p.2) ++ (g.constraints ++ o.atoms.map (atomTerm g))

theorem lays_laterParts (hv : m.validate = .ok ()) (hρ : m.Interprets g x ρ) :
    ∃ us, Lays g o x ρ (laterParts g m o) us ∧ valueTerms g o ⊆ us := by
  obtain ⟨us₁, h₁⟩ := lays_readsFrom (g := g) (o := o) (x := x) (ρ := ρ)
  obtain ⟨us₂, h₂⟩ := lays_coherence (g := g) (o := o) (x := x) (ρ := ρ)
  have haxioms : Lays g o x ρ (m.axioms.forM (assertAxiom g m)) (m.axioms.flatMap fun _ => []) :=
    lays_forM fun d hd => lays_axiom hv hρ hd
  refine ⟨_, h₁.bind (h₂.bind (lays_dataFlow.bind (haxioms.bind ((lays_heading _).bind
    (lays_constraints.bind lays_outcome))))), fun t ht => ?_⟩
  simp only [valueTerms, List.mem_append, List.mem_map] at ht
  simp only [List.mem_append, List.mem_flatMap, List.mem_singleton]
  rcases ht with ⟨p, hp, rfl⟩ | ht | ⟨a, ha, rfl⟩
  · exact .inr (.inr (.inl (.inr ⟨p, hp, rfl⟩)))
  · exact .inr (.inr (.inr (.inr (.inr (.inl ⟨t, ht, rfl⟩)))))
  · exact .inr (.inr (.inr (.inr (.inr (.inr ⟨a, ha, rfl⟩)))))

def domainTerms (g : EventGraph) : List Term :=
  match valueDomains g with
  | none => []
  | some domains =>
    (readSymbols g).map fun symbol => .oneOf symbol ((domains.get? symbol).getD .empty).toList

structure Asserted (g : EventGraph) (o : Outcome) (script : Script) : Prop where
  front : ∃ rest, script.assertions = domainTerms g ++ rest
  stated : ∀ t ∈ script.assertions, t ∈ domainTerms g ∨ Stated g o t
  values : ∀ t ∈ valueTerms g o, t ≠ .bool true → t ∈ script.assertions

/-- The latest assertion comes first. -/
theorem assertAll_asserted {α : Type} (f : α → Term) (xs : List α)
    (h : ∀ a ∈ xs, f a ≠ .bool true) (q : QueryState) : ∃ q₁,
      Runs (xs.forM fun a => assert (f a)) q ⟨⟩ q₁ ∧ q₁.named = q.named ∧
        q₁.asserted = (xs.map f).reverse ++ q.asserted := by
  induction xs generalizing q with
  | nil => exact ⟨q, Runs.forM_nil.2 rfl, rfl, rfl⟩
  | cons a xs ih =>
    rw [List.forall_mem_cons] at h
    obtain ⟨q₁, hrun, hnamed, hasserted⟩ :=
      ih h.2 { q with commands := .assert (f a) :: q.commands }
    refine ⟨q₁, Runs.forM_cons.2 ⟨_, ?_, hrun⟩, hnamed, ?_⟩
    · rw [assert, if_neg h.1]
      exact runs_add
    · rw [hasserted]
      simp [QueryState.asserted, Command.assertion]

theorem assertDomains_asserted (g : EventGraph) (q : QueryState) : ∃ q₁,
    Runs (assertDomains g) q ⟨⟩ q₁ ∧ q₁.named = q.named ∧
      q₁.asserted = (domainTerms g).reverse ++ q.asserted := by
  unfold assertDomains domainTerms
  cases valueDomains g with
  | none => exact ⟨q, Runs.pure_iff.2 ⟨rfl, rfl⟩, rfl, rfl⟩
  | some domains =>
    obtain ⟨q₁, hrun, hnamed, hasserted⟩ := assertAll_asserted
      (fun symbol => .oneOf symbol ((domains.get? symbol).getD .empty).toList) (readSymbols g)
      (fun symbol _ => Term.oneOf_ne_true symbol _)
      { q with commands := .comment "value domains" :: q.commands }
    exact ⟨q₁, Runs.bind_iff.2 ⟨_, _, runs_add, hrun⟩, hnamed, hasserted⟩

theorem asserted_of_encode (hv : m.validate = .ok ()) {script : Script}
    (h : encode g m o = .ok script) : Asserted g o script := by
  let x : Choice := ⟨fun _ _ => False, fun _ _ => False⟩
  obtain ⟨ρ, hρ⟩ := MemoryModel.exists_meaning hv g x
  have htitle := runs_add (q := ⟨[], [], 0⟩)
    (c := .comment ("model " ++ m.name ++ ": " ++ g.render))
  obtain ⟨q₁, hdeclare, hd⟩ := declare_runs g o
    ⟨[.comment ("model " ++ m.name ++ ": " ++ g.render)], [], 0⟩
  obtain ⟨q₂, hdomains, hnamed, hasserted⟩ := assertDomains_asserted g q₁
  have hnone : q₁.asserted = [] := hd.asserted
  rw [hnone, List.append_nil] at hasserted
  have hknown : Known g x ρ q₂ := by
    intro name M hM
    rw [hnamed, hd.named] at hM
    exact absurd hM (by simp)
  obtain ⟨us, hlays, hus⟩ := lays_laterParts (o := o) hv hρ
  obtain ⟨q₃, ds, ts, hlater, -, hgrows, hstated, hmem⟩ := hlays q₂ hknown
  have hrun : Runs (build g m o) ⟨[], [], 0⟩ ⟨⟩ q₃ :=
    Runs.bind_iff.2 ⟨_, _, htitle, Runs.bind_iff.2 ⟨_, q₁, hdeclare,
      Runs.bind_iff.2 ⟨_, q₂, hdomains, hlater⟩⟩⟩
  obtain rfl := Except.ok.inj (h.symm.trans (encode_of_runs hrun))
  have hassertions : Script.assertions ⟨q₃.commands.reverse⟩ = q₃.asserted.reverse :=
    List.filterMap_reverse
  obtain ⟨pre, hpre⟩ : q₂.asserted <:+ q₃.asserted :=
    (appends_laterParts g m o hlater).filterMap _
  refine ⟨⟨pre.reverse, ?_⟩, fun t ht => ?_, fun t ht hne => ?_⟩
  · rw [hassertions, ← hpre, hasserted, List.reverse_append, List.reverse_reverse]
  · rw [hassertions, List.mem_reverse, hgrows.asserted, hasserted, List.mem_reverse] at ht
    rcases ht with ht | ht | ht
    · exact .inl ht
    · obtain ⟨d, -, rfl⟩ := List.mem_map.1 ht
      exact .inr (stated_of_domain rfl)
    · exact .inr (hstated t ht)
  · rw [hassertions, List.mem_reverse, hgrows.asserted]
    exact .inr (.inr (hmem t (hus ht) hne))

/-- The query starts with a comment that names the model. -/
theorem begins_of_encode {script : Script} (h : encode g m o = .ok script) : ∃ rest,
    script.commands = .comment ("model " ++ m.name ++ ": " ++ g.render) :: rest := by
  obtain ⟨q₁, hrun, rfl⟩ := runs_of_encode h
  obtain ⟨_, q, htitle, hparts⟩ := Runs.bind_iff.1 hrun
  obtain rfl := Runs.modify_iff.1 htitle
  have happends : Appends (do declare g o; assertDomains g; laterParts g m o) :=
    appends.bind (composes_declare appends g o) fun _ =>
      appends.bind (composes_domains appends g) fun _ => appends_laterParts g m o
  obtain ⟨later, hlater⟩ := happends hparts
  refine ⟨later.reverse, ?_⟩
  rw [← hlater, List.reverse_append]
  rfl

end Consistency.Query
