import Consistency.Proofs.Query.Requirement

/-!
# Executions that a query asks for

A choice and values of the symbols realize an execution if reads see what their
sources store, the model admits the choice, the path constraints and domains
are respected, and the outcome is reached. The assertions outside definitions
say just this.
-/

set_option autoImplicit false

namespace Consistency
open Query

namespace EventGraph

def Symbolic (g : EventGraph) : Prop :=
  ∀ a e, g.event? a = some e → e.isRead = true → e.value = none

end EventGraph

def Atom.Ends (g : EventGraph) (x : Choice) (v : Valuation) : Atom → Prop
  | .register p reg n => ∃ t, g.registerTerm p reg = some t ∧ t.Computes v.environment n
  | .memory y n => ∃ w ∈ g.writesTo y, (∀ b ∈ g.writesTo y, ¬ x.co w b) ∧
      (valueAt g w).Computes v.environment n

structure Choice.Meets (g : EventGraph) (m : MemoryModel) (x : Choice) (v : Valuation) : Prop where
  proper : x.Proper g
  flow : ∀ w r, x.rf w r → ∃ n, (valueAt g r).Computes v.environment n ∧
    (valueAt g w).Computes v.environment n
  admitted : m.Admits g x
  constraints : ∀ t ∈ g.constraints, t.Decides v.environment true
  domains : ∀ domains, valueDomains g = some domains → ∀ symbol ∈ readSymbols g,
    v symbol ∈ ((domains.get? symbol).getD .empty).toList

structure Choice.Realizes (g : EventGraph) (m : MemoryModel) (o : Outcome) (x : Choice)
    (v : Valuation) : Prop where
  proper : x.Proper g
  flow : ∀ w r, x.rf w r → ∃ n, (valueAt g r).Computes v.environment n ∧
    (valueAt g w).Computes v.environment n
  admitted : m.Admits g x
  constraints : ∀ t ∈ g.constraints, t.Decides v.environment true
  domains : ∀ domains, valueDomains g = some domains → ∀ symbol ∈ readSymbols g,
    v symbol ∈ ((domains.get? symbol).getD .empty).toList
  outcome : ∀ a ∈ o.atoms, a.Ends g x v

theorem Choice.realizes_iff {g : EventGraph} {m : MemoryModel} {o : Outcome} {x : Choice}
    {v : Valuation} : x.Realizes g m o v ↔ x.Meets g m v ∧ ∀ a ∈ o.atoms, a.Ends g x v :=
  ⟨fun h => ⟨⟨h.proper, h.flow, h.admitted, h.constraints, h.domains⟩, h.outcome⟩, fun ⟨h, ho⟩ =>
    ⟨h.proper, h.flow, h.admitted, h.constraints, h.domains, ho⟩⟩

namespace Query
variable {g : EventGraph} {m : MemoryModel} {o : Outcome} {x : Choice} {ρ : Meaning}
  {v : Valuation} {env : Environment} {t : Term} {a : Nat}

/-- The terms that a query speaks of, apart from formulas over the choice. -/
inductive Speaks (g : EventGraph) (o : Outcome) : Term → Prop where
  | event {e : Event} : e ∈ g.events → Speaks g o e.valueTerm
  | constraint {t : Term} : t ∈ g.constraints → Speaks g o t
  | register {p : Nat} {reg : String} {n : Int} {t : Term} : .register p reg n ∈ o.atoms →
      g.registerTerm p reg = some t → Speaks g o t

theorem mem_intSymbols_event {e : Event} {name : String} (he : e ∈ g.events)
    (h : name ∈ e.valueTerm.consts) : name ∈ (intSymbols g o).toList := by
  refine OrderedSet.mem_ofList.2 (List.mem_append_left _ (List.mem_append_left _ ?_))
  refine List.mem_flatMap.2 ⟨e, Array.mem_toList_iff.2 he, ?_⟩
  cases hv : e.value with
  | some t =>
    refine List.mem_append_right _ (List.mem_flatMap.2 ⟨t, by simp, ?_⟩)
    simpa [Event.valueTerm, hv] using h
  | none =>
    refine List.mem_append_left _ ?_
    cases hk : e.kind with
    | read =>
      have hn : name = e.symbol := by simpa [Event.valueTerm, hv, hk, Term.consts] using h
      simp [hn, Event.symbol?, Event.isRead, hk]
    | write => exact absurd h (by simp [Event.valueTerm, hv, hk, Term.consts])

theorem Speaks.mem_intSymbols (h : Speaks g o t) : ∀ name ∈ t.consts,
    name ∈ (intSymbols g o).toList := by
  intro name hn
  cases h with
  | event he => exact mem_intSymbols_event he hn
  | constraint ht =>
    refine OrderedSet.mem_ofList.2 (List.mem_append_left _ (List.mem_append_right _ ?_))
    exact List.mem_flatMap.2 ⟨t, ht, hn⟩
  | @register p reg n _ ha ht =>
    refine OrderedSet.mem_ofList.2 (List.mem_append_right _ ?_)
    refine List.mem_flatMap.2 ⟨_, ha, ?_⟩
    simp only [ht, Option.toList_some, List.flatMap_singleton]
    exact hn

/-- The integers of a query are constants of the terms it speaks of. -/
theorem spoken_of_mem (hg : g.Symbolic) {name : String} (h : name ∈ (intSymbols g o).toList) :
    ∃ t, Speaks g o t ∧ name ∈ t.consts := by
  rcases List.mem_append.1 (OrderedSet.mem_ofList.1 h) with h | h
  · rcases List.mem_append.1 h with h | h
    · obtain ⟨e, he, h⟩ := List.mem_flatMap.1 h
      have hmem := Array.mem_toList_iff.1 he
      refine ⟨e.valueTerm, .event hmem, ?_⟩
      rcases List.mem_append.1 h with h | h
      · rw [Option.mem_toList, Event.symbol?, Option.ite_none_right_eq_some] at h
        obtain ⟨hread, h⟩ := h
        obtain ⟨a, ha⟩ := Array.mem_iff_getElem?.1 hmem
        have hkind : e.kind = .read := eq_of_beq hread
        simp [Event.valueTerm, hg a e ha hread, hkind, Term.consts, ← Option.some.inj h]
      · obtain ⟨t, ht, h⟩ := List.mem_flatMap.1 h
        simpa [Event.valueTerm, Option.mem_toList.1 ht] using h
    · obtain ⟨t, ht, h⟩ := List.mem_flatMap.1 h
      exact ⟨t, .constraint ht, h⟩
  · obtain ⟨a, ha, h⟩ := List.mem_flatMap.1 h
    cases a with
    | memory y n => exact absurd h (by simp)
    | register p reg n =>
      obtain ⟨t, ht, h⟩ := List.mem_flatMap.1 h
      exact ⟨t, .register ha (Option.mem_toList.1 ht), h⟩

/-- The values of such terms are those under the integers alone. -/
theorem Speaks.eval (h : Speaks g o t) (hf : Fits env g o x v) :
    t.eval env = t.eval v.environment :=
  Term.eval_congr t fun name hn => hf.values name (h.mem_intSymbols name hn)

theorem speaks_valueAt {e : Event} (he : g.event? a = some e) : Speaks g o (valueAt g a) := by
  rw [valueAt, he]
  exact .event (Array.mem_of_getElem? he)

theorem valueAt_of_read (hg : g.Symbolic) {e : Event} (he : g.event? a = some e)
    (hr : e.isRead = true) : valueAt g a = .const e.symbol := by
  have hk : e.kind = .read := eq_of_beq hr
  simp only [valueAt, he, Event.valueTerm, hg a e he hr, hk]

theorem symbol_mem_intSymbols (hg : g.Symbolic) {e : Event} (he : g.event? a = some e)
    (hr : e.isRead = true) : e.symbol ∈ (intSymbols g o).toList := by
  have hspeaks := speaks_valueAt (o := o) he
  rw [valueAt_of_read hg he hr] at hspeaks
  exact hspeaks.mem_intSymbols _ (by simp [Term.consts])

theorem requires_domains (g : EventGraph) (o : Outcome) (x : Choice) (ρ : Meaning)
    (v : Valuation) (hg : g.Symbolic) : Requires g o x ρ v (assertDomains g)
      (∀ domains, valueDomains g = some domains → ∀ symbol ∈ readSymbols g,
        v symbol ∈ ((domains.get? symbol).getD .empty).toList) := by
  unfold assertDomains
  cases hd : valueDomains g with
  | none => exact requires_nothing.congr (by simp)
  | some domains =>
    have hin : ∀ symbol ∈ readSymbols g, symbol ∈ (intSymbols g o).toList := by
      intro symbol hs
      obtain ⟨e, he, rfl⟩ := List.mem_map.1 hs
      rw [readsOf, List.mem_filter] at he
      obtain ⟨a, ha⟩ := Array.mem_iff_getElem?.1 (Array.mem_toList_iff.1 he.1)
      exact symbol_mem_intSymbols hg ha he.2
    have hpart : ∀ symbol ∈ readSymbols g, Requires g o x ρ v
        (assert (.oneOf symbol ((domains.get? symbol).getD .empty).toList))
        (v symbol ∈ ((domains.get? symbol).getD .empty).toList) := fun symbol hs =>
      requires_assert fun env hf =>
        (Term.tells_oneOf (hf.values symbol (hin symbol hs))).decides_true
    exact ((requires_heading _).bind (requires_forM hpart)).congr (by simp)

theorem mem_rfCandidates {r w : Nat} :
    (r, w) ∈ g.rfCandidates ↔ r ∈ g.reads ∧ w ∈ g.writesSameVar r := by
  simp [EventGraph.rfCandidates]

/-- Read values are integers, so those of their sources must be. -/
theorem decides_eq_valueAt (hg : g.Symbolic) (hf : Fits env g o x v) {r w : Nat}
    (hr : r ∈ g.reads) (hw : w ∈ g.writesSameVar r) :
    (Term.eq (valueAt g r) (valueAt g w)).Decides env true ↔ ∃ n,
      (valueAt g r).Computes v.environment n ∧ (valueAt g w).Computes v.environment n := by
  obtain ⟨e, he, her⟩ := EventGraph.mem_reads.1 hr
  obtain ⟨d, f, -, hfw, -, -⟩ := EventGraph.mem_writesSameVar.1 hw
  have hre := (speaks_valueAt (o := o) he).eval hf
  have hwe := (speaks_valueAt (o := o) hfw).eval hf
  constructor
  · intro h
    obtain ⟨u, u', b, hu, hu', heq, hb⟩ := Term.eval_eq.1 h
    obtain rfl := Value.bool.inj hb
    obtain rfl : u = u' := by simpa using Value.eq_of_equal heq
    rw [hre, valueAt_of_read hg he her] at hu
    obtain rfl := Option.some.inj hu
    refine ⟨v e.symbol, ?_, hwe.symm.trans hu'⟩
    rw [valueAt_of_read hg he her]
    rfl
  · rintro ⟨n, hn, hn'⟩
    exact (Term.tells_eq (hre.trans hn) (hwe.trans hn')).decides_true.2 rfl

theorem requires_dataFlow (g : EventGraph) (o : Outcome) (x : Choice) (ρ : Meaning)
    (v : Valuation) (hg : g.Symbolic) : Requires g o x ρ v (assertDataFlow g)
      (∀ r ∈ g.reads, ∀ w ∈ g.writesSameVar r, x.rf w r → ∃ n,
        (valueAt g r).Computes v.environment n ∧ (valueAt g w).Computes v.environment n) := by
  have hpart : ∀ p ∈ g.rfCandidates, Requires g o x ρ v
      (assert (.mkImplies (rfTerm p.1 p.2) (.eq (valueAt g p.1) (valueAt g p.2))))
      (x.rf p.2 p.1 → ∃ n, (valueAt g p.1).Computes v.environment n ∧
        (valueAt g p.2).Computes v.environment n) := by
    rintro ⟨r, w⟩ hp
    obtain ⟨hr, hw⟩ := mem_rfCandidates.1 hp
    refine requires_assert fun env hf => ?_
    rw [← decides_eq_valueAt hg hf hr hw]
    exact Term.decides_mkImplies (hf.shows.rf r hr w hw)
  unfold assertDataFlow
  refine ((requires_heading _).bind (requires_forM hpart)).congr ?_
  rw [true_and]
  constructor
  · intro h r hr w hw
    exact h (r, w) (mem_rfCandidates.2 ⟨hr, hw⟩)
  · rintro h ⟨r, w⟩ hp
    obtain ⟨hr, hw⟩ := mem_rfCandidates.1 hp
    exact h r hr w hw

theorem requires_constraints (g : EventGraph) (o : Outcome) (x : Choice) (ρ : Meaning)
    (v : Valuation) : Requires g o x ρ v (g.constraints.forM assert)
      (∀ t ∈ g.constraints, t.Decides v.environment true) :=
  requires_forM fun t ht => requires_assert fun env hf => by
    rw [Term.Decides, (Speaks.constraint ht).eval hf, ← Term.Decides]

theorem decides_finalMemory (hf : Fits env g o x v) (he : Evaluates g v) (y : String) (n : Int) :
    (finalMemory g y n).Decides env true ↔ (Atom.memory y n).Ends g x v := by
  have hvalue : ∀ w ∈ g.writesTo y, (Term.eq (valueAt g w) (.int n)).Tells env
      ((valueAt g w).Computes v.environment n) := by
    intro w hw
    obtain ⟨e, hev, hew, -⟩ := EventGraph.mem_writesTo.1 hw
    obtain ⟨k, hk⟩ := he w (EventGraph.mem_writes.2 ⟨e, hev, hew⟩)
    have heval := (speaks_valueAt (o := o) hev).eval hf
    refine (Term.tells_eq (heval.trans hk) (Term.computes_int env n)).congr ?_
    constructor
    · rintro rfl
      exact hk
    · intro hn
      exact Value.int.inj (Option.some.inj (hk.symm.trans hn))
  have hlast : ∀ w ∈ g.writesTo y, (Term.mkAnd
      (((g.writesTo y).filter (· != w)).map (fun b => .mkNot (coTerm g w b)) ++
        [.eq (valueAt g w) (.int n)])).Tells env
      ((∀ b ∈ (g.writesTo y).filter (· != w), ¬ x.co w b) ∧
        (valueAt g w).Computes v.environment n) := by
    intro w hw
    refine Term.tells_mkAnd_concat (fun b hb => ?_) (hvalue w hw)
    rw [List.mem_filter, bne_iff_ne] at hb
    have hwb := EventGraph.mem_writesSameVar_of_writesTo hw hb.1
    exact (hf.shows.co w (List.mem_of_mem_filter hw) b hwb (Ne.symm hb.2)).mkNot
  rw [finalMemory, (Term.tells_mkOr hlast).decides_true]
  refine exists_congr fun w => and_congr_right fun hw => and_congr_left fun _ => ?_
  constructor
  · intro h b hb hco
    refine h b ?_ hco
    rw [List.mem_filter, bne_iff_ne]
    exact ⟨hb, Ne.symm (hf.shows.writes w b hco).2.2⟩
  · exact fun h b hb => h b (List.mem_of_mem_filter hb)

theorem decides_atomTerm (hf : Fits env g o x v) (he : Evaluates g v) {a : Atom}
    (ha : a ∈ o.atoms) : (atomTerm g a).Decides env true ↔ a.Ends g x v := by
  cases a with
  | memory y n => exact decides_finalMemory hf he y n
  | register p reg n =>
    rw [atomTerm, Atom.Ends]
    cases ht : g.registerTerm p reg with
    | none => simp [Term.decides_bool]
    | some t =>
      simp only [Option.some.injEq, exists_eq_left']
      rw [Term.decides_eq_int, Term.Computes, (Speaks.register ha ht).eval hf, ← Term.Computes]

/-- The outcome is asserted atom by atom, without definitions. -/
theorem assertOutcome_runs (S : String → Prop) (g : EventGraph) (o : Outcome) (q : QueryState) :
    ∃ q₁ ts, Runs (assertOutcome g o) q ⟨⟩ q₁ ∧ Grows S q [] ts q₁ ∧ ∀ env,
      (∀ t ∈ ts, t.Decides env true) ↔ ∀ a ∈ o.atoms, (atomTerm g a).Decides env true := by
  unfold assertOutcome
  split
  · next h =>
    rw [Outcome.isAny, List.isEmpty_iff] at h
    exact ⟨q, [], Runs.pure_iff.2 ⟨rfl, rfl⟩, .refl S q, by simp [h]⟩
  · have hgrows := grows_add (S := S) (q := q) (c := .comment ("outcome " ++ o.render)) rfl rfl
    obtain ⟨q₁, ts, hrun, hgrows', -, hts⟩ := assertAll_runs S _ (atomTerm g) o.atoms
    exact ⟨q₁, ts, Runs.bind_iff.2 ⟨_, _, runs_add, hrun⟩, hgrows.trans hgrows', hts⟩

end Query
end Consistency
