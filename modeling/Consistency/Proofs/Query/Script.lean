import Consistency.Proofs.Query.Choice

/-!
# Scripts of queries

The script of a query declares symbols, makes definitions one after the other
and asserts what holds of the executions asked for.
-/

set_option autoImplicit false

namespace Consistency
open Query

structure Script.Satisfied (s : Script) (env : Environment) : Prop where
  typed : ∀ name sort, (name, sort) ∈ s.declared → ∃ v, env name = some v ∧ v.sort = sort
  holds : ∀ t ∈ s.assertions, t.Decides env true

namespace Query
variable {g : EventGraph} {m : MemoryModel} {o : Outcome} {x : Choice} {ρ : Meaning}
  {v : Valuation} {q q₁ : QueryState} {env : Environment}

structure Declares (ds : List (String × ValueSort)) (q q₁ : QueryState) : Prop where
  named : q₁.named = q.named
  definitions : q₁.definitions = q.definitions
  asserted : q₁.asserted = q.asserted
  declared : ∀ d, d ∈ q₁.declared ↔ d ∈ q.declared ∨ d ∈ ds

theorem Declares.trans {ds es : List (String × ValueSort)} {q₂ : QueryState}
    (h : Declares ds q q₁) (k : Declares es q₁ q₂) : Declares (ds ++ es) q q₂ where
  named := k.named.trans h.named
  definitions := k.definitions.trans h.definitions
  asserted := k.asserted.trans h.asserted
  declared := by
    intro d
    rw [k.declared, h.declared, List.mem_append, or_assoc]

theorem declareAll_runs {α : Type} (f : α → String) (sort : ValueSort) (xs : List α)
    (q : QueryState) : ∃ q₁, Runs (xs.forM fun a => add (.declareConst (f a) sort)) q ⟨⟩ q₁ ∧
      Declares (xs.map fun a => (f a, sort)) q q₁ := by
  induction xs generalizing q with
  | nil => exact ⟨q, Runs.forM_nil.2 rfl, rfl, rfl, rfl, by simp⟩
  | cons a xs ih =>
    obtain ⟨q₁, hrun, hd⟩ := ih { q with commands := .declareConst (f a) sort :: q.commands }
    refine ⟨q₁, Runs.forM_cons.2 ⟨_, runs_add, hrun⟩, hd.named, hd.definitions, hd.asserted,
      fun d => ?_⟩
    rw [hd.declared, List.map_cons, List.mem_cons, ← or_assoc, or_comm (a := d ∈ q.declared)]
    simp [QueryState.declared, Command.declared, eq_comm]

def declarations (g : EventGraph) (o : Outcome) : List (String × ValueSort) :=
  g.rfCandidates.map (fun p => (rfSymbol p.1 p.2, .bool)) ++
    ((g.coCandidates.filter fun p => !isInit g p.1 && !isInit g p.2).map
      (fun p => (coSymbol p.1 p.2, .bool)) ++
    (intSymbols g o).toList.map fun name => (name, .int))

theorem declare_runs (g : EventGraph) (o : Outcome) (q : QueryState) :
    ∃ q₁, Runs (declare g o) q ⟨⟩ q₁ ∧ Declares (declarations g o) q q₁ := by
  obtain ⟨q₁, hrun₁, hd₁⟩ := declareAll_runs (fun p => rfSymbol p.1 p.2) .bool g.rfCandidates q
  obtain ⟨q₂, hrun₂, hd₂⟩ := declareAll_runs (fun p => coSymbol p.1 p.2) .bool
    (g.coCandidates.filter fun p => !isInit g p.1 && !isInit g p.2) q₁
  obtain ⟨q₃, hrun₃, hd₃⟩ := declareAll_runs id .int (intSymbols g o).toList q₂
  refine ⟨q₃, ?_, hd₁.trans (hd₂.trans hd₃)⟩
  exact Runs.bind_iff.2 ⟨_, q₁, hrun₁, Runs.bind_iff.2 ⟨_, q₂, hrun₂, hrun₃⟩⟩

def demands (g : EventGraph) (m : MemoryModel) : QueryM Unit := do
  assertDomains g
  assertReadsFrom g
  assertCoherence g
  assertDataFlow g
  m.axioms.forM (assertAxiom g m)
  heading "path constraints"
  g.constraints.forM assert

theorem requires_demands (hg : g.Regular) (hs : g.Symbolic) (hv : m.validate = .ok ())
    (hρ : m.Interprets g x ρ) :
    Requires g o x ρ v (demands g m) (x.Meets g m v) := by
  have h := (requires_domains g o x ρ v hs).bind <| (requires_readsFrom g o x ρ v).bind <|
    (requires_coherence g o x ρ v).bind <| (requires_dataFlow g o x ρ v hs).bind <|
    (requires_forM fun d hd => requires_axiom (o := o) (v := v) hv hρ hd).bind <|
    (requires_heading "path constraints").bind <| requires_constraints g o x ρ v
  refine h.congr_of_fits fun env hf => ?_
  have hproper := hf.shows.proper_iff hg
  have hadmits := MemoryModel.admits_iff hv hρ
  constructor
  · rintro ⟨hd, hrf, hco, hflow, hax, -, hc⟩
    refine ⟨hproper.2 ⟨hrf, hco⟩, fun w r h => ?_, hadmits.2 hax, hc, hd⟩
    obtain ⟨hr, hw⟩ := hf.shows.source w r h
    exact hflow r hr w hw h
  · intro h
    obtain ⟨hrf, hco⟩ := hproper.1 h.proper
    exact ⟨h.domains, hrf, hco, fun r _ w _ hw => h.flow w r hw, hadmits.1 h.admitted, trivial,
      h.constraints⟩

structure Written (g : EventGraph) (o : Outcome) (q : QueryState) (ds ts : List Term) : Prop where
  declared : ∀ d, d ∈ q.declared ↔
    d ∈ declarations g o ∨ ∃ k < ds.length, d = (definitionSymbol k, .bool)
  asserted : ∀ t, t ∈ q.asserted ↔ t ∈ definitionsFrom 0 ds ∨ t ∈ ts
  ordered : Ordered (ChoiceSymbol g) 0 ds

theorem build_runs (hg : g.Regular) (hs : g.Symbolic) (hv : m.validate = .ok ())
    (hρ : m.Interprets g x ρ) (o : Outcome) (v : Valuation) :
    ∃ q ds ts, Runs (build g m o) ⟨[], [], 0⟩ ⟨⟩ q ∧ Written g o q ds ts ∧
      ∀ env, Fits env g o x v → (∀ t ∈ definitionsFrom 0 ds, t.Decides env true) →
        ((∀ t ∈ ts, t.Decides env true) ↔
          x.Meets g m v ∧ ∀ a ∈ o.atoms, (atomTerm g a).Decides env true) := by
  have htitle := runs_add (q := ⟨[], [], 0⟩)
    (c := .comment ("model " ++ m.name ++ ": " ++ g.render))
  obtain ⟨q₁, hdeclare, hd⟩ := declare_runs g o
    ⟨[.comment ("model " ++ m.name ++ ": " ++ g.render)], [], 0⟩
  have hknown : Known g x ρ q₁ := by
    intro name M hM
    rw [hd.named] at hM
    exact absurd hM (by simp)
  obtain ⟨q₂, ds, ts, hrun, -, hgrows, htrue⟩ :=
    requires_demands (o := o) (v := v) hg hs hv hρ q₁ hknown
  obtain ⟨q₃, us, hrun', hgrows', hus⟩ := assertOutcome_runs (ChoiceSymbol g) g o q₂
  have hall := hgrows.trans hgrows'
  have hzero : q₁.definitions = 0 := hd.definitions
  have hnone : q₁.asserted = [] := hd.asserted
  rw [hzero, hnone] at htrue
  rw [List.append_nil] at hall
  refine ⟨q₃, ds, ts ++ us, ?_, ⟨fun d => ?_, fun t => ?_, fun i d hi => ?_⟩,
    fun env hf hdefs => ?_⟩
  · have hboth : Runs (demands g m >>= fun _ => assertOutcome g o) q₁ ⟨⟩ q₃ :=
      Runs.bind_iff.2 ⟨_, q₂, hrun, hrun'⟩
    simp only [demands, bind_assoc] at hboth
    exact Runs.bind_iff.2 ⟨_, _, htitle, Runs.bind_iff.2 ⟨_, q₁, hdeclare, hboth⟩⟩
  · rw [hall.declared, hd.declared, hall.definitions, hzero]
    simp [QueryState.declared, Command.declared]
  · rw [hall.asserted, hnone, hzero]
    simp
  · have h := hall.formulas i d hi
    rwa [hzero] at h
  · rw [List.forall_mem_append, htrue env hf (by simp) hdefs, hus env]

theorem encode_of_runs (h : Runs (build g m o) ⟨[], [], 0⟩ ⟨⟩ q) :
    encode g m o = .ok ⟨q.commands.reverse⟩ := by
  have h' : (build g m o).run ⟨[], [], 0⟩ = .ok (⟨⟩, q) := h
  rw [encode, h']
  rfl

theorem runs_of_encode {script : Script} (h : encode g m o = .ok script) :
    ∃ q, Runs (build g m o) ⟨[], [], 0⟩ ⟨⟩ q ∧ script = ⟨q.commands.reverse⟩ := by
  obtain ⟨⟨⟨⟩, q⟩, hrun, hscript⟩ := bind_eq_ok.1 h
  exact ⟨q, hrun, (Except.ok.inj hscript).symm⟩

theorem satisfied_iff : Script.Satisfied ⟨q.commands.reverse⟩ env ↔
    (∀ name sort, (name, sort) ∈ q.declared → ∃ v, env name = some v ∧ v.sort = sort) ∧
      ∀ t ∈ q.asserted, t.Decides env true := by
  have hd : ∀ d, d ∈ Script.declared ⟨q.commands.reverse⟩ ↔ d ∈ q.declared := fun d => by
    simp [Script.declared, QueryState.declared]
  have ha : ∀ t, t ∈ Script.assertions ⟨q.commands.reverse⟩ ↔ t ∈ q.asserted := fun t => by
    simp [Script.assertions, QueryState.asserted]
  simp only [← hd, ← ha]
  exact ⟨fun h => ⟨h.typed, h.holds⟩, fun h => ⟨h.1, h.2⟩⟩

end Query
end Consistency
