import Consistency.Proofs.Check.Solutions
import Consistency.Proofs.Exploration.Recast

/-!
# Checks under two precisions

What is found under one precision is not found forbidden under another that
tracks other registers, unless reads take values from writes that need these
values themselves.
-/

set_option autoImplicit false

namespace Consistency.Check
open Query
variable {c : Composition} {m : MemoryModel} {o : Outcome} {p q : Precision}
  {config config' : CheckConfig} {solve solve' : SatSolver} {r r' : CheckResult} {s : GlobalState}

theorem ordinary_ofState (hn : c.Numbered) (hc : c.Initialized) (hwell : c.WellFormed)
    (h : c.Reachable p s) (o : Outcome) : Ordinary (.ofState c s) o where
  regular := EventGraph.regular_ofState hc h
  symbolic := symbolic_ofState h
  nodup := EventGraph.readSymbols_nodup hn hc h
  initial := fun _ e he => Composition.initial_int h e (EventGraph.mem_emitted he)
  wellFormed := EventGraph.wellFormed_ofState hn hwell h
  symbols := valueSymbol_of_reachable h o

/-- No solution found under one precision contradicts a check under the other that finds nothing. -/
theorem ungrounded_of_returns (hcomplete : solve'.Complete) (hn : c.Numbered) (hc : c.Initialized)
    (hwell : c.WellFormed) (hbound : p.stepBound = q.stepBound) (hm : m.validate = .ok ())
    (h : Returns c p config (query (Script.decide solve) m o) (.ok r))
    (h' : Returns c q config' (query (Script.decide solve') m o) (.ok r'))
    (hr : r'.verdict = .forbidden) :
    ∀ s ∈ r.solutions, ¬ s.execution.choice.Grounded s.execution.graph := by
  intro s hs hground
  obtain ⟨t, u, hsat, hu, hproper, ht⟩ := h.solved hn hs
  obtain ⟨script, found, hscript, hfound, rfl⟩ := script_of_sat hsat
  rw [ht] at hscript
  obtain ⟨w, rfl, hw⟩ := solves_of_decide (arranged_ofState hc hu) hm
    (valueSymbol_of_reachable hu o) hscript hfound
  have hchoice := hw.choice_eq (arranged_ofState hc hu)
  simp only [ht, Option.getD_some] at hground
  rw [hchoice] at hground
  have hends := fun d hd => ends_of_decides hw.fits hd (hw.outcome d hd)
  -- The threads pick the same under the other precision, and something above was asked about.
  obtain ⟨v, z, hz, hzproper, hrecast⟩ := Composition.exists_recast hn hwell hbound hu hproper
    hw.meets.constraints
  obtain ⟨K, hstart, hK⟩ := explored_of_forbidden hn h' hr
  obtain ⟨u', hu', ⟨index, hunsat⟩, hrelaxes⟩ :=
    Exploration.exists_asked hn hstart hK hz hzproper
  obtain ⟨script', hscript', hanswer⟩ := script_of_unsat hunsat
  obtain ⟨f, hf⟩ := Script.encoded_of_unsat hanswer
  obtain ⟨env, henv⟩ := exists_satisfied (hrecast.relaxes hrelaxes) (symbolic_ofState hu)
    (ordinary_ofState hn hc hwell hu' o) hm hw.meets hground hends hscript' hf
  exact decide_trusted hcomplete script' hanswer env henv

/-- If a check that tracks other registers finds an outcome forbidden, with a complete procedure for
clauses, then all executions that a check reports have reads whose values come from writes that
need these values themselves. -/
theorem ungrounded_of_forbidden (solve solve' : SatSolver) (hcomplete : solve'.Complete)
    (automata : List Automaton) (initial : List (String × Int))
    (m : MemoryModel) (o : Outcome) (p q : Precision) (config config' : CheckConfig)
    (hwell : ∀ a ∈ automata, a.WellFormed) (hbound : p.stepBound = q.stepBound)
    (hk : config.backend = .builtin) (hk' : config'.backend = .builtin) (r r' : CheckResult)
    (h : Runs solve (.ofAutomata automata initial) m o p config (.ok r))
    (h' : Runs solve' (.ofAutomata automata initial) m o q config' (.ok r'))
    (hr : r'.verdict = .forbidden) :
    ∀ s ∈ r.solutions, ¬ s.execution.choice.Grounded s.execution.graph := by
  obtain ⟨hm, -, hreturns⟩ := h.returns hk rfl
  obtain ⟨-, -, hreturns'⟩ := h'.returns hk' rfl
  refine ungrounded_of_returns hcomplete (Composition.ofAutomata_numbered automata initial)
    (Composition.ofAutomata_initialized automata initial) (fun t ht => ?_) hbound hm hreturns
    hreturns' hr
  obtain ⟨⟨a, i⟩, ha, rfl⟩ := List.mem_map.1 ht
  exact hwell a (List.fst_mem_of_mem_zipIdx ha)

def relayed (n r : Term) : Term := .ite (.eq n (.int 0)) r (.int 1)

/-- The quotient differs from all others, as there are none, but is undefined if the number is 0. -/
def guarded (n : Term) : Term :=
  .ite (.and [.not (.eq n (.int 0)), .distinct [.arith .div (.int 1) n]]) (.int 1) (.int 2)

/-- The thread reads a variable, picks a number and stores a value that depends on both. It goes
on if the number is not 1 and the value it read is `k`. -/
def echoing (value : Term) (k : Int) : List Automaton :=
  [.straightLine "P" [.load "r" "x", .nondet "n" [0, 1], .store "x" value,
    .assume (.and [.not (.eq (.const "n") (.int 1)), .eq (.const "r") (.int k)])]]

def relaying : List Automaton := echoing (relayed (.const "n") (.const "r")) 1

def guarding : List Automaton := echoing (guarded (.const "n")) 2

def tracking : Precision := { Precision.default with tracked := ⟨["n"]⟩ }

def drawn : Term := .const "nd_t0_1"

def seen : Term := .const "rv_t0_0"

structure Echo where
  number : Term
  value : Term
  constraints : List Term
  symbols : List String
  values : List Int

namespace Echo

def graph (e : Echo) : EventGraph where
  events := #[⟨0, .init, "x", .write, 0, some (.int 0)⟩, ⟨1, .thread 0, "x", .read, 0, none⟩,
    ⟨2, .thread 0, "x", .write, 1, some e.value⟩]
  threadNames := ["P"]
  registers := [⟨[("n", e.number), ("r", seen)]⟩]
  constraints := e.constraints

def script (e : Echo) : Script :=
  ⟨[.comment ("model free: " ++ e.graph.render), .declareConst "rf_1_0" .bool,
    .declareConst "rf_1_2" .bool] ++ e.symbols.map (.declareConst · .int) ++
    [.comment "value domains", .assert (Term.oneOf "rv_t0_0" e.values), .comment "rf functional",
    .assert (.or [.const "rf_1_0", .const "rf_1_2"]),
    .assert (.not (.and [.const "rf_1_0", .const "rf_1_2"])), .comment "co total order",
    .comment "data flow", .assert (.implies (.const "rf_1_0") (.eq seen (.int 0))),
    .assert (.implies (.const "rf_1_2") (.eq seen e.value)),
    .comment "path constraints"] ++ e.constraints.map .assert⟩

theorem script_plain (e : Echo) : ∀ d ∈ e.script.commands, d.Plain := by
  simp only [script, List.forall_mem_append, List.forall_mem_cons, List.forall_mem_map]
  simp [Command.Plain]

theorem mem_assertions {e : Echo} {t : Term}
    (h : t ∈ Term.oneOf "rv_t0_0" e.values :: e.constraints) : t ∈ e.script.assertions := by
  refine List.mem_filterMap.2 ⟨.assert t, ?_, rfl⟩
  rcases List.mem_cons.1 h with rfl | h
  · simp [script]
  · simp [script, h]

theorem exists_int {e : Echo} {a : Environment} (ha : e.script.Sorts a) {x : String}
    (hx : x ∈ e.script.assertions.flatMap Term.consts) (hsort : e.script.sort? x = some .int) :
    ∃ n, a x = some (.int n) := Term.computed_const (ha x .int hx hsort)

/-- The thread requires a value that is not among those it can read. -/
theorem unsat {e : Echo} {k : Int} (hfragment : e.script.InFragment False)
    (hlegible : e.script.Legible) (hk : k ∉ e.values)
    (hread : ∀ a, e.script.Sorts a → ∃ n, a "rv_t0_0" = some (.int n) ∧
      (n ≠ k → ∃ t ∈ e.constraints, t.Decides a false)) :
    e.script.decide .engine = .ok .unsat := by
  obtain ⟨f, hf⟩ := hfragment.encoded.resolve_right fun h => h.1
  refine Script.decide_unsat SatSolver.engine_sound SatSolver.engine_returns hf hlegible
    fun a ha => ?_
  obtain ⟨n, hn, hrequired⟩ := hread a ha
  by_cases hnk : n = k
  · have htells : (Term.oneOf "rv_t0_0" e.values).Tells a (n ∈ e.values) := Term.tells_oneOf hn
    obtain ⟨b, hb, hmem⟩ := htells
    have hfalse : b = false := by simpa [hnk, hk] using hmem
    exact ⟨_, mem_assertions List.mem_cons_self, hfalse ▸ hb⟩
  · obtain ⟨t, ht, hfalse⟩ := hrequired hnk
    exact ⟨t, mem_assertions (List.mem_cons_of_mem _ ht), hfalse⟩

def required (k : Int) : List Term :=
  [.and [.not (.eq drawn (.int 1)), .eq seen (.int k)], Term.oneOf "nd_t0_1" [0, 1]]

def relays : Echo := ⟨drawn, relayed drawn seen, required 1, ["nd_t0_1", "rv_t0_0"], [0, 1]⟩

def relaysTracked : Echo := ⟨.int 0, seen, [.eq seen (.int 1)], ["rv_t0_0"], [0]⟩

def guards : Echo := ⟨drawn, guarded drawn, required 2, ["nd_t0_1", "rv_t0_0"], [0, 1]⟩

def guardsTracked : Echo := ⟨.int 0, .int 2, [.eq seen (.int 2)], ["rv_t0_0"], [0, 2]⟩

def assigning (values : List (String × Value)) : Environment := fun x => values.lookup x

/-- The read takes its value from the thread's own write, which stores what was read. -/
theorem relays_sat : ∃ w, relays.script.decide .engine = .ok (.sat (some w)) := by
  have hfragment : relays.script.InFragment False := by
    refine ⟨script_plain _, by decide, ?_⟩
    cbv
    simp
  have hwell : Term.WellFormedAll (fun _ => True) relays.script.assertions := by cbv
  have hsorts : relays.script.Sorts (assigning [("rf_1_0", .bool false), ("rf_1_2", .bool true),
      ("nd_t0_1", .int 0), ("rv_t0_0", .int 1)]) := Script.sorts_of_lookup (by decide)
  refine hfragment.exists_sat SatSolver.engine_sound SatSolver.engine_complete
    SatSolver.engine_returns hwell (by decide) hsorts ?_
  unfold Term.Decides
  decide

theorem relaysTracked_unsat : relaysTracked.script.decide .engine = .ok .unsat := by
  have hfragment : relaysTracked.script.InFragment False := by
    refine ⟨script_plain _, by decide, ?_⟩
    cbv
    simp
  refine unsat (k := 1) hfragment (by decide) (by decide) fun a ha => ?_
  obtain ⟨n, hn⟩ := exists_int ha (x := "rv_t0_0") (by decide) rfl
  refine ⟨n, hn, fun hne => ⟨_, List.mem_cons_self, ?_⟩⟩
  simp [Term.Decides, Term.eval, seen, hn, hne, Value.equal]

/-- The values were found without the case that the number is 0. -/
theorem guards_unsat : guards.script.decide .engine = .ok .unsat := by
  have hfragment : guards.script.InFragment False := by
    refine ⟨script_plain _, by decide, ?_⟩
    cbv
    simp
  refine unsat (k := 2) hfragment (by decide) (by decide) fun a ha => ?_
  obtain ⟨n, hn⟩ := exists_int ha (x := "rv_t0_0") (by decide) rfl
  obtain ⟨d, hd⟩ := exists_int ha (x := "nd_t0_1") (by decide) rfl
  refine ⟨n, hn, fun hne => ⟨_, List.mem_cons_self, ?_⟩⟩
  simp [Term.Decides, Term.eval, Term.evalAll, seen, drawn, hn, hd, hne, Value.equal, Value.bool?]

theorem guardsTracked_sat : ∃ w, guardsTracked.script.decide .engine = .ok (.sat (some w)) := by
  have hfragment : guardsTracked.script.InFragment False := by
    refine ⟨script_plain _, by decide, ?_⟩
    cbv
    simp
  have hwell : Term.WellFormedAll (fun _ => True) guardsTracked.script.assertions := by cbv
  have hsorts : guardsTracked.script.Sorts (assigning [("rf_1_0", .bool false),
      ("rf_1_2", .bool true), ("rv_t0_0", .int 2)]) := Script.sorts_of_lookup (by decide)
  refine hfragment.exists_sat SatSolver.engine_sound SatSolver.engine_complete
    SatSolver.engine_returns hwell (by decide) hsorts ?_
  unfold Term.Decides
  decide

structure Asked (e : Echo) (automata : List Automaton) (p : Precision) : Prop where
  found : ∃ stats, Exploration.run (.ofAutomata automata []) p false Exploration.collect 6
    (Exploration.start (.ofAutomata automata [])) [] = .ok (some ([⟨0, e.graph⟩], stats))
  encoded : encode e.graph free .any = .ok e.script

/-- All answers are recorded, and there is only one. -/
theorem Asked.runs {e : Echo} {automata : List Automaton} {p : Precision}
    (h : e.Asked automata p) : ∃ stats, Runs .engine (.ofAutomata automata []) free .any p thorough
      (.ok (whole (query (Script.decide .engine) free .any) [⟨0, e.graph⟩] stats)) := by
  obtain ⟨stats, hfound⟩ := h.found
  exact ⟨stats, .explored (by decide) rfl rfl
    (returns_whole thorough_exhaustive _ (by decide) hfound)⟩

theorem Asked.forbidden {e : Echo} {automata : List Automaton} {p : Precision}
    (h : e.Asked automata p) (hunsat : e.script.decide .engine = .ok .unsat) :
    ∃ r, Runs .engine (.ofAutomata automata []) free .any p thorough (.ok r) ∧
      r.verdict = .forbidden := by
  obtain ⟨stats, hruns⟩ := h.runs
  have hanswer : query (Script.decide .engine) free .any ⟨0, e.graph⟩ = .unsat := by
    simp only [query, h.encoded, hunsat]
  rw [whole, List.map_cons, List.map_nil, hanswer] at hruns
  exact ⟨_, hruns, rfl⟩

theorem Asked.allowed {e : Echo} {automata : List Automaton} {p : Precision}
    (h : e.Asked automata p) (hsat : ∃ w, e.script.decide .engine = .ok (.sat (some w))) :
    ∃ r, Runs .engine (.ofAutomata automata []) free .any p thorough (.ok r) ∧
      r.verdict = .allowed := by
  obtain ⟨w, hw⟩ := hsat
  obtain ⟨stats, hruns⟩ := h.runs
  have hanswer : query (Script.decide .engine) free .any ⟨0, e.graph⟩ =
      .sat ⟨0, .ofAssignment e.graph w, w⟩ := by
    simp only [query, h.encoded, hw, witness]
    exact if_pos rfl
  rw [whole, List.map_cons, List.map_nil, hanswer] at hruns
  exact ⟨_, hruns, rfl⟩

set_option maxRecDepth 20000 in
theorem relays_asked : relays.Asked relaying .default where
  found := ⟨⟨5, 1, 0, 0, 0, 0, 5⟩, by cbv⟩
  encoded := by
    have hsymbols : intSymbols relays.graph .any = ⟨relays.symbols⟩ :=
      OrderedSet.ofList_eq (by decide) (by decide) (by decide)
    apply encoded_ok
    simp only [encode, build, declare, hsymbols]
    cbv

set_option maxRecDepth 20000 in
theorem relaysTracked_asked : relaysTracked.Asked relaying tracking where
  found := ⟨⟨7, 1, 0, 0, 0, 1, 5⟩, by cbv⟩
  encoded := by
    have hsymbols : intSymbols relaysTracked.graph .any = ⟨relaysTracked.symbols⟩ :=
      OrderedSet.ofList_eq (by decide) (by decide) (by decide)
    apply encoded_ok
    simp only [encode, build, declare, hsymbols]
    cbv

set_option maxRecDepth 20000 in
theorem guards_asked : guards.Asked guarding .default where
  found := ⟨⟨5, 1, 0, 0, 0, 0, 5⟩, by cbv⟩
  encoded := by
    have hsymbols : intSymbols guards.graph .any = ⟨guards.symbols⟩ :=
      OrderedSet.ofList_eq (by decide) (by decide) (by decide)
    apply encoded_ok
    simp only [encode, build, declare, hsymbols]
    cbv

set_option maxRecDepth 20000 in
theorem guardsTracked_asked : guardsTracked.Asked guarding tracking where
  found := ⟨⟨7, 1, 0, 0, 0, 1, 5⟩, by cbv⟩
  encoded := by
    have hsymbols : intSymbols guardsTracked.graph .any = ⟨guardsTracked.symbols⟩ :=
      OrderedSet.ofList_eq (by decide) (by decide) (by decide)
    apply encoded_ok
    simp only [encode, build, declare, hsymbols]
    cbv

end Echo

/-- A value out of thin air is found only while the number is a symbol. A value that is missed as
an operation has none for some number is found only if the number is picked. -/
theorem verdicts_contradict :
    SatSolver.engine.Sound ∧ SatSolver.engine.Complete ∧ SatSolver.engine.Returns ∧
    (∃ r r', Runs .engine (.ofAutomata relaying []) free .any .default thorough (.ok r) ∧
      Runs .engine (.ofAutomata relaying []) free .any tracking thorough (.ok r') ∧
        r.verdict = .allowed ∧ r'.verdict = .forbidden) ∧
    ∃ r r', Runs .engine (.ofAutomata guarding []) free .any .default thorough (.ok r) ∧
      Runs .engine (.ofAutomata guarding []) free .any tracking thorough (.ok r') ∧
        r.verdict = .forbidden ∧ r'.verdict = .allowed := by
  obtain ⟨r₁, h₁, hr₁⟩ := Echo.relays_asked.allowed Echo.relays_sat
  obtain ⟨r₂, h₂, hr₂⟩ := Echo.relaysTracked_asked.forbidden Echo.relaysTracked_unsat
  obtain ⟨r₃, h₃, hr₃⟩ := Echo.guards_asked.forbidden Echo.guards_unsat
  obtain ⟨r₄, h₄, hr₄⟩ := Echo.guardsTracked_asked.allowed Echo.guardsTracked_sat
  exact ⟨SatSolver.engine_sound, SatSolver.engine_complete, SatSolver.engine_returns,
    ⟨r₁, r₂, h₁, h₂, hr₁, hr₂⟩, r₃, r₄, h₃, h₄, hr₃, hr₄⟩

theorem relaying_wellFormed : ∀ a ∈ relaying, a.WellFormed := by
  refine List.forall_mem_singleton.2
    (Automaton.labels_straightLine (P := Label.WellFormed) "P" ?_)
  simp only [List.forall_mem_cons]
  simp [Label.WellFormed, relayed, Term.WellFormed, Term.WellFormedAll, Bounded.InRange,
    Bounded.least, Bounded.greatest]

theorem ungrounded_of_forbidden_relaying : SatSolver.engine.Complete ∧ ∃ r r',
    Runs .engine (.ofAutomata relaying []) free .any .default thorough (.ok r) ∧
      Runs .engine (.ofAutomata relaying []) free .any tracking thorough (.ok r') ∧
        r.solutions ≠ [] ∧ r'.verdict = .forbidden ∧
          ∀ s ∈ r.solutions, ¬ s.execution.choice.Grounded s.execution.graph := by
  obtain ⟨r, h, hr⟩ := Echo.relays_asked.allowed Echo.relays_sat
  obtain ⟨r', h', hr'⟩ := Echo.relaysTracked_asked.forbidden Echo.relaysTracked_unsat
  exact ⟨SatSolver.engine_complete, r, r', h, h', CheckResult.verdict_eq_allowed.1 hr, hr',
    ungrounded_of_forbidden .engine .engine SatSolver.engine_complete relaying [] free .any .default
      tracking thorough thorough relaying_wellFormed rfl rfl rfl r r' h h' hr'⟩

end Consistency.Check
