import Mathlib
import Consistency.MemoryModel.Standard
import Consistency.Proofs.Composition.Symbols
import Consistency.Proofs.Query.Script

/-!
# Adequacy of queries

The script of a query is satisfied by the assignments that realize an execution
ending in the outcome, and each such execution extends in one way to the symbols
of definitions.
-/

set_option autoImplicit false

namespace Consistency
open Query

def Choice.ofEnvironment (g : EventGraph) (env : Environment) : Choice where
  rf w r := (r, w) ∈ g.rfCandidates ∧ (rfTerm r w).Decides env true
  co a b := (a, b) ∈ g.coCandidates ∧ (coTerm g a b).Decides env true

def Valuation.ofEnvironment (env : Environment) : Valuation := fun name =>
  ((env name).bind Value.int?).getD 0

noncomputable def Choice.environment (x : Choice) (v : Valuation) : Environment :=
  open Classical in fun name =>
    if stem name = ['r', 'f'] then
      some (.bool (decide (∃ r w, name = rfSymbol r w ∧ x.rf w r)))
    else if stem name = ['c', 'o'] then
      some (.bool (decide (∃ a b, name = coSymbol a b ∧ x.co a b)))
    else some (.int (v name))

namespace Query
variable {g : EventGraph} {m : MemoryModel} {o : Outcome} {x : Choice} {ρ : Meaning}
  {v : Valuation} {env env' : Environment} {a b r w : Nat}

theorem mem_coCandidates :
    (a, b) ∈ g.coCandidates ↔ a ∈ g.writes ∧ b ∈ g.writesSameVar a ∧ a ≠ b := by
  simp only [EventGraph.coCandidates, List.mem_flatMap, List.mem_map, List.mem_filter,
    bne_iff_ne, Prod.mk.injEq]
  constructor
  · rintro ⟨a', ha, b', ⟨hb, hne⟩, rfl, rfl⟩
    exact ⟨ha, hb, Ne.symm hne⟩
  · rintro ⟨ha, hb, hne⟩
    exact ⟨a, ha, b, ⟨hb, Ne.symm hne⟩, rfl, rfl⟩

/-- Choices are declared as Booleans, values as integers. -/
theorem mem_declarations {name : String} {sort : ValueSort} :
    (name, sort) ∈ declarations g o ↔
      (ChoiceSymbol g name ∧ sort = .bool) ∨ (name ∈ (intSymbols g o).toList ∧ sort = .int) := by
  simp only [declarations, List.mem_append, List.mem_map, List.mem_filter, Prod.exists,
    Prod.mk.injEq, mem_rfCandidates, mem_coCandidates, Bool.and_eq_true, Bool.not_eq_true']
  constructor
  · rintro (⟨r, w, ⟨hr, hw⟩, rfl, rfl⟩ | ⟨a, b, ⟨⟨ha, hb, hne⟩, hia, hib⟩, rfl, rfl⟩ |
      ⟨y, hy, rfl, rfl⟩)
    · exact .inl ⟨.rf hr hw, rfl⟩
    · exact .inl ⟨.co ha hb hne hia hib, rfl⟩
    · exact .inr ⟨hy, rfl⟩
  · rintro (⟨h, rfl⟩ | ⟨hy, rfl⟩)
    · cases h with
      | @rf r w hr hw => exact .inl ⟨r, w, ⟨hr, hw⟩, rfl, rfl⟩
      | @co a b ha hb hne hia hib => exact .inr (.inl ⟨a, b, ⟨⟨ha, hb, hne⟩, hia, hib⟩, rfl, rfl⟩)
    · exact .inr (.inr ⟨name, hy, rfl, rfl⟩)

/-- A constant of the sort of formulas tells whether it is true. -/
theorem tells_const {name : String} (h : ∃ u, env name = some u ∧ u.sort = .bool) :
    (Term.const name).Tells env ((Term.const name).Decides env true) := by
  obtain ⟨u, hu, hsort⟩ := h
  cases u with
  | bool b => exact ⟨b, hu, by simp [Term.Decides, Term.eval, hu]⟩
  | int n => exact absurd hsort (by simp [Value.sort])

theorem shows_of_choices
    (h : ∀ y, ChoiceSymbol g y → ∃ u, env y = some u ∧ u.sort = .bool) :
    Shows env g (.ofEnvironment g env) where
  rf := by
    intro r hr w hw
    refine (tells_const (h _ (.rf hr hw))).congr ?_
    exact ⟨fun ht => ⟨mem_rfCandidates.2 ⟨hr, hw⟩, ht⟩, fun ht => ht.2⟩
  co := by
    intro a ha b hb hne
    have hc : (a, b) ∈ g.coCandidates := mem_coCandidates.2 ⟨ha, hb, hne⟩
    have htells : (coTerm g a b).Tells env ((coTerm g a b).Decides env true) := by
      by_cases hia : isInit g a = true
      · rw [coTerm, if_pos hia]
        exact (Term.tells_bool env true).congr Term.decides_bool.symm
      · by_cases hib : isInit g b = true
        · rw [coTerm, if_neg hia, if_pos hib]
          exact (Term.tells_bool env false).congr Term.decides_bool.symm
        · rw [coTerm, if_neg hia, if_neg hib]
          exact tells_const
            (h _ (.co ha hb hne (Bool.eq_false_iff.2 hia) (Bool.eq_false_iff.2 hib)))
    exact htells.congr ⟨fun ht => ⟨hc, ht⟩, fun ht => ht.2⟩
  source := fun w r h => mem_rfCandidates.1 h.1
  writes := fun a b h => mem_coCandidates.1 h.1

theorem shows_ofEnvironment
    (h : ∀ name sort, (name, sort) ∈ declarations g o → ∃ u, env name = some u ∧ u.sort = sort) :
    Shows env g (.ofEnvironment g env) :=
  shows_of_choices fun y hy => h y .bool (mem_declarations.2 (.inl ⟨hy, rfl⟩))

theorem fits_ofEnvironment
    (h : ∀ name sort, (name, sort) ∈ declarations g o → ∃ u, env name = some u ∧ u.sort = sort) :
    Fits env g o (.ofEnvironment g env) (.ofEnvironment env) where
  shows := shows_ofEnvironment h
  values := by
    intro name hn
    obtain ⟨u, hu, hsort⟩ := h name .int (mem_declarations.2 (.inr ⟨hn, rfl⟩))
    cases u with
    | int n => simp [Valuation.ofEnvironment, hu, Value.int?]
    | bool b => exact absurd hsort (by simp [Value.sort])

open Classical in
theorem environment_rf (x : Choice) (v : Valuation) (r w : Nat) :
    ∃ b, x.environment v (rfSymbol r w) = some (.bool b) ∧ (b = true ↔ x.rf w r) := by
  refine ⟨_, by rw [Choice.environment, if_pos (stem_rfSymbol r w)], ?_⟩
  rw [decide_eq_true_iff]
  constructor
  · rintro ⟨r', w', he, h⟩
    obtain ⟨rfl, rfl⟩ := rfSymbol_injective he
    exact h
  · exact fun h => ⟨r, w, rfl, h⟩

open Classical in
theorem environment_co (x : Choice) (v : Valuation) (a b : Nat) :
    ∃ d, x.environment v (coSymbol a b) = some (.bool d) ∧ (d = true ↔ x.co a b) := by
  refine ⟨_, by rw [Choice.environment, if_neg (by rw [stem_coSymbol]; decide),
    if_pos (stem_coSymbol a b)], ?_⟩
  rw [decide_eq_true_iff]
  constructor
  · rintro ⟨a', b', he, h⟩
    obtain ⟨rfl, rfl⟩ := coSymbol_injective he
    exact h
  · exact fun h => ⟨a, b, rfl, h⟩

theorem environment_choice (x : Choice) (v : Valuation) {name : String} (h : ChoiceSymbol g name) :
    ∃ b, x.environment v name = some (.bool b) := by
  cases h with
  | @rf r w => exact (environment_rf x v r w).imp fun _ h => h.1
  | @co a b => exact (environment_co x v a b).imp fun _ h => h.1

theorem environment_value (x : Choice) (v : Valuation) {name : String} (h : ValueSymbol name) :
    x.environment v name = some (.int (v name)) := by
  rcases h with h | h
  · rw [Choice.environment, h, if_neg (by decide), if_neg (by decide)]
  · rw [Choice.environment, h, if_neg (by decide), if_neg (by decide)]

theorem shows_of_proper (hx : x.Proper g)
    (hrf : ∀ r w, ∃ b, env (rfSymbol r w) = some (.bool b) ∧ (b = true ↔ x.rf w r))
    (hco : ∀ a b, ∃ d, env (coSymbol a b) = some (.bool d) ∧ (d = true ↔ x.co a b)) :
    Shows env g x where
  rf := fun r _ w _ => hrf r w
  co := by
    intro a ha b hb hne
    unfold coTerm
    split
    · next hi => exact (Term.tells_bool env true).congr (by simp [hx.initial a ha hi b hb hne])
    · split
      · next hi =>
        have hno : ¬ x.co a b := fun h => by
          rw [Choice.not_init_of_co hx h] at hi
          exact absurd hi (by decide)
        exact (Term.tells_bool env false).congr (by simp [hno])
      · exact hco a b
  source := hx.source
  writes := by
    intro a b h
    obtain ⟨ha, hb⟩ := hx.writes a b h
    refine ⟨ha, hb, ?_⟩
    rintro rfl
    exact hx.irrefl a h

theorem typed_of_fits (hf : Fits env g o x v) : ∀ name sort,
    (name, sort) ∈ declarations g o → ∃ u, env name = some u ∧ u.sort = sort := by
  intro name sort hd
  rcases mem_declarations.1 hd with ⟨hchoice, rfl⟩ | ⟨hint, rfl⟩
  · cases hchoice with
    | @rf r w hr hw =>
      obtain ⟨b, hb, -⟩ := hf.shows.rf r hr w hw
      exact ⟨.bool b, hb, rfl⟩
    | @co a b ha hb hne hia hib =>
      obtain ⟨d, hd, -⟩ := hf.shows.co a ha b hb hne
      rw [coTerm, hia, hib] at hd
      exact ⟨.bool d, hd, rfl⟩
  · exact ⟨.int (v name), hf.values name hint, rfl⟩

theorem fits_of_keeps (hv : ∀ name ∈ (intSymbols g o).toList, ValueSymbol name) (hx : x.Proper g)
    (hkeep : ∀ name, stem name ≠ ['d', 'e'] → env name = x.environment v name) :
    Fits env g o x v where
  shows := by
    refine shows_of_proper hx (fun r w => ?_) fun a b => ?_
    · rw [hkeep _ (by rw [stem_rfSymbol]; decide)]
      exact environment_rf x v r w
    · rw [hkeep _ (by rw [stem_coSymbol]; decide)]
      exact environment_co x v a b
  values := by
    intro name hn
    have hne : stem name ≠ ['d', 'e'] := by
      rcases hv name hn with h | h
      · rw [h]; decide
      · rw [h]; decide
    rw [hkeep name hne, environment_value x v (hv name hn)]

/-- Whatever the choice and the values, the definitions can be made true. -/
theorem exists_defined {q : QueryState} {ds ts : List Term} (hw : Written g o q ds ts)
    (hv : ∀ name ∈ (intSymbols g o).toList, ValueSymbol name) (hx : x.Proper g) (v : Valuation) :
    ∃ env, Fits env g o x v ∧ (∀ t ∈ definitionsFrom 0 ds, t.Decides env true) ∧
      ∀ name sort, (name, sort) ∈ q.declared → ∃ u, env name = some u ∧ u.sort = sort := by
  have hbool : ∀ name, Upto (ChoiceSymbol g) 0 name →
      ∃ b, x.environment v name = some (.bool b) := by
    rintro name (h | ⟨k, hk, -⟩)
    · exact environment_choice x v h
    · exact absurd hk (Nat.not_lt_zero k)
  obtain ⟨env, hsame, hdefs, htrue⟩ := exists_definitions (not_choiceSymbol g) hw.ordered hbool
  rw [Nat.zero_add] at hdefs
  have hfits : Fits env g o x v := by
    refine fits_of_keeps hv hx fun name h => hsame name fun k _ _ hk => h ?_
    rw [hk, stem_definitionSymbol]
  refine ⟨env, hfits, htrue, fun name sort hd => ?_⟩
  rcases (hw.declared _).1 hd with hd | ⟨k, hk, he⟩
  · exact typed_of_fits hfits name sort hd
  · obtain ⟨rfl, rfl⟩ := Prod.mk.inj he
    obtain ⟨b, hb⟩ := hdefs _ (.inr ⟨k, hk, rfl⟩)
    exact ⟨.bool b, hb, rfl⟩

/-- An execution that is asked for gives the symbols values that satisfy the script. -/
theorem exists_satisfying {q : QueryState} {ds ts : List Term} (hw : Written g o q ds ts)
    (hv : ∀ name ∈ (intSymbols g o).toList, ValueSymbol name) (hx : x.Proper g)
    (hts : ∀ env, Fits env g o x v →
      (∀ t ∈ definitionsFrom 0 ds, t.Decides env true) → ∀ t ∈ ts, t.Decides env true) :
    ∃ env, Script.Satisfied ⟨q.commands.reverse⟩ env ∧ Fits env g o x v := by
  obtain ⟨env, hfits, hdefs, htyped⟩ := exists_defined hw hv hx v
  refine ⟨env, satisfied_iff.2 ⟨htyped, fun t ht => ?_⟩, hfits⟩
  rcases (hw.asserted t).1 ht with ht | ht
  · exact hdefs t ht
  · exact hts env hfits hdefs t ht

/-- A choice is found again in the symbols that show it. -/
theorem ofEnvironment_of_shows (hf : Shows env g x) : Choice.ofEnvironment g env = x := by
  obtain ⟨rf, co⟩ := x
  rw [Choice.ofEnvironment, Choice.mk.injEq]
  constructor
  · funext w r
    refine propext ⟨fun h => ?_, fun h => ?_⟩
    · obtain ⟨hr, hw⟩ := mem_rfCandidates.1 h.1
      exact (hf.rf r hr w hw).decides_true.1 h.2
    · obtain ⟨hr, hw⟩ := hf.source w r h
      exact ⟨mem_rfCandidates.2 ⟨hr, hw⟩, (hf.rf r hr w hw).decides_true.2 h⟩
  · funext a b
    refine propext ⟨fun h => ?_, fun h => ?_⟩
    · obtain ⟨ha, hb, hne⟩ := mem_coCandidates.1 h.1
      exact (hf.co a ha b hb hne).decides_true.1 h.2
    · obtain ⟨ha, hb, hne⟩ := hf.writes a b h
      exact ⟨mem_coCandidates.2 ⟨ha, hb, hne⟩, (hf.co a ha b hb hne).decides_true.2 h⟩

theorem eq_of_decides {name : String} {p : Prop} (h : (Term.const name).Tells env p)
    (h' : (Term.const name).Tells env' p) : env name = env' name := by
  obtain ⟨b, hb, hp⟩ := h
  obtain ⟨b', hb', hp'⟩ := h'
  obtain rfl : b = b' := Bool.eq_iff_iff.2 (hp.trans hp'.symm)
  exact (show env name = some (.bool b) from hb).trans hb'.symm

/-- Assignments that satisfy the script differ in more than definitions. -/
theorem satisfying_unique {q : QueryState} {ds ts : List Term} (hw : Written g o q ds ts)
    (hs : Script.Satisfied ⟨q.commands.reverse⟩ env)
    (hs' : Script.Satisfied ⟨q.commands.reverse⟩ env')
    (hc : Choice.ofEnvironment g env = Choice.ofEnvironment g env')
    (hi : ∀ name ∈ (intSymbols g o).toList, env name = env' name) :
    ∀ d ∈ Script.declared ⟨q.commands.reverse⟩, env d.1 = env' d.1 := by
  rw [satisfied_iff] at hs hs'
  have hdecl : ∀ {d}, d ∈ declarations g o → d ∈ q.declared := fun h => (hw.declared _).2 (.inl h)
  have hshows := shows_ofEnvironment fun name sort h => hs.1 name sort (hdecl h)
  have hshows' := shows_ofEnvironment fun name sort h => hs'.1 name sort (hdecl h)
  rw [← hc] at hshows'
  have hbase : ∀ name, Upto (ChoiceSymbol g) 0 name → env name = env' name := by
    rintro name (h | ⟨k, hk, -⟩)
    · cases h with
      | @rf r w hr hw => exact eq_of_decides (hshows.rf r hr w hw) (hshows'.rf r hr w hw)
      | @co a b ha hb hne hia hib =>
        have h := hshows.co a ha b hb hne
        have h' := hshows'.co a ha b hb hne
        rw [coTerm, hia, hib] at h h'
        exact eq_of_decides h h'
    · exact absurd hk (Nat.not_lt_zero k)
  have hdefs := definitions_unique hw.ordered hbase
    (fun t ht => hs.2 t ((hw.asserted t).2 (.inl ht)))
    fun t ht => hs'.2 t ((hw.asserted t).2 (.inl ht))
  rw [Nat.zero_add] at hdefs
  intro d hd
  have hd : d ∈ q.declared := by simpa [Script.declared, QueryState.declared] using hd
  rcases (hw.declared d).1 hd with hd | ⟨k, hk, rfl⟩
  · rcases mem_declarations.1 hd with ⟨hchoice, -⟩ | ⟨hint, -⟩
    · exact hdefs _ (.inl hchoice)
    · exact hi _ hint
  · exact hdefs _ (.inr ⟨k, hk, rfl⟩)

section Reachable
variable {c : Composition} {p : Precision} {s : GlobalState}

theorem symbolic_ofState (h : c.Reachable p s) : (EventGraph.ofState c s).Symbolic :=
  fun _ e he hr =>
    ((Composition.overValues_of_reachable h).events e (EventGraph.mem_emitted he)).read hr

theorem valueSymbol_of_reachable (h : c.Reachable p s) (o : Outcome) :
    ∀ name ∈ (intSymbols (.ofState c s) o).toList, ValueSymbol name := by
  have hover := Composition.overValues_of_reachable h
  intro name hn
  obtain ⟨t, ht, hname⟩ := spoken_of_mem (symbolic_ofState h) hn
  cases ht with
  | event he =>
    have hemitted := (EventGraph.events_perm c s).mem_iff.1 (Array.mem_toList_iff.2 he)
    have hvalues : Term.OverValues _ := Event.valueTerm_cases (hover.events _ hemitted).stored
      (fun _ => Term.over_const (valueSymbol_read _ _)) (Term.over_int 0)
    exact hvalues name hname
  | constraint ht =>
    obtain ⟨l, hl, ht⟩ := GlobalState.mem_constraints.1 ht
    exact (hover.locals l hl).constraints t ht name hname
  | @register i reg n _ ha ht =>
    obtain ⟨l, hl, rfl⟩ := EventGraph.exists_local ht
    exact (hover.locals l hl).registers reg name hname

end Reachable

/-- The assignments that satisfy the script are the executions asked for: each is one, each of
these comes from one, and what definitions stand for is left no choice. -/
structure Adequate (g : EventGraph) (m : MemoryModel) (o : Outcome) (script : Script) : Prop where
  sound : ∀ env, script.Satisfied env → Evaluates g (.ofEnvironment env) →
    (Choice.ofEnvironment g env).Realizes g m o (.ofEnvironment env)
  complete : ∀ (x : Choice) (v : Valuation), Evaluates g v → x.Realizes g m o v →
    ∃ env, script.Satisfied env ∧ Choice.ofEnvironment g env = x ∧
      ∀ name ∈ (intSymbols g o).toList, env name = some (.int (v name))
  unique : ∀ env env', script.Satisfied env → script.Satisfied env' →
    Choice.ofEnvironment g env = Choice.ofEnvironment g env' →
    (∀ name ∈ (intSymbols g o).toList, env name = env' name) →
      ∀ d ∈ script.declared, env d.1 = env' d.1

/-- The query goes through. What it writes does not depend on the choice and the values, of which
its assertions say whether they are as they should be. -/
theorem encode_written (hg : g.Regular) (hs : g.Symbolic) (hv : m.validate = .ok ()) (o : Outcome) :
    ∃ q : QueryState, encode g m o = .ok ⟨q.commands.reverse⟩ ∧ ∀ (x : Choice) (v : Valuation),
      ∃ ds ts, Written g o q ds ts ∧ ∀ env, Fits env g o x v →
        (∀ t ∈ definitionsFrom 0 ds, t.Decides env true) → ((∀ t ∈ ts, t.Decides env true) ↔
          x.Meets g m v ∧ ∀ a ∈ o.atoms, (atomTerm g a).Decides env true) := by
  have hbuild := fun (x : Choice) (v : Valuation) =>
    (MemoryModel.exists_meaning hv g x).elim fun ρ hρ => build_runs hg hs hv hρ o v
  obtain ⟨q, -, -, hrun, -⟩ := hbuild ⟨fun _ _ => False, fun _ _ => False⟩ fun _ => 0
  refine ⟨q, encode_of_runs hrun, fun x v => ?_⟩
  obtain ⟨q', ds, ts, hrun', hw, hmeans⟩ := hbuild x v
  obtain ⟨-, rfl⟩ := hrun.unique hrun'
  exact ⟨ds, ts, hw, hmeans⟩

theorem adequate_of_regular (hg : g.Regular) (hs : g.Symbolic) (hv : m.validate = .ok ())
    (hsym : ∀ name ∈ (intSymbols g o).toList, ValueSymbol name) :
    ∃ script, encode g m o = .ok script ∧ Adequate g m o script := by
  obtain ⟨q, hencode, hwritten⟩ := encode_written hg hs hv o
  have hrealizes : ∀ {env x v}, Fits env g o x v → Evaluates g v →
      ((x.Meets g m v ∧ ∀ a ∈ o.atoms, (atomTerm g a).Decides env true) ↔ x.Realizes g m o v) := by
    intro env x v hf he
    rw [Choice.realizes_iff]
    exact and_congr_right fun _ => forall₂_congr fun a ha => decides_atomTerm hf he ha
  refine ⟨_, hencode, fun env hsat he => ?_, fun x v he hx => ?_, fun env env' hsat hsat' => ?_⟩
  · obtain ⟨ds, ts, hw, hmeans⟩ := hwritten (.ofEnvironment g env) (.ofEnvironment env)
    rw [satisfied_iff] at hsat
    have hfits : Fits env g o (.ofEnvironment g env) (.ofEnvironment env) :=
      fits_ofEnvironment fun name sort h => hsat.1 name sort ((hw.declared _).2 (.inl h))
    refine (hrealizes hfits he).1 ((hmeans env hfits fun t ht => ?_).1 fun t ht => ?_)
    · exact hsat.2 t ((hw.asserted t).2 (.inl ht))
    · exact hsat.2 t ((hw.asserted t).2 (.inr ht))
  · obtain ⟨ds, ts, hw, hmeans⟩ := hwritten x v
    obtain ⟨env, hsat, hfits⟩ := exists_satisfying hw hsym hx.proper
      fun env hf hd => (hmeans env hf hd).2 ((hrealizes hf he).2 hx)
    exact ⟨env, hsat, ofEnvironment_of_shows hfits.shows, hfits.values⟩
  · obtain ⟨ds, ts, hw, -⟩ := hwritten ⟨fun _ _ => False, fun _ _ => False⟩ fun _ => 0
    exact satisfying_unique hw hsat hsat'

/-- Queries about reachable states, terminal or not, are adequate. -/
theorem encode_adequate (automata : List Automaton) (initial : List (String × Int))
    (p : Precision) (s : GlobalState)
    (h : (Composition.ofAutomata automata initial).Reachable p s) (m : MemoryModel)
    (hm : m.validate = .ok ()) (o : Outcome) :
    ∃ script, encode (.ofState (.ofAutomata automata initial) s) m o = .ok script ∧
      Adequate (.ofState (.ofAutomata automata initial) s) m o script :=
  adequate_of_regular
    (EventGraph.regular_ofState (Composition.ofAutomata_initialized automata initial) h)
    (symbolic_ofState h) hm (valueSymbol_of_reachable h o)

def storing : Composition := .ofAutomata [.straightLine "P" [.store "x" (.int 1)]] []

def stored : GlobalState := (storing.trans .default (storing.init 0).1 ⟨0, 0⟩ 1).1.headD default

theorem encode_adequate_stored : storing.Reachable .default stored ∧
    MemoryModel.sc.validate = .ok () ∧
      ∃ script, encode (.ofState storing stored) .sc ⟨[.memory "x" 1]⟩ = .ok script ∧
        Adequate (.ofState storing stored) .sc ⟨[.memory "x" 1]⟩ script := by
  have hstep : (storing.trans .default (storing.init 0).1 ⟨0, 0⟩ 1).1 = [stored] := by cbv
  have hs : storing.Reachable .default stored :=
    .step ⟨0, 0⟩ 1 (.init 0) (hstep ▸ List.mem_singleton_self stored)
  have hm : MemoryModel.sc.validate = .ok () :=
    MemoryModel.valid_of_defined (by decide) (by decide) (by decide) (by cbv)
  exact ⟨hs, hm, encode_adequate [.straightLine "P" [.store "x" (.int 1)]] [] .default stored hs
    .sc hm ⟨[.memory "x" 1]⟩⟩

end Query
end Consistency
