import Consistency.Proofs.Query.Grounded

/-!
# Relations in any state of a query

A matrix that is kept under a name was made in an earlier state, for whatever
came before. In each state that is met, the matrix made for an expression of a
valid model is the relation of the expression over the graph, under every
assignment that agrees with the definitions made so far.
-/

set_option autoImplicit false

namespace Consistency.Query
open EventGraph (ofState)
variable {g : EventGraph} {m : MemoryModel} {e : RelExpr} {x : Choice} {ρ : Meaning}
  {q q₁ : QueryState} {M : Matrix} {env : Environment}

inductive Compiling (g : EventGraph) (m : MemoryModel) : QueryState → Prop where
  | fresh {q : QueryState} : q.named = [] → Compiling g m q
  | command {q : QueryState} (c : Command) :
      Compiling g m q → Compiling g m { q with commands := c :: q.commands }
  | relation {q q₁ : QueryState} {e : RelExpr} {M : Matrix} :
      Compiling g m q → (∀ y ∈ e.names, m.defines y = true) →
      Runs (relation g (namedRelation g m (m.relations.length + 1)) e) q M q₁ → Compiling g m q₁
  | requirement {q q₁ : QueryState} {d : Axiom} :
      Compiling g m q → d ∈ m.axioms → Runs (assertAxiom g m d) q ⟨⟩ q₁ → Compiling g m q₁

theorem Known.command (h : Known g x ρ q) (c : Command) :
    Known g x ρ { q with commands := c :: q.commands } := by
  intro name M hM
  obtain ⟨⟨hsquare, hformula⟩, hrepresents⟩ := h name M hM
  refine ⟨⟨hsquare, hformula⟩, fun env hx hs => hrepresents env hx fun k d hd => hs k d ?_⟩
  rw [QueryState.asserted, List.filterMap_cons]
  split
  · exact hd
  · exact List.mem_cons_of_mem _ hd

/-- The matrices kept do not depend on the choice: they stand for their names whichever it is. -/
theorem known_of_compiling (hv : m.validate = .ok ()) (hρ : m.Interprets g x ρ)
    (h : Compiling g m q) : Known g x ρ q := by
  induction h with
  | fresh hnone =>
    intro name M hM
    rw [hnone] at hM
    exact absurd hM (by simp)
  | command c _ ih => exact ih.command c
  | relation _ he hrun ih =>
    obtain ⟨_, _, hrun', -, hknown, -⟩ := relation_yields_of_valid hv hρ he ih
    obtain ⟨-, rfl⟩ := hrun.unique hrun'
    exact hknown
  | requirement _ hd hrun ih =>
    obtain ⟨_, _, _, hrun', hknown, -⟩ :=
      requires_axiom (o := ⟨[]⟩) (v := fun _ => 0) hv hρ hd _ ih
    obtain ⟨-, rfl⟩ := hrun.unique hrun'
    exact hknown

/-- Definitions made from the start can be true, whatever is chosen. -/
theorem exists_settles (hext : Extends (ChoiceSymbol g) ⟨[], [], 0⟩ q)
    (hchoice : ∀ y, ChoiceSymbol g y → ∃ b, env y = some (.bool b)) :
    ∃ env' : Environment, (∀ y, ChoiceSymbol g y → env' y = env y) ∧ Settles env' q := by
  obtain ⟨ds, hgrows⟩ := hext
  have hbool : ∀ y, Upto (ChoiceSymbol g) 0 y → ∃ b, env y = some (.bool b) := by
    rintro y (hy | ⟨k, hk, -⟩)
    · exact hchoice y hy
    · exact absurd hk (Nat.not_lt_zero k)
  obtain ⟨env', hsame, -, htrue⟩ :=
    exists_definitions (not_choiceSymbol g) hgrows.formulas hbool
  refine ⟨env', fun y hy => hsame y ?_, fun k d hd => htrue _ ?_⟩
  · rintro k - - rfl
    exact not_choiceSymbol g k hy
  · simpa [QueryState.asserted] using (hgrows.asserted _).1 hd

theorem ofEnvironment_rf (g : EventGraph) (env : Environment) (w r : Nat) :
    (Choice.ofEnvironment g env).rf w r ↔
      r ∈ g.reads ∧ w ∈ g.writesSameVar r ∧ env (rfSymbol r w) = some (.bool true) := by
  rw [← and_assoc, ← mem_rfCandidates]
  exact Iff.rfl

theorem ofEnvironment_co (g : EventGraph) (env : Environment) (a b : Nat) :
    (Choice.ofEnvironment g env).co a b ↔ a ∈ g.writes ∧ b ∈ g.writesSameVar a ∧ a ≠ b ∧
      (isInit g a = true ∨ isInit g b = false ∧ env (coSymbol a b) = some (.bool true)) := by
  have hterm : (coTerm g a b).Decides env true ↔
      isInit g a = true ∨ isInit g b = false ∧ env (coSymbol a b) = some (.bool true) := by
    unfold coTerm
    split
    · next hia => simp [Term.decides_bool, hia]
    · split
      · next hia hib => simp [Term.decides_bool, hia, hib]
      · next hia hib => simp [Term.Decides, Term.eval, hia, hib]
  rw [← hterm, ← and_assoc, ← and_assoc, and_assoc (a := a ∈ g.writes), ← mem_coCandidates]
  exact Iff.rfl

/-- The choice is read off its symbols, initial writes being first. Over this choice the names of
the model have a meaning, and each entry of the matrix tells whether its nodes are related by the
expression. -/
structure Means (g : EventGraph) (m : MemoryModel) (e : RelExpr) (M : Matrix)
    (env : Environment) : Prop where
  rf : ∀ w r, (Choice.ofEnvironment g env).rf w r ↔
    r ∈ g.reads ∧ w ∈ g.writesSameVar r ∧ env (rfSymbol r w) = some (.bool true)
  co : ∀ a b, (Choice.ofEnvironment g env).co a b ↔ a ∈ g.writes ∧ b ∈ g.writesSameVar a ∧ a ≠ b ∧
    (isInit g a = true ∨ isInit g b = false ∧ env (coSymbol a b) = some (.bool true))
  interpreted : ∃ ρ, m.Interprets g (.ofEnvironment g env) ρ
  tells : ∀ ρ, m.Interprets g (.ofEnvironment g env) ρ → ∀ a ∈ g.nodes, ∀ b ∈ g.nodes,
    (M.entry a b).Tells env (e.Denotes g (.ofEnvironment g env) ρ a b)

theorem means_of_runs (hv : m.validate = .ok ()) (he : ∀ y ∈ e.names, m.defines y = true)
    (hq : Compiling g m q)
    (hrun : Runs (relation g (namedRelation g m (m.relations.length + 1)) e) q M q₁)
    (hchoice : ∀ y, ChoiceSymbol g y → ∃ b, env y = some (.bool b)) (hs : Settles env q₁) :
    Means g m e M env where
  rf := ofEnvironment_rf g env
  co := ofEnvironment_co g env
  interpreted := MemoryModel.exists_meaning hv g _
  tells := by
    intro ρ hρ a ha b hb
    have hshows : Shows env g (.ofEnvironment g env) :=
      shows_of_choices fun y hy => (hchoice y hy).elim fun b hb => ⟨_, hb, rfl⟩
    obtain ⟨N, q₂, hrun', -, -, hN⟩ :=
      relation_yields_of_valid hv hρ he (known_of_compiling hv hρ hq)
    obtain ⟨rfl, rfl⟩ := hrun.unique hrun'
    exact (hN.represents env hshows hs).tells a b (mem_nodes_iff.1 ha) (mem_nodes_iff.1 hb)

/-- The matrix of an expression is its relation, transitive closures of every length included:
for all values of the choices that go with the definitions made so far. -/
theorem relation_represents (g : EventGraph) (m : MemoryModel) (hv : m.validate = .ok ())
    (e : RelExpr) (he : ∀ y ∈ e.names, m.defines y = true) (q : QueryState)
    (hq : Compiling g m q) : ∃ M q₁,
      Runs (relation g (namedRelation g m (m.relations.length + 1)) e) q M q₁ ∧
        Extends (ChoiceSymbol g) q q₁ ∧ ∀ env : Environment,
          (∀ y, ChoiceSymbol g y → ∃ b, env y = some (.bool b)) → Settles env q₁ →
            Means g m e M env := by
  obtain ⟨ρ, hρ⟩ := MemoryModel.exists_meaning hv g ⟨fun _ _ => False, fun _ _ => False⟩
  obtain ⟨M, q₁, hrun, hext, -⟩ :=
    relation_yields_of_valid hv hρ he (known_of_compiling hv hρ hq)
  exact ⟨M, q₁, hrun, hext, fun env hchoice hs => means_of_runs hv he hq hrun hchoice hs⟩

/-- The load sees the store of the other thread, so the two are in communication. -/
theorem relation_represents_received : MemoryModel.sc.validate = .ok () ∧
    Compiling (ofState passing received) .sc ⟨[], [], 0⟩ ∧ ∃ M q₁ env,
      Runs (relation (ofState passing received)
        (namedRelation (ofState passing received) .sc (MemoryModel.sc.relations.length + 1))
        (.suffixed .plus (.named "com"))) ⟨[], [], 0⟩ M q₁ ∧ Settles env q₁ ∧
      Means (ofState passing received) .sc (.suffixed .plus (.named "com")) M env ∧
        (M.entry 1 2).Decides env true := by
  have hm : MemoryModel.sc.validate = .ok () :=
    MemoryModel.valid_of_defined (by decide) (by decide) (by decide) (by cbv)
  obtain ⟨M, q₁, hrun, hext, hall⟩ := relation_represents (ofState passing received) .sc hm
    (.suffixed .plus (.named "com")) (by decide) ⟨[], [], 0⟩ (.fresh rfl)
  have hreads : (ofState passing received).reads = [2] := by cbv
  have hwrites : (ofState passing received).writesSameVar 2 = [0, 1] := by cbv
  have hnodes : (ofState passing received).nodes = [0, 1, 2] := by cbv
  have hread : 2 ∈ (ofState passing received).reads := by simp [hreads]
  have hwrite : 1 ∈ (ofState passing received).writesSameVar 2 := by simp [hwrites]
  have hchoice : ∀ y, ChoiceSymbol (ofState passing received) y →
      ∃ b, readsSent.environment (fun _ => 1) y = some (.bool b) :=
    fun y hy => environment_choice readsSent (fun _ => 1) hy
  obtain ⟨env, hsame, hsettles⟩ := exists_settles hext hchoice
  obtain ⟨b, hb, hrf⟩ := environment_rf readsSent (fun _ => 1) 2 1
  have hseen : env (rfSymbol 2 1) = some (.bool true) := by
    rw [hsame _ (.rf hread hwrite), hb, hrf.2 ⟨rfl, rfl⟩]
  have hmeans := hall env (fun y hy => by rw [hsame y hy]; exact hchoice y hy) hsettles
  obtain ⟨ρ, hρ⟩ := hmeans.interpreted
  have hcom : ρ "com" 1 2 :=
    (hρ "com" _ rfl 1 2).2 (.inl (.inl ((hmeans.rf 1 2).2 ⟨hread, hwrite, hseen⟩)))
  have htells := hmeans.tells ρ hρ 1 (by simp [hnodes]) 2 (by simp [hnodes])
  exact ⟨hm, .fresh rfl, M, q₁, env, hrun, hsettles, hmeans, htells.decides_true.2 (.single hcom)⟩

end Consistency.Query
