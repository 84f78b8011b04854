import Consistency.Proofs.Composition.Alone
import Consistency.Proofs.Thread.Evaluation
import Consistency.Proofs.Thread.Fixed

/-!
# Threads under another precision

Whether a choice is made at once or left to a symbol, a thread comes to the same
locations with the same terms, once it is known what is picked. So whatever a
thread can become under one precision it can become under any other with the
same bound.
-/

set_option autoImplicit false

namespace Consistency
open Bounded (InRange)

def Label.WellFormed : Label → Prop
  | .skip | .load _ _ => True
  | .assume t | .assign _ t | .store _ t => t.WellFormed InRange
  | .nondet _ values => ∀ n ∈ values, InRange n

def Automaton.WellFormed (a : Automaton) : Prop := ∀ e ∈ a.edges, e.label.WellFormed

theorem Arena.labels_chain {P : Label → Prop} {a : Arena} (ha : ∀ e ∈ a.edges, P e.label)
    (source : Nat) {labels : List Label} (h : ∀ l ∈ labels, P l) :
    ∀ e ∈ (a.chain source labels).edges, P e.label := by
  induction labels generalizing a source with
  | nil => exact ha
  | cons l labels ih =>
    rw [List.forall_mem_cons] at h
    refine ih (fun e he => ?_) _ h.2
    rcases List.mem_append.1 he with he | he
    · exact ha e he
    · rw [List.mem_singleton.1 he]
      exact h.1

/-- Only the labels matter. -/
theorem Automaton.labels_straightLine {P : Label → Prop} (name : String) {labels : List Label}
    (h : ∀ l ∈ labels, P l) : ∀ e ∈ (straightLine name labels).edges, P e.label :=
  Arena.labels_chain (a := .single name) (fun _ he => absurd he List.not_mem_nil) 0 h

theorem Automaton.WellFormed.edge {a : Automaton} (h : a.WellFormed) {edge : Nat} {e : Edge}
    (he : a.edge? edge = some e) : e.label.WellFormed := h e (List.mem_of_getElem? he)

theorem LocalState.mem_consts_eval {s : LocalState} {t : Term} {x : String}
    (h : x ∈ (s.eval t).consts) : ∃ reg, x ∈ (s.register reg).consts := by
  obtain ⟨reg, -, hx⟩ := Term.mem_consts_substitute t (Term.mem_consts_simplify _ h)
  exact ⟨reg, hx⟩

@[simp] theorem LocalState.register_keep (s : LocalState) (guard : Term) (reg : String) :
    (s.keep guard).register reg = s.register reg := by
  unfold LocalState.keep
  split <;> rfl

theorem LocalState.mem_keep {s : LocalState} {guard g : Term}
    (h : g ∈ (s.keep guard).constraints.toList) : g ∈ s.constraints.toList ∨ g = guard := by
  unfold LocalState.keep at h
  split at h
  · exact .inl h
  · exact (OrderedSet.mem_insert.1 h).symm

namespace Thread
variable {t : Thread} {p q : Precision} {s l next : LocalState} {v w : Valuation} {a b : Solo}
  {e : Edge} {edge : Nat} {n : Int}

/-- What an edge picks: nothing, which counts as 0, or the value of the symbol if the choice is left
open. -/
structure Picks (t : Thread) (p : Precision) (v : Valuation) (s : LocalState) (e : Edge) (n : Int) :
    Prop where
  left : ∀ reg values, e.label = .nondet reg values → p.tracks reg = false →
    n = v (choiceSymbol t.id s.steps)
  nothing : (∀ reg values, e.label ≠ .nondet reg values) → n = 0

theorem exists_picks (v : Valuation) (h : next ∈ t.step p s edge) :
    ∃ e n, t.automaton.edge? edge = some e ∧ e.source = s.location ∧
      p.exhausted s.steps = false ∧ t.Succeeds p s ⟨edge, n⟩ next ∧ t.Picks p v s e n := by
  obtain ⟨e, he, hs, hb, hf⟩ := mem_step h
  have hpick : ∃ n, t.Picks p v s e n ∧ ∀ reg values, e.label = .nondet reg values →
      p.tracks reg = true → next.register reg = .int n := by
    obtain ⟨source, target, label⟩ := e
    cases label with
    | nondet reg values =>
      by_cases hp : p.tracks reg = true
      · simp only [follow, choose, hp, if_true] at hf
        split at hf
        · exact absurd hf (by simp)
        · obtain ⟨n, -, rfl⟩ := List.mem_map.1 hf
          refine ⟨n, ⟨fun reg' values' hl hno => ?_, fun hne => absurd rfl (hne reg values)⟩,
            fun reg' values' hl _ => ?_⟩
          all_goals obtain ⟨rfl, rfl⟩ := Label.nondet.inj hl
          · exact absurd (hp.symm.trans hno) (by decide)
          · rw [LocalState.register_assign, if_pos rfl]
      · refine ⟨v (choiceSymbol t.id s.steps), ⟨fun _ _ _ _ => rfl, fun hne =>
          absurd rfl (hne reg values)⟩, fun reg' values' hl hp' => ?_⟩
        obtain ⟨rfl, rfl⟩ := Label.nondet.inj hl
        exact absurd hp' hp
    | _ => exact ⟨0, ⟨fun _ _ hl => absurd hl (by simp), fun _ => rfl⟩, fun _ _ hl =>
        absurd hl (by simp)⟩
  obtain ⟨n, hn, hregister⟩ := hpick
  refine ⟨e, n, he, hs, hb, ⟨h, fun e' reg values he' hl hp => ?_⟩, hn⟩
  obtain rfl := Option.some.inj (he.symm.trans he')
  exact hregister reg values hl hp

/-- What holds of the registers, two and two, and of what is assigned, holds behind an edge. -/
theorem pass_registers {R : Term → Term → Prop} (h : ∀ r, R (s.register r) (l.register r))
    (hassign : ∀ reg value, e.label = .assign reg value → R (s.eval value) (l.eval value))
    (hnondet : ∀ reg values, e.label = .nondet reg values →
      R (if p.tracks reg then .int n else .const (choiceSymbol t.id s.steps))
        (if q.tracks reg then .int n else .const (choiceSymbol t.id l.steps)))
    (hload : R (.const (readSymbol t.id s.accesses)) (.const (readSymbol t.id l.accesses)))
    (r : String) : R ((t.pass p s n e).register r) ((t.pass q l n e).register r) := by
  have hset : ∀ {reg u u'}, R u u' →
      R (((advance s e).assign reg u).register r) (((advance l e).assign reg u').register r) := by
    intro reg u u' hu
    rw [LocalState.register_assign, LocalState.register_assign]
    split
    · exact hu
    · exact h r
  obtain ⟨source, target, label⟩ := e
  cases label with
  | skip => exact h r
  | assume cond => exact h r
  | store var value => exact h r
  | assign reg value => exact hset (hassign reg value rfl)
  | nondet reg values => exact hset (hnondet reg values rfl)
  | load reg var => exact hset hload

theorem pass_accesses (t : Thread) (p : Precision) (s : LocalState) (n : Int) (e : Edge) :
    (t.pass p s n e).accesses = s.accesses + if e.label.sharedVar?.isSome then 1 else 0 := by
  obtain ⟨source, target, label⟩ := e
  cases label <;> rfl

theorem pass_steps (t : Thread) (p : Precision) (s : LocalState) (n : Int) (e : Edge) :
    (t.pass p s n e).steps = s.steps + 1 := by
  obtain ⟨source, target, label⟩ := e
  cases label <;> rfl

theorem pass_constraints (t : Thread) (p : Precision) (s : LocalState) (n : Int) (e : Edge) :
    (t.pass p s n e).constraints = s.constraints := by
  obtain ⟨source, target, label⟩ := e
  cases label <;> rfl

/-- What a step stores. -/
theorem mem_stored (he : t.automaton.edge? edge = some e) {d : EventShape}
    (hd : d ∈ (t.emit s edge 0).map Event.shape) {u : Term} (hu : d.value = some u) :
    ∃ var value, e.label = .store var value ∧ u = s.eval value := by
  obtain ⟨f, hf, rfl⟩ := List.mem_map.1 hd
  obtain ⟨e', x, he', hx, rfl⟩ := Composition.mem_emit hf
  obtain rfl := Option.some.inj (he.symm.trans he')
  unfold accessOf at hx
  split at hx
  · obtain rfl := Option.some.inj hx
    exact absurd hu (by simp [Event.shape, Event.make])
  · next var value hl =>
    obtain rfl := Option.some.inj hx
    exact ⟨var, value, hl, (Option.some.inj hu).symm⟩
  · exact absurd hx (by simp)

end Thread

structure Solo.WellFormed (a : Solo) : Prop where
  registers : ∀ reg, (a.state.register reg).WellFormed InRange
  constraints : ∀ g ∈ a.state.constraints.toList, g.WellFormed InRange
  stored : ∀ e ∈ a.events, ∀ u, e.value = some u → u.WellFormed InRange

theorem LocalState.eval_wellFormed {s : LocalState} {u : Term}
    (hs : ∀ reg, (s.register reg).WellFormed InRange) (hu : u.WellFormed InRange) :
    (s.eval u).WellFormed InRange := by
  refine Term.WellFormed.simplify Term.closed_inRange _
    (Term.WellFormed.substitute (fun x r hr => ?_) u hu)
  obtain rfl := Option.some.inj hr
  exact hs x

namespace Thread
variable {t : Thread} {p q : Precision} {s l next : LocalState} {v w : Valuation} {a b : Solo}
  {e : Edge} {edge : Nat} {n : Int}

/-- A choice is between integers that can be represented. -/
theorem guard_wellFormed (hs : ∀ reg, (s.register reg).WellFormed InRange)
    (hl : e.label.WellFormed) : (t.guard p s n e.label).WellFormed InRange := by
  obtain ⟨source, target, label⟩ := e
  cases label with
  | assume cond => exact LocalState.eval_wellFormed hs hl
  | nondet reg values =>
    simp only [guard]
    split
    · trivial
    · refine Term.WellFormedAll.mkOr (Term.wellFormedAll_iff.2 fun u hu => ?_)
      obtain ⟨k, hk, rfl⟩ := List.mem_map.1 hu
      exact ⟨trivial, hl k (OrderedSet.mem_ofList.1 hk)⟩
  | _ => trivial

/-- What is picked is one of the values to pick from. -/
theorem mem_of_guard {reg : String} {values : List Int}
    (hn : p.tracks reg = false → n = v (choiceSymbol t.id s.steps))
    (h : (t.guard p s n (.nondet reg values)).Decides v.environment true) : n ∈ values := by
  simp only [guard] at h
  split at h
  · simpa using Term.decides_bool.1 h
  · next hp =>
    have hsymbol : v.environment (choiceSymbol t.id s.steps) = some (.int n) := by
      rw [hn (Bool.eq_false_iff.2 hp)]
      rfl
    exact OrderedSet.mem_ofList.1 ((Term.tells_oneOf hsymbol).decides_true.1 h)

theorem Picks.inRange (hn : t.Picks p v s e n) (hl : e.label.WellFormed)
    (h : (t.guard p s n e.label).Decides v.environment true) : InRange n := by
  by_cases hnondet : ∃ reg values, e.label = .nondet reg values
  · obtain ⟨reg, values, hlabel⟩ := hnondet
    have hmem := mem_of_guard (hn.left reg values hlabel) (hlabel ▸ h)
    rw [hlabel] at hl
    exact hl n hmem
  · rw [hn.nothing fun reg values hlabel => hnondet ⟨reg, values, hlabel⟩]
    decide

theorem Alone.wellFormed (ht : t.automaton.WellFormed) (h : t.Alone p a) : a.WellFormed := by
  induction h with
  | start =>
    refine ⟨fun reg => ?_, by simp [initialState, LocalState.start, OrderedSet.empty], by simp⟩
    exact (by decide : InRange 0)
  | @step a next edge _ hs ih =>
    obtain ⟨e, n, he, hsource, hb, hsucceeds, -⟩ := exists_picks (fun _ => 0) hs
    obtain ⟨hguard, rfl⟩ := (succeeds_iff he hsource hb).1 hsucceeds
    have hl := ht.edge he
    refine ⟨fun reg => ?_, fun g hg => ?_, fun d hd u hu => ?_⟩
    · rw [LocalState.register_keep]
      refine pass_registers (q := p) (l := a.state) (R := fun u _ => u.WellFormed InRange)
        ih.registers (fun reg value hlabel => ?_) (fun reg values hlabel => ?_) trivial reg
      · rw [hlabel] at hl
        exact LocalState.eval_wellFormed ih.registers hl
      · split
        · next hp =>
          rw [hlabel] at hl hguard
          refine hl n ?_
          by_contra hn
          simp [guard, hp, hn] at hguard
        · trivial
    · rcases LocalState.mem_keep hg with hg | rfl
      · rw [pass_constraints] at hg
        exact ih.constraints g hg
      · exact guard_wellFormed ih.registers hl
    · rcases List.mem_append.1 hd with hd | hd
      · exact ih.stored d hd u hu
      · obtain ⟨var, value, hlabel, rfl⟩ := mem_stored he hd hu
        rw [hlabel] at hl
        exact LocalState.eval_wellFormed ih.registers hl

end Thread

noncomputable def EventShape.fixed (w : Valuation) (e : EventShape) : EventShape :=
  { e with value := e.value.map (Term.fixed w) }

def Term.Keeps (v w : Valuation) (t : Term) : Prop := ∀ x ∈ t.consts, w x = v x

/-- The same up to what is known of the picks, by a thread whose symbols have values `v`: `w` has
the picks of tracked registers as well. -/
structure Solo.Alike (v w : Valuation) (a b : Solo) : Prop where
  location : a.state.location = b.state.location
  accesses : a.state.accesses = b.state.accesses
  steps : a.state.steps = b.state.steps
  registers : ∀ reg, (a.state.register reg).fixed w = (b.state.register reg).fixed w
  events : a.events.map (EventShape.fixed w) = b.events.map (EventShape.fixed w)
  keeps : ∀ reg, (a.state.register reg).Keeps v w
  stored : ∀ e ∈ a.events, ∀ u, e.value = some u → u.Keeps v w
  feasible : ∀ g ∈ b.state.constraints.toList, (g.fixed w).Decides w.environment true

theorem LocalState.eval_keeps {v w : Valuation} {s : LocalState}
    (h : ∀ reg, (s.register reg).Keeps v w) (t : Term) : (s.eval t).Keeps v w := by
  intro x hx
  obtain ⟨reg, hx⟩ := mem_consts_eval hx
  exact h reg x hx

theorem Term.Keeps.eval {v w : Valuation} {t : Term} (h : t.Keeps v w) :
    t.eval w.environment = t.eval v.environment :=
  Term.eval_congr t fun x hx => congrArg (fun n => some (Value.int n)) (h x hx)

theorem Term.keeps_int (v w : Valuation) (n : Int) : (Term.int n).Keeps v w := by
  simp [Keeps, consts]

theorem Term.keeps_const {v w : Valuation} {x : String} (h : w x = v x) :
    (Term.const x).Keeps v w := by simpa [Keeps, consts] using h

namespace Thread
variable {t : Thread} {p q : Precision} {s l next : LocalState} {v w : Valuation} {a b : Solo}
  {e : Edge} {edge : Nat} {n : Int}

theorem emit_fixed (he : t.automaton.edge? edge = some e) (hi : s.accesses = l.accesses)
    (h : ∀ var value, e.label = .store var value → (s.eval value).fixed w = (l.eval value).fixed w) :
    ((t.emit s edge 0).map Event.shape).map (EventShape.fixed w) =
      ((t.emit l edge 0).map Event.shape).map (EventShape.fixed w) := by
  obtain ⟨source, target, label⟩ := e
  simp only [emit, access, he, Option.bind_some]
  cases label with
  | store var value =>
    simp [accessOf, Event.make, Event.shape, EventShape.fixed, hi, h var value rfl]
  | load reg var => simp [accessOf, Event.make, Event.shape, EventShape.fixed, hi]
  | _ => rfl

/-- What holds of the guard of one, holds of the guard of the other when the picks are known. -/
theorem guard_fixed (hw : w.Bounded) (hl : e.label.WellFormed) (ha : a.WellFormed)
    (hb : b.WellFormed) (h : a.Alike v w b) (hn : t.Picks p v a.state e n)
    (hpick : w (choiceSymbol t.id a.state.steps) = n)
    (hguard : (t.guard p a.state n e.label).Decides v.environment true) :
    ((t.guard q b.state n e.label).fixed w).Decides w.environment true := by
  obtain ⟨source, target, label⟩ := e
  cases label with
  | assume cond =>
    have hsame : (a.state.eval cond).fixed w = (b.state.eval cond).fixed w :=
      LocalState.fixed_eval_congr hw hl ha.registers hb.registers h.registers
    show ((b.state.eval cond).fixed w).Decides w.environment true
    rw [← hsame]
    refine Term.eval_fixed (fun _ _ => rfl) ?_
    rw [(LocalState.eval_keeps h.keeps cond).eval]
    exact hguard
  | nondet reg values =>
    have hmem := mem_of_guard (hn.left reg values rfl) hguard
    refine Term.eval_fixed (fun _ _ => rfl) ?_
    simp only [guard]
    split
    · simp [hmem, Term.eval]
    · have hsymbol : w.environment (choiceSymbol t.id b.state.steps) = some (.int n) := by
        rw [← h.steps, ← hpick]
        rfl
      exact (Term.tells_oneOf hsymbol).decides_true.2 (OrderedSet.mem_ofList.2 hmem)
  | _ => rfl

/-- A guard may be kept on both sides if it is true on the other when the picks are known. -/
theorem alike_keep {es fs : List EventShape} {g g' : Term} (h : Solo.Alike v w ⟨s, es⟩ ⟨l, fs⟩)
    (hg : (g'.fixed w).Decides w.environment true) :
    Solo.Alike v w ⟨s.keep g, es⟩ ⟨l.keep g', fs⟩ := by
  have hsame : ∀ (s : LocalState) g, (s.keep g).location = s.location ∧
      (s.keep g).accesses = s.accesses ∧ (s.keep g).steps = s.steps := by
    intro s g
    unfold LocalState.keep
    split <;> exact ⟨rfl, rfl, rfl⟩
  obtain ⟨hlocation, haccesses, hsteps⟩ := hsame s g
  obtain ⟨hlocation', haccesses', hsteps'⟩ := hsame l g'
  refine ⟨?_, ?_, ?_, fun reg => ?_, h.events, fun reg => ?_, h.stored, fun c hc => ?_⟩
  · exact hlocation.trans (h.location.trans hlocation'.symm)
  · exact haccesses.trans (h.accesses.trans haccesses'.symm)
  · exact hsteps.trans (h.steps.trans hsteps'.symm)
  · rw [LocalState.register_keep, LocalState.register_keep]
    exact h.registers reg
  · rw [LocalState.register_keep]
    exact h.keeps reg
  · rcases LocalState.mem_keep hc with hc | rfl
    · exact h.feasible c hc
    · exact hg

/-- What is assigned and stored behind an edge is the same when the picks are known. -/
theorem pass_alike (hw : w.Bounded) (hread : ∀ i, w (readSymbol t.id i) = v (readSymbol t.id i))
    (ha : a.WellFormed) (hb : b.WellFormed) (h : a.Alike v w b)
    (he : t.automaton.edge? edge = some e) (hl : e.label.WellFormed)
    (hn : t.Picks p v a.state e n) (hpick : w (choiceSymbol t.id a.state.steps) = n) :
    Solo.Alike v w ⟨t.pass p a.state n e, a.events ++ (t.emit a.state edge 0).map Event.shape⟩
      ⟨t.pass q b.state n e, b.events ++ (t.emit b.state edge 0).map Event.shape⟩ := by
  have heval : ∀ u : Term, u.WellFormed InRange →
      (a.state.eval u).fixed w = (b.state.eval u).fixed w := fun u hu =>
    LocalState.fixed_eval_congr hw hu ha.registers hb.registers h.registers
  have hint : ∀ (r : Precision) (reg : String) (k : Nat), k = a.state.steps →
      (if r.tracks reg then .int n else .const (choiceSymbol t.id k) : Term).fixed w = .int n := by
    rintro r reg k rfl
    split
    · rfl
    · rw [Term.fixed_choice, hpick]
  refine ⟨?_, ?_, ?_, fun reg => ?_, ?_, fun reg => ?_, fun d hd u hu => ?_, fun g hg => ?_⟩
  · exact (pass_location t p a.state n e).trans (pass_location t q b.state n e).symm
  · exact (pass_accesses t p a.state n e).trans
      ((congrArg (· + _) h.accesses).trans (pass_accesses t q b.state n e).symm)
  · exact (pass_steps t p a.state n e).trans
      ((congrArg (· + 1) h.steps).trans (pass_steps t q b.state n e).symm)
  · refine pass_registers (R := fun u u' => u.fixed w = u'.fixed w) h.registers
      (fun reg value hlabel => ?_) (fun reg values _ => ?_) ?_ reg
    · rw [hlabel] at hl
      exact heval value hl
    · rw [hint p reg _ rfl, hint q reg _ h.steps.symm]
    · rw [h.accesses]
  · rw [List.map_append, List.map_append, h.events, emit_fixed he h.accesses]
    intro var value hlabel
    rw [hlabel] at hl
    exact heval value hl
  · refine pass_registers (q := p) (l := a.state) (R := fun u _ => u.Keeps v w) h.keeps
      (fun reg value _ => LocalState.eval_keeps h.keeps value) (fun reg values hlabel => ?_)
      (Term.keeps_const (hread _)) reg
    split
    · exact Term.keeps_int v w n
    · next hp =>
      exact Term.keeps_const (hpick.trans (hn.left reg values hlabel (Bool.eq_false_iff.2 hp)))
  · rcases List.mem_append.1 hd with hd | hd
    · exact h.stored d hd u hu
    · obtain ⟨var, value, -, rfl⟩ := mem_stored he hd hu
      exact LocalState.eval_keeps h.keeps value
  · rw [pass_constraints] at hg
    exact h.feasible g hg

/-- A thread that is alike takes the same edge, with the same pick. -/
theorem exists_alike_step (hbound : p.stepBound = q.stepBound) (hw : w.Bounded)
    (hread : ∀ i, w (readSymbol t.id i) = v (readSymbol t.id i)) (ht : t.automaton.WellFormed)
    (ha : a.WellFormed) (hb : t.Alone q b) (h : a.Alike v w b)
    (he : t.automaton.edge? edge = some e) (hs : e.source = a.state.location)
    (hrun : p.exhausted a.state.steps = false)
    (hn : t.Picks p v a.state e n) (hpick : w (choiceSymbol t.id a.state.steps) = n)
    (hguard : (t.guard p a.state n e.label).Decides v.environment true) :
    ∃ c, t.Alone q c ∧ Solo.Alike v w ⟨(t.pass p a.state n e).keep (t.guard p a.state n e.label),
      a.events ++ (t.emit a.state edge 0).map Event.shape⟩ c := by
  have hwell := hb.wellFormed ht
  have hl := ht.edge he
  have hfixed := guard_fixed (q := q) hw hl ha hwell h hn hpick hguard
  have hrun' : q.exhausted b.state.steps = false := by
    rw [← h.steps, ← hrun, Precision.exhausted, Precision.exhausted, hbound]
  have hopen : t.guard q b.state n e.label ≠ .bool false := by
    intro hfalse
    rw [hfalse] at hfixed
    exact absurd (Term.decides_bool.1 hfixed) (by decide)
  have hstep := ((succeeds_iff (u := ⟨edge, n⟩) he (hs.trans h.location) hrun').2
    ⟨hopen, rfl⟩).step
  exact ⟨_, hb.step edge hstep, alike_keep (pass_alike hw hread ha hwell h he hl hn hpick) hfixed⟩

theorem start_alike (t : Thread) (v w : Valuation) :
    Solo.Alike v w ⟨t.initialState, []⟩ ⟨t.initialState, []⟩ where
  location := rfl
  accesses := rfl
  steps := rfl
  registers := fun _ => rfl
  events := rfl
  keeps := fun _ => Term.keeps_int v w 0
  stored := by simp
  feasible := by simp [initialState, LocalState.start, OrderedSet.empty]

/-- By induction on the steps, which are numbered, so that what is picked at one says nothing of the
others. -/
theorem exists_alike (hbound : p.stepBound = q.stepBound) (ht : t.automaton.WellFormed)
    (h : t.Alone p a) (hf : a.state.Feasible v) : ∃ picked : Nat → Int,
      (∀ k, InRange (picked k)) ∧ ∀ w : Valuation, w.Bounded →
        (∀ i, w (readSymbol t.id i) = v (readSymbol t.id i)) →
        (∀ k < a.state.steps, w (choiceSymbol t.id k) = picked k) →
          ∃ b, t.Alone q b ∧ a.Alike v w b := by
  induction h with
  | start =>
    exact ⟨fun _ => 0, fun _ => (by decide : InRange 0), fun w _ _ _ =>
      ⟨_, .start, start_alike t v w⟩⟩
  | @step a next edge ha hs ih =>
    obtain ⟨e, n, he, hsource, hrun, hsucceeds, hn⟩ := exists_picks v hs
    obtain ⟨hbefore, hguard⟩ := (hsucceeds.feasible_iff he).1 hf
    obtain ⟨-, rfl⟩ := (succeeds_iff he hsource hrun).1 hsucceeds
    obtain ⟨picked, hpicked, hall⟩ := ih hbefore
    have hsteps := (step_counts hs 0).1
    have hrange := hn.inRange (ht.edge he) hguard
    refine ⟨Function.update picked a.state.steps n, fun k => ?_, fun w hw hread hpick => ?_⟩
    · by_cases hk : k = a.state.steps
      · rw [hk, Function.update_self]
        exact hrange
      · rw [Function.update_of_ne hk]
        exact hpicked k
    · have hlast : w (choiceSymbol t.id a.state.steps) = n := by
        rw [hpick _ (by rw [hsteps]; omega), Function.update_self]
      obtain ⟨b, hb, hab⟩ := hall w hw hread fun k hk => by
        rw [hpick k (by rw [hsteps]; omega), Function.update_of_ne (by omega)]
      exact exists_alike_step hbound hw hread ht (ha.wellFormed ht) hb hab he hsource hrun hn hlast
        hguard

end Thread
end Consistency
