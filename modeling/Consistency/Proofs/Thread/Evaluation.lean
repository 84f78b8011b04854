import Consistency.Proofs.Composition.Place
import Consistency.Proofs.Thread.Simulation

/-!
# Symbolic steps evaluate to runs

A thread is run along given edges on registers that hold values, which may be
Booleans. The run stops where an edge cannot be taken and where an expression
has no value. If it does not lack a value, then it gets through exactly when
the steps of the thread lead along the same edges to a state whose constraints
are true, and that state evaluates to the registers.
-/

set_option autoImplicit false

namespace Consistency

inductive Halt where
  | blocked | undefined
  deriving DecidableEq, Repr

/-- An edge, with the integer to pick if it makes a choice for a tracked register. -/
structure Turn where
  edge : Nat
  pick : Int
  deriving DecidableEq, Repr

structure Configuration where
  location : Nat
  registers : String → Value
  accesses : Nat
  steps : Nat

theorem Halt.ite_eq_ok {α : Type} {q : Prop} [Decidable q] {halt : Halt} {m : Except Halt α}
    {a : α} : (if q then m else .error halt) = .ok a ↔ q ∧ m = .ok a := by
  by_cases hq : q <;> simp [hq]

namespace Configuration

def start (location : Nat) : Configuration := ⟨location, fun _ => .int 0, 0, 0⟩

def value (c : Configuration) (t : Term) : Except Halt Value :=
  match t.eval fun reg => some (c.registers reg) with
  | some u => .ok u
  | none => .error .undefined

theorem value_error {c : Configuration} {t : Term} {halt : Halt} (h : c.value t = .error halt) :
    halt = .undefined := by
  unfold value at h
  split at h
  · exact absurd h (by simp)
  · exact (Except.error.inj h).symm

def set (c : Configuration) (reg : String) (u : Value) : Configuration :=
  { c with registers := Function.update c.registers reg u }

def behind (c : Configuration) (e : Edge) : Configuration :=
  { c with
    location := e.target
    accesses := c.accesses + (if e.label.sharedVar?.isSome then 1 else 0)
    steps := c.steps + 1 }

end Configuration

namespace Thread

def travel (t : Thread) (p : Precision) (v : Valuation) (c : Configuration) (pick : Int)
    (e : Edge) : Except Halt (Configuration × Option Value) :=
  match e.label with
  | .skip => .ok (c.behind e, none)
  | .assume cond => do
    let u ← c.value cond
    if u = .bool true then .ok (c.behind e, none) else .error .blocked
  | .assign reg value => do
    let u ← c.value value
    return ((c.behind e).set reg u, none)
  | .nondet reg values =>
    let n := if p.tracks reg then pick else v (choiceSymbol t.id c.steps)
    if n ∈ values then .ok ((c.behind e).set reg (.int n), none) else .error .blocked
  | .load reg _ => .ok ((c.behind e).set reg (.int (v (readSymbol t.id c.accesses))), none)
  | .store _ value => do
    let u ← c.value value
    return (c.behind e, some u)

def turn (t : Thread) (p : Precision) (v : Valuation) (c : Configuration) (u : Turn) :
    Except Halt (Configuration × Option Value) :=
  match t.automaton.edge? u.edge with
  | none => .error .blocked
  | some e => if e.source = c.location then t.travel p v c u.pick e else .error .blocked

def execute (t : Thread) (p : Precision) (v : Valuation) (c : Configuration) :
    List Turn → Except Halt (Configuration × List Value)
  | [] => .ok (c, [])
  | u :: us => do
    let (next, stored) ← t.turn p v c u
    let (last, rest) ← execute t p v next us
    return (last, stored.toList ++ rest)

structure Succeeds (t : Thread) (p : Precision) (s : LocalState) (u : Turn) (next : LocalState) :
    Prop where
  step : next ∈ t.step p s u.edge
  picks : ∀ e reg values, t.automaton.edge? u.edge = some e → e.label = .nondet reg values →
    p.tracks reg = true → next.register reg = .int u.pick

inductive Leads (t : Thread) (p : Precision) :
    LocalState → List Turn → List Term → LocalState → Prop
  | stop (s : LocalState) : Leads t p s [] [] s
  | go {s next last : LocalState} {u : Turn} {us : List Turn} {terms : List Term}
      (first : t.Succeeds p s u next) (rest : Leads t p next us terms last) :
      Leads t p s (u :: us) (((t.access s u.edge).bind Access.value).toList ++ terms) last

end Thread

structure LocalState.Evaluates (v : Valuation) (s : LocalState) (c : Configuration) : Prop where
  location : s.location = c.location
  accesses : s.accesses = c.accesses
  steps : s.steps = c.steps
  registers : ∀ reg, (s.register reg).eval v.environment = some (c.registers reg)

def LocalState.keep (s : LocalState) (guard : Term) : LocalState :=
  if guard = .bool true then s else s.constrain guard

namespace LocalState
variable {v : Valuation} {s : LocalState} {c : Configuration} {guard term : Term} {u : Value}

theorem start_evaluates (v : Valuation) (location : Nat) :
    (start location).Evaluates v (.start location) :=
  ⟨rfl, rfl, rfl, fun _ => rfl⟩

theorem Evaluates.eval (h : s.Evaluates v c) (hu : c.value term = .ok u) :
    (s.eval term).eval v.environment = some u := by
  have hterm : term.eval (fun reg => some (c.registers reg)) = some u := by
    unfold Configuration.value at hu
    split at hu
    · next w hw => rw [hw, Except.ok.inj hu]
    · exact absurd hu (by simp)
  apply Term.eval_simplify
  rw [Term.eval_substitute v.environment term, ← hterm]
  exact congrArg (fun env => term.eval env) (funext h.registers)

theorem Evaluates.set (h : s.Evaluates v c) {reg : String}
    (ht : term.eval v.environment = some u) : (s.assign reg term).Evaluates v (c.set reg u) where
  location := h.location
  accesses := h.accesses
  steps := h.steps
  registers := by
    intro r
    rw [register_assign]
    by_cases hr : r = reg
    · subst hr
      simpa [Configuration.set] using ht
    · simpa [Configuration.set, hr] using h.registers r

theorem Evaluates.advance (h : s.Evaluates v c) (e : Edge) :
    (Thread.advance s e).Evaluates v (c.behind e) where
  location := rfl
  accesses := congrArg (· + if e.label.sharedVar?.isSome then 1 else 0) h.accesses
  steps := congrArg (· + 1) h.steps
  registers := h.registers

theorem Evaluates.keep (h : s.Evaluates v c) (guard : Term) : (s.keep guard).Evaluates v c := by
  unfold LocalState.keep
  split
  · exact h
  · exact ⟨h.location, h.accesses, h.steps, h.registers⟩

theorem keep_feasible :
    (s.keep guard).Feasible v ↔ s.Feasible v ∧ guard.Decides v.environment true := by
  unfold LocalState.keep
  split
  · next h => simp [h, Term.decides_bool]
  · constructor
    · intro h
      exact ⟨fun t ht => h t (OrderedSet.mem_insert.2 (.inr ht)),
        h guard (OrderedSet.mem_insert.2 (.inl rfl))⟩
    · rintro ⟨h, hg⟩
      exact h.constrain hg

end LocalState

/-- No literal says that a symbol has one of given values, unless there are none. -/
theorem Term.oneOf_eq_bool {symbol : String} {values : List Int} {b : Bool}
    (h : Term.oneOf symbol values = .bool b) : values = [] ∧ b = false := by
  have key : ∀ n : Int, b = true ↔ n ∈ values := by
    intro n
    have htells := @Term.tells_oneOf (fun _ => some (.int n)) symbol n values rfl
    rw [h] at htells
    rw [← htells.decides_true, Term.decides_bool]
  obtain ⟨n, hn⟩ := Infinite.exists_notMem_finset values.toFinset
  have hb : b = false := by
    cases b with
    | false => rfl
    | true => exact absurd (List.mem_toFinset.2 ((key n).1 rfl)) hn
  refine ⟨List.eq_nil_iff_forall_not_mem.2 fun k hk => ?_, hb⟩
  exact absurd ((key k).2 hk) (by simp [hb])

namespace Thread
variable {t : Thread} {p : Precision} {v : Valuation} {s next last : LocalState}
  {c d : Configuration} {u : Turn} {us : List Turn} {e : Edge} {terms : List Term}

def guard (t : Thread) (p : Precision) (s : LocalState) (pick : Int) : Label → Term
  | .assume cond => s.eval cond
  | .nondet reg values =>
    if p.tracks reg then .bool (decide (pick ∈ values))
    else .oneOf (choiceSymbol t.id s.steps) (OrderedSet.ofList values).toList
  | _ => .bool true

/-- The state behind a choice, once the pick is made. -/
theorem mem_choose {base : LocalState} {reg : String} {values : List Int} {pick : Int} :
    (next ∈ t.choose p s base reg values ∧
        (p.tracks reg = true → next.register reg = .int pick)) ↔
      t.guard p s pick (.nondet reg values) ≠ .bool false ∧
        next = (base.assign reg
          (if p.tracks reg then .int pick else .const (choiceSymbol t.id s.steps))).keep
            (t.guard p s pick (.nondet reg values)) := by
  unfold choose guard LocalState.keep
  by_cases hp : p.tracks reg = true
  · have hmem : pick ∈ values ↔ pick ∈ (OrderedSet.ofList values).toList :=
      OrderedSet.mem_ofList.symm
    simp only [hp, if_true, forall_const]
    constructor
    · rintro ⟨hnext, hpick⟩
      split at hnext
      · exact absurd hnext (by simp)
      · obtain ⟨n, hn, rfl⟩ := List.mem_map.1 hnext
        rw [LocalState.register_assign, if_pos rfl] at hpick
        obtain rfl := Term.int.inj hpick
        simp [hmem, hn]
    · rintro ⟨hpick, rfl⟩
      have hin : pick ∈ values := by simpa using hpick
      have hne : (OrderedSet.ofList values).toList ≠ [] := List.ne_nil_of_mem (hmem.1 hin)
      simp only [hin, hne, List.isEmpty_iff, if_false, LocalState.register_assign, if_true,
        decide_true, and_true]
      exact List.mem_map.2 ⟨pick, hmem.1 hin, rfl⟩
  · simp only [hp]
    cases hlist : (OrderedSet.ofList values).toList with
    | nil => simp [Term.oneOf, Term.mkOr]
    | cons n ns =>
      have hopen : ∀ b, Term.oneOf (choiceSymbol t.id s.steps) (n :: ns) ≠ .bool b :=
        fun b h => absurd (Term.oneOf_eq_bool h).1 (by simp)
      simp [hopen]
      rfl

/-- Each label leads to one state at most, once its pick is made. -/
theorem succeeds_iff (he : t.automaton.edge? u.edge = some e) (hs : e.source = s.location)
    (hb : p.exhausted s.steps = false) : t.Succeeds p s u next ↔
      t.guard p s u.pick e.label ≠ .bool false ∧
        next = (t.pass p s u.pick e).keep (t.guard p s u.pick e.label) := by
  have hstep : t.step p s u.edge = t.follow p s e := step_eq he hs hb
  have hpicks : t.Succeeds p s u next ↔ next ∈ t.follow p s e ∧ ∀ reg values,
      e.label = .nondet reg values → p.tracks reg = true → next.register reg = .int u.pick := by
    constructor
    · rintro ⟨hnext, hp⟩
      exact ⟨hstep ▸ hnext, fun reg values => hp e reg values he⟩
    · rintro ⟨hnext, hp⟩
      refine ⟨hstep ▸ hnext, fun e' reg values he' => ?_⟩
      obtain rfl := Option.some.inj (he.symm.trans he')
      exact hp reg values
  rw [hpicks]
  obtain ⟨source, target, label⟩ := e
  cases label with
  | skip => simp [follow, guard, pass, LocalState.keep]
  | store var value => simp [follow, guard, pass, LocalState.keep]
  | assign reg value => simp [follow, guard, pass, LocalState.keep]
  | load reg var => simp [follow, guard, pass, LocalState.keep]
  | assume cond =>
    simp only [follow, guard, pass, LocalState.keep]
    split
    · next h => simp [h]
    · next h => simp [h]
    · next htrue hfalse =>
      simp [show s.eval cond ≠ .bool true from htrue, show s.eval cond ≠ .bool false from hfalse]
  | nondet reg values =>
    show _ ↔ _ ∧ next = ((advance s _).assign reg _).keep _
    rw [← mem_choose]
    simp [follow]

/-- An edge is taken exactly if its guard is true. -/
theorem travel_iff (h : s.Evaluates v c) {pick : Int}
    (hdef : t.travel p v c pick e ≠ .error .undefined) :
    (∃ r, t.travel p v c pick e = .ok r) ↔
      (t.guard p s pick e.label).Decides v.environment true := by
  have hvalue : ∀ term, c.value term ≠ .error .undefined → ∃ u, c.value term = .ok u := by
    intro term hne
    cases hu : c.value term with
    | ok u => exact ⟨u, rfl⟩
    | error halt => exact absurd (Configuration.value_error hu ▸ hu) hne
  obtain ⟨source, target, label⟩ := e
  unfold travel at hdef ⊢
  cases label with
  | skip => simp [guard, Term.decides_bool]
  | load reg var => simp [guard, Term.decides_bool]
  | assign reg value =>
    obtain ⟨u, hu⟩ := hvalue value fun hu => hdef (by simp only [hu]; rfl)
    simp only [hu, guard, Term.decides_bool, iff_true]
    exact ⟨_, rfl⟩
  | store var value =>
    obtain ⟨u, hu⟩ := hvalue value fun hu => hdef (by simp only [hu]; rfl)
    simp only [hu, guard, Term.decides_bool, iff_true]
    exact ⟨_, rfl⟩
  | assume cond =>
    obtain ⟨u, hu⟩ := hvalue cond fun hu => hdef (by simp only [hu]; rfl)
    have hguard := h.eval hu
    simp only [bind_eq_ok, hu, guard, Term.Decides, hguard, Option.some.injEq]
    constructor
    · rintro ⟨r, w, hw, hr⟩
      obtain rfl := Except.ok.inj hw
      exact (Halt.ite_eq_ok.1 hr).1
    · rintro rfl
      exact ⟨_, _, rfl, rfl⟩
  | nondet reg values =>
    simp only [Halt.ite_eq_ok, guard]
    by_cases hp : p.tracks reg = true
    · simp [hp, Term.decides_bool]
    · have hsymbol : v.environment (choiceSymbol t.id s.steps) =
          some (.int (v (choiceSymbol t.id s.steps))) := rfl
      rw [if_neg hp, if_neg hp, (Term.tells_oneOf hsymbol).decides_true, OrderedSet.mem_ofList,
        h.steps]
      simp

theorem travel_evaluates (h : s.Evaluates v c) {pick : Int} {stored : Option Value}
    (hok : t.travel p v c pick e = .ok (d, stored)) :
    (t.pass p s pick e).Evaluates v d ∧
      List.Forall₂ (fun term u => term.eval v.environment = some u)
        ((accessOf s e.label).bind Access.value).toList stored.toList := by
  obtain ⟨source, target, label⟩ := e
  have hnext := h.advance ⟨source, target, label⟩
  unfold travel at hok
  cases label with
  | skip =>
    obtain ⟨rfl, rfl⟩ := Prod.mk.inj (Except.ok.inj hok)
    exact ⟨hnext, .nil⟩
  | load reg var =>
    obtain ⟨rfl, rfl⟩ := Prod.mk.inj (Except.ok.inj hok)
    refine ⟨hnext.set ?_, .nil⟩
    rw [h.accesses]
    rfl
  | assign reg value =>
    obtain ⟨u, hu, hok⟩ := bind_eq_ok.1 hok
    obtain ⟨rfl, rfl⟩ := Prod.mk.inj (Except.ok.inj hok)
    exact ⟨hnext.set (h.eval hu), .nil⟩
  | store var value =>
    obtain ⟨u, hu, hok⟩ := bind_eq_ok.1 hok
    obtain ⟨rfl, rfl⟩ := Prod.mk.inj (Except.ok.inj hok)
    exact ⟨hnext, .cons (h.eval hu) .nil⟩
  | assume cond =>
    obtain ⟨u, hu, hok⟩ := bind_eq_ok.1 hok
    obtain ⟨rfl, rfl⟩ := Prod.mk.inj (Except.ok.inj (Halt.ite_eq_ok.1 hok).2)
    exact ⟨hnext, .nil⟩
  | nondet reg values =>
    obtain ⟨rfl, rfl⟩ := Prod.mk.inj (Except.ok.inj (Halt.ite_eq_ok.1 hok).2)
    refine ⟨hnext.set ?_, .nil⟩
    rw [h.steps]
    by_cases hp : p.tracks reg = true
    · rw [if_pos hp, if_pos hp]
      rfl
    · rw [if_neg hp, if_neg hp]
      rfl

theorem Succeeds.edge (h : t.Succeeds p s u next) : ∃ e, t.automaton.edge? u.edge = some e ∧
    e.source = s.location ∧ p.exhausted s.steps = false := by
  obtain ⟨e, he, hs, hb, -⟩ := mem_step h.step
  exact ⟨e, he, hs, hb⟩

theorem pass_feasible {n : Int} : (t.pass p s n e).Feasible v ↔ s.Feasible v := by
  have hsame : (t.pass p s n e).constraints = s.constraints := by
    obtain ⟨source, target, label⟩ := e
    cases label <;> rfl
  rw [LocalState.Feasible, LocalState.Feasible, hsame]

/-- The path behind an edge is as before, with the guard of the edge. -/
theorem Succeeds.feasible_iff (h : t.Succeeds p s u next)
    (he : t.automaton.edge? u.edge = some e) : next.Feasible v ↔
      s.Feasible v ∧ (t.guard p s u.pick e.label).Decides v.environment true := by
  obtain ⟨e', he', hs, hb⟩ := h.edge
  obtain rfl := Option.some.inj (he.symm.trans he')
  obtain ⟨-, rfl⟩ := (succeeds_iff he hs hb).1 h
  rw [LocalState.keep_feasible, pass_feasible]

theorem turn_eq (he : t.automaton.edge? u.edge = some e) (hs : e.source = c.location) :
    t.turn p v c u = t.travel p v c u.pick e := by
  simp only [turn, he]
  rw [if_pos hs]

theorem turn_edge {r : Configuration × Option Value} (h : t.turn p v c u = .ok r) :
    ∃ e, t.automaton.edge? u.edge = some e ∧ e.source = c.location := by
  unfold turn at h
  split at h
  · exact absurd h (by simp)
  · next e he => exact ⟨e, he, (Halt.ite_eq_ok.1 h).1⟩

/-- The thread has a feasible step along an edge exactly if a run takes the edge. -/
theorem turn_iff (h : s.Evaluates v c) (hf : s.Feasible v) (hb : p.exhausted s.steps = false)
    (hdef : t.turn p v c u ≠ .error .undefined) :
    (∃ r, t.turn p v c u = .ok r) ↔ ∃ next, t.Succeeds p s u next ∧ next.Feasible v := by
  constructor
  · rintro ⟨r, hr⟩
    obtain ⟨e, he, hs⟩ := turn_edge hr
    rw [turn_eq he hs] at hr hdef
    have hguard := (travel_iff h hdef).1 ⟨r, hr⟩
    have hne : t.guard p s u.pick e.label ≠ .bool false := by
      intro hfalse
      rw [hfalse] at hguard
      exact absurd (Term.decides_bool.1 hguard) (by simp)
    have hnext := (succeeds_iff he (hs.trans h.location.symm) hb).2 ⟨hne, rfl⟩
    exact ⟨_, hnext, (hnext.feasible_iff he).2 ⟨hf, hguard⟩⟩
  · rintro ⟨next, hnext, hfeasible⟩
    obtain ⟨e, he, hs, -⟩ := hnext.edge
    rw [turn_eq he (hs.trans h.location)] at hdef ⊢
    exact (travel_iff h hdef).2 ((hnext.feasible_iff he).1 hfeasible).2

theorem turn_evaluates (h : s.Evaluates v c) {stored : Option Value}
    (hok : t.turn p v c u = .ok (d, stored)) (hnext : t.Succeeds p s u next) :
    next.Evaluates v d ∧ List.Forall₂ (fun term u => term.eval v.environment = some u)
      ((t.access s u.edge).bind Access.value).toList stored.toList := by
  obtain ⟨e, he, hs, hb⟩ := hnext.edge
  rw [turn_eq he (hs.trans h.location)] at hok
  obtain ⟨-, rfl⟩ := (succeeds_iff he hs hb).1 hnext
  obtain ⟨hd, hstored⟩ := travel_evaluates h hok
  refine ⟨hd.keep _, ?_⟩
  rw [access, he]
  exact hstored

theorem Succeeds.steps (h : t.Succeeds p s u next) : next.steps = s.steps + 1 :=
  (step_counts h.step 0).1

/-- Constraints are never dropped. -/
theorem Leads.feasible (h : t.Leads p s us terms last) (hf : last.Feasible v) : s.Feasible v := by
  induction h with
  | stop s => exact hf
  | go first _ ih =>
    obtain ⟨e, he, -, -⟩ := first.edge
    exact ((first.feasible_iff he).1 (ih hf)).1

theorem execute_iff (h : s.Evaluates v c) (hf : s.Feasible v)
    (hb : ∀ k < us.length, p.exhausted (s.steps + k) = false)
    (hdef : t.execute p v c us ≠ .error .undefined) :
    (∃ r, t.execute p v c us = .ok r) ↔
      ∃ terms last, t.Leads p s us terms last ∧ last.Feasible v := by
  induction us generalizing s c with
  | nil => exact ⟨fun _ => ⟨[], s, .stop s, hf⟩, fun _ => ⟨_, rfl⟩⟩
  | cons u us ih =>
    have hnow : p.exhausted s.steps = false := hb 0 (by simp)
    have hfirst : t.turn p v c u ≠ .error .undefined := by
      intro hu
      exact hdef (by simp [execute, hu, bind, Except.bind])
    have hrest : ∀ d stored, t.turn p v c u = .ok (d, stored) →
        t.execute p v d us ≠ .error .undefined := by
      intro d stored hd hu
      exact hdef (by simp [execute, hd, hu, bind, Except.bind])
    have hbound : ∀ next, t.Succeeds p s u next →
        ∀ k < us.length, p.exhausted (next.steps + k) = false := by
      intro next hnext k hk
      rw [hnext.steps, Nat.add_assoc, Nat.add_comm 1 k]
      exact hb (k + 1) (by simpa using hk)
    constructor
    · rintro ⟨r, hr⟩
      obtain ⟨⟨d, stored⟩, hd, hr⟩ := bind_eq_ok.1 hr
      obtain ⟨r', hr', -⟩ := bind_eq_ok.1 hr
      obtain ⟨next, hnext, hfeasible⟩ := (turn_iff h hf hnow hfirst).1 ⟨_, hd⟩
      obtain ⟨terms, last, hleads, hlast⟩ := (ih (turn_evaluates h hd hnext).1 hfeasible
        (hbound next hnext) (hrest d stored hd)).1 ⟨r', hr'⟩
      exact ⟨_, last, .go hnext hleads, hlast⟩
    · rintro ⟨terms, last, hleads, hlast⟩
      cases hleads with
      | @go _ next _ _ _ rest hnext hleads =>
        have hfeasible := hleads.feasible hlast
        obtain ⟨⟨d, stored⟩, hd⟩ := (turn_iff h hf hnow hfirst).2 ⟨next, hnext, hfeasible⟩
        obtain ⟨⟨d', stored'⟩, hr⟩ := (ih (turn_evaluates h hd hnext).1 hfeasible
          (hbound next hnext) (hrest d stored hd)).2 ⟨rest, last, hleads, hlast⟩
        exact ⟨_, bind_eq_ok.2 ⟨_, hd, bind_eq_ok.2 ⟨_, hr, rfl⟩⟩⟩

theorem execute_evaluates (h : s.Evaluates v c) {stored : List Value}
    (hok : t.execute p v c us = .ok (d, stored)) (hleads : t.Leads p s us terms last) :
    last.Evaluates v d ∧
      List.Forall₂ (fun term u => term.eval v.environment = some u) terms stored := by
  induction hleads generalizing c stored with
  | stop s =>
    obtain ⟨rfl, rfl⟩ := Prod.mk.inj (Except.ok.inj hok)
    exact ⟨h, .nil⟩
  | go first _ ih =>
    obtain ⟨⟨c', w⟩, hd, hok⟩ := bind_eq_ok.1 hok
    obtain ⟨⟨d', ws⟩, hr, hok⟩ := bind_eq_ok.1 hok
    obtain ⟨rfl, rfl⟩ := Prod.mk.inj (Except.ok.inj hok)
    obtain ⟨hnext, hw⟩ := turn_evaluates h hd first
    obtain ⟨hlast, hws⟩ := ih hnext hr
    exact ⟨hlast, List.rel_append hw hws⟩

/-- As far as the step bound allows, a run that lacks no value gets through exactly if steps lead
along its edges to a feasible state, and this state and the terms stored evaluate to its results. -/
theorem leads_iff_executes (t : Thread) (p : Precision) (v : Valuation) (us : List Turn)
    (hb : ∀ bound, p.stepBound = some bound → us.length ≤ bound)
    (hdef : t.execute p v (.start t.automaton.initial) us ≠ .error .undefined) :
    ((∃ d stored, t.execute p v (.start t.automaton.initial) us = .ok (d, stored)) ↔
        ∃ terms last, t.Leads p t.initialState us terms last ∧ last.Feasible v) ∧
      ∀ d stored terms last, t.execute p v (.start t.automaton.initial) us = .ok (d, stored) →
        t.Leads p t.initialState us terms last →
          last.location = d.location ∧
          (∀ reg, (last.register reg).eval v.environment = some (d.registers reg)) ∧
          List.Forall₂ (fun term u => term.eval v.environment = some u) terms stored := by
  have hstart := LocalState.start_evaluates v t.automaton.initial
  have hfree : t.initialState.Feasible v := by
    intro g hg
    exact absurd hg (by simp [initialState, LocalState.start, OrderedSet.empty])
  have hsteps : ∀ k < us.length, p.exhausted (t.initialState.steps + k) = false := by
    intro k hk
    unfold Precision.exhausted
    split
    · next bound hbound =>
      have hlt : 0 + k < bound := by
        have := hb bound hbound
        omega
      exact decide_eq_false (Nat.not_le.2 hlt)
    · rfl
  refine ⟨?_, ?_⟩
  · refine Iff.trans ?_ (execute_iff hstart hfree hsteps hdef)
    exact ⟨fun ⟨d, stored, h⟩ => ⟨(d, stored), h⟩, fun ⟨r, h⟩ => ⟨r.1, r.2, h⟩⟩
  · intro d stored terms last hok hleads
    obtain ⟨hlast, hstored⟩ := execute_evaluates hstart hok hleads
    exact ⟨hlast.location, hlast.registers, hstored⟩

def counting : Thread := ⟨0, .straightLine "P" [.load "r" "x",
  .assume (.compare .lt (.const "r") (.int 5)), .store "y" (.arith .add (.const "r") (.int 1))]⟩

def straight : List Turn := [⟨0, 0⟩, ⟨1, 0⟩, ⟨2, 0⟩]

theorem leads_iff_executes_counting :
    (∃ d, counting.execute .default (fun _ => 1) (.start 0) straight = .ok (d, [.int 2])) ∧
      ∃ term last, counting.Leads .default counting.initialState straight [term] last ∧
        last.Feasible (fun _ => 1) ∧
          term.eval (Valuation.environment fun _ => 1) = some (.int 2) := by
  obtain ⟨d, hok⟩ : ∃ d,
      counting.execute .default (fun _ => 1) (.start 0) straight = .ok (d, [.int 2]) := ⟨_, rfl⟩
  have hdef : counting.execute .default (fun _ => 1) (.start 0) straight ≠ .error .undefined := by
    simp [hok]
  obtain ⟨hiff, hvalues⟩ := leads_iff_executes counting .default (fun _ => 1) straight
    (fun _ h => absurd h (by simp [Precision.default])) hdef
  obtain ⟨terms, last, hleads, hlast⟩ := hiff.1 ⟨d, _, hok⟩
  obtain ⟨-, -, hstored⟩ := hvalues d _ terms last hok hleads
  obtain ⟨term, rest, hterm, hrest, rfl⟩ := List.forall₂_cons_right_iff.1 hstored
  obtain rfl := List.forall₂_nil_right_iff.1 hrest
  exact ⟨⟨d, hok⟩, term, last, hleads, hlast, hterm⟩

/-- At its step bound a thread stops, where a run would go on. -/
theorem run_exceeds_step_bound :
    (∃ d stored, (⟨0, .straightLine "P" [.skip]⟩ : Thread).execute ⟨.empty, some 0⟩ (fun _ => 0)
      (.start 0) [⟨0, 0⟩] = .ok (d, stored)) ∧
      ¬ ∃ terms last, (⟨0, .straightLine "P" [.skip]⟩ : Thread).Leads ⟨.empty, some 0⟩ (.start 0)
        [⟨0, 0⟩] terms last := by
  refine ⟨⟨_, _, rfl⟩, ?_⟩
  rintro ⟨terms, last, h⟩
  cases h with
  | go first _ =>
    obtain ⟨e, -, -, hb⟩ := first.edge
    exact absurd hb (by decide)

end Thread
end Consistency
