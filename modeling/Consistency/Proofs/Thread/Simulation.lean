import Consistency.Proofs.Query.Symbols
import Consistency.Proofs.Term.Order
import Consistency.Proofs.Term.Simplify
import Consistency.Proofs.Thread.Machine

/-!
# Local states follow runs

If the symbols stand for what a run over integers loads and picks, the terms of
the kept local state have the values of the registers. The steps of the thread
then include the moves of the run, with constraints that are true.
-/

set_option autoImplicit false

namespace Consistency

/-- Symbols of choices and of reads can be given any values. -/
theorem exists_valuation (picked seen : Nat × Nat → Int) : ∃ v : Valuation,
    (∀ t k, v (Thread.choiceSymbol t k) = picked (t, k)) ∧
      ∀ t i, v (readSymbol t i) = seen (t, i) := by
  let choice (q : Nat × Nat) : String := Thread.choiceSymbol q.1 q.2
  let read (q : Nat × Nat) : String := readSymbol q.1 q.2
  have hchoice : Function.Injective choice := fun q q' h =>
    Prod.ext (choiceSymbol_injective h).1 (choiceSymbol_injective h).2
  have hread : Function.Injective read := fun q q' h =>
    Prod.ext (readSymbol_injective h).1 (readSymbol_injective h).2
  refine ⟨Function.extend choice picked (Function.extend read seen 0), fun t k => ?_,
    fun t i => ?_⟩
  · exact hchoice.extend_apply picked _ (t, k)
  · have hother : ¬ ∃ q, choice q = readSymbol t i := by
      rintro ⟨q, hq⟩
      have hstem := congrArg stem hq
      rw [stem_choiceSymbol, stem_readSymbol] at hstem
      exact absurd hstem (by decide)
    rw [Function.extend_apply' _ _ _ hother]
    exact hread.extend_apply seen _ (t, i)

def LocalState.bare (s : LocalState) : LocalState := { s with constraints := .empty }

def LocalState.Feasible (v : Valuation) (s : LocalState) : Prop :=
  ∀ t ∈ s.constraints.toList, t.Decides v.environment true

structure LocalState.Agrees (v : Valuation) (s : LocalState) (μ : Machine) : Prop where
  location : s.location = μ.location
  registers : ∀ reg, (s.register reg).Computes v.environment (μ.registers reg)

namespace LocalState
variable {v : Valuation} {s : LocalState} {μ : Machine} {t : Term} {n : Int}

theorem start_agrees (v : Valuation) (location : Nat) :
    (start location).Agrees v (.start location) :=
  ⟨rfl, fun _ => Term.computes_int _ 0⟩

theorem Agrees.eval (h : s.Agrees v μ) {u : Value}
    (ht : t.eval (Valuation.environment μ.registers) = some u) :
    (s.eval t).eval v.environment = some u := by
  refine Term.eval_simplify _ ?_
  rw [Term.eval_substitute v.environment t, ← ht]
  exact congrArg (fun env => t.eval env) (funext fun reg => h.registers reg)

theorem register_assign (s : LocalState) (reg r : String) (t : Term) :
    (s.assign reg t).register r = if r = reg then t else s.register r := by
  rw [register, LocalState.assign, OrderedMap.get?_insert]
  by_cases hr : r = reg <;> simp [hr, register]

/-- An assignment on both sides. -/
theorem registers_assign {s : LocalState} {registers : Valuation} {reg : String}
    (h : ∀ r, (s.register r).Computes v.environment (registers r))
    (ht : t.Computes v.environment n) (r : String) :
    ((s.assign reg t).register r).Computes v.environment (Function.update registers reg n r) := by
  rw [register_assign]
  by_cases hr : r = reg
  · subst hr
    simpa using ht
  · rw [Function.update_of_ne hr, if_neg hr]
    exact h r

theorem Feasible.constrain (h : s.Feasible v) (ht : t.Decides v.environment true) :
    (s.constrain t).Feasible v := by
  intro u hu
  rcases OrderedSet.mem_insert.1 hu with rfl | hu
  · exact ht
  · exact h u hu

end LocalState

namespace Thread
variable {t : Thread} {p : Precision} {v : Valuation} {s l : LocalState} {μ ν : Machine} {m : Move}

structure Recalls (v : Valuation) (t : Thread) (s : LocalState) (m : Move) : Prop where
  choice : v (choiceSymbol t.id s.steps) = m.value
  read : t.occurs s m ≠ [] → v (readSymbol t.id s.accesses) = m.value

theorem Recalls.load (h : Recalls v t s m) {e : Edge} (he : t.automaton.edge? m.edge = some e)
    {reg var : String} (hl : e.label = .load reg var) :
    v (readSymbol t.id s.accesses) = m.value := by
  refine h.read ?_
  simp [occurs, emit, access, he, hl, accessOf]

theorem pass_location (t : Thread) (p : Precision) (s : LocalState) (n : Int) (e : Edge) :
    (t.pass p s n e).location = e.target := by
  obtain ⟨source, target, label⟩ := e
  cases label <;> rfl

/-- Along a move, terms and registers change alike. -/
theorem track_agrees (h : s.Agrees v μ) (hv : Recalls v t s m) (hm : t.move μ m = some ν) :
    (t.track p s m).Agrees v ν := by
  obtain ⟨e, registers, he, -, happly, rfl⟩ := move_edge hm
  have hload : ∀ reg var, e.label = .load reg var → v (readSymbol t.id s.accesses) = m.value :=
    fun _ _ => hv.load he
  rw [track, he]
  refine ⟨pass_location t p s m.value e, ?_⟩
  obtain ⟨source, target, label⟩ := e
  cases label with
  | skip =>
    obtain rfl := Option.some.inj happly
    exact h.registers
  | assume cond =>
    obtain ⟨-, hregs⟩ := Option.ite_none_right_eq_some.1 happly
    obtain rfl := Option.some.inj hregs
    exact h.registers
  | store var value =>
    obtain ⟨-, hregs⟩ := Option.ite_none_right_eq_some.1 happly
    obtain rfl := Option.some.inj hregs
    exact h.registers
  | assign reg value =>
    simp only [Label.apply] at happly
    split at happly
    · next k hk =>
      obtain rfl := Option.some.inj happly
      exact LocalState.registers_assign h.registers (h.eval hk)
    · exact absurd happly (by simp)
  | nondet reg values =>
    obtain ⟨-, hregs⟩ := Option.ite_none_right_eq_some.1 happly
    obtain rfl := Option.some.inj hregs
    refine LocalState.registers_assign h.registers ?_
    split
    · exact Term.computes_int _ _
    · exact congrArg (fun k => some (Value.int k)) hv.choice
  | load reg var =>
    obtain rfl := Option.some.inj happly
    refine LocalState.registers_assign h.registers ?_
    exact congrArg (fun k => some (Value.int k)) (hload reg var rfl)

theorem step_eq {edge : Nat} {e : Edge} (he : t.automaton.edge? edge = some e)
    (hs : e.source = s.location) (hb : p.exhausted s.steps = false) :
    t.step p s edge = t.follow p s e := by
  have hno : ¬ (e.source ≠ s.location ∨ p.exhausted s.steps = true) := by
    rw [hb]
    simpa using hs
  simp only [step, he]
  rw [if_neg hno]

theorem exists_choice {reg : String} {values : List Int} {base : LocalState} {n : Int}
    (hn : n ∈ values) (hv : v (choiceSymbol t.id l.steps) = n) (hc : base.Feasible v) :
    ∃ next ∈ t.choose p l base reg values, next.bare = base.bare.assign reg
      (if p.tracks reg then .int n else .const (choiceSymbol t.id l.steps)) ∧ next.Feasible v := by
  have hmem : n ∈ (OrderedSet.ofList values).toList := OrderedSet.mem_ofList.2 hn
  have hne : ¬ (OrderedSet.ofList values).toList.isEmpty = true := by
    rw [List.isEmpty_iff]
    exact List.ne_nil_of_mem hmem
  unfold choose
  simp only
  rw [if_neg hne]
  by_cases hp : p.tracks reg = true
  · rw [if_pos hp, if_pos hp]
    exact ⟨_, List.mem_map.2 ⟨n, hmem, rfl⟩, rfl, hc⟩
  · rw [if_neg hp, if_neg hp]
    refine ⟨_, List.mem_singleton.2 rfl, rfl, hc.constrain ?_⟩
    have hsymbol : v.environment (choiceSymbol t.id l.steps) = some (.int n) :=
      congrArg (fun k => some (Value.int k)) hv
    exact (Term.tells_oneOf hsymbol).decides_true.2 hmem

/-- Among the states behind an edge is the one that a run leads to. -/
theorem exists_follow (h : l.bare.Agrees v μ) (hc : l.Feasible v) (hv : Recalls v t l.bare m)
    {e : Edge} {registers : Valuation}
    (happly : e.label.apply μ.registers m.value = some registers) :
    ∃ next ∈ t.follow p l e, next.bare = t.pass p l.bare m.value e ∧ next.Feasible v := by
  have hbase : (advance l e).Feasible v := hc
  obtain ⟨source, target, label⟩ := e
  cases label with
  | skip => exact ⟨_, List.mem_singleton.2 rfl, rfl, hbase⟩
  | store var value => exact ⟨_, List.mem_singleton.2 rfl, rfl, hbase⟩
  | assign reg value => exact ⟨_, List.mem_singleton.2 rfl, rfl, hbase⟩
  | load reg var => exact ⟨_, List.mem_singleton.2 rfl, rfl, hbase⟩
  | nondet reg values =>
    obtain ⟨hn, -⟩ := Option.ite_none_right_eq_some.1 happly
    exact exists_choice hn hv.choice hbase
  | assume cond =>
    obtain ⟨htrue, -⟩ := Option.ite_none_right_eq_some.1 happly
    have hguard : (l.eval cond).Decides v.environment true := h.eval htrue
    unfold follow
    simp only
    split
    · exact ⟨_, List.mem_singleton.2 rfl, rfl, hbase⟩
    · next hfalse =>
      rw [hfalse] at hguard
      exact absurd hguard (by simp [Term.decides_bool])
    · exact ⟨_, List.mem_singleton.2 rfl, rfl, hbase.constrain hguard⟩

theorem exists_step (hl : l.bare = s) (hc : l.Feasible v) (h : s.Agrees v μ)
    (hv : Recalls v t s m) (hm : t.move μ m = some ν) (hb : p.exhausted s.steps = false) :
    ∃ next ∈ t.step p l m.edge, next.bare = t.track p s m ∧ next.Feasible v := by
  subst hl
  obtain ⟨e, registers, he, hs, happly, rfl⟩ := move_edge hm
  obtain ⟨next, hnext, hbare, hfeasible⟩ := exists_follow (p := p) h hc hv happly
  have hstep : t.step p l m.edge = t.follow p l e := step_eq he (hs.trans h.location.symm) hb
  refine ⟨next, ?_, ?_, hfeasible⟩
  · rw [hstep]
    exact hnext
  · rw [hbare, track, he]
    rfl

variable {ms ns : List Move}

def RecallsAll (v : Valuation) (t : Thread) (p : Precision) (s : LocalState) : List Move → Prop
  | [] => True
  | m :: ms => Recalls v t s m ∧ RecallsAll v t p (t.track p s m) ms

theorem recallsAll_append : RecallsAll v t p s (ms ++ ns) ↔
    RecallsAll v t p s ms ∧ RecallsAll v t p (t.trackAll p s ms) ns := by
  induction ms generalizing s with
  | nil => simp [RecallsAll, trackAll]
  | cons m ms ih =>
    rw [List.cons_append, RecallsAll, RecallsAll, ih, and_assoc]
    rfl

theorem RecallsAll.at (h : RecallsAll v t p s ms) {k : Nat} (hm : ms[k]? = some m) :
    RecallsAll v t p s (ms.take k) ∧ Recalls v t (t.trackAll p s (ms.take k)) m := by
  have hsplit : ms = ms.take k ++ m :: ms.drop (k + 1) := by
    obtain ⟨hk, rfl⟩ := List.getElem?_eq_some_iff.1 hm
    rw [List.cons_getElem_drop_succ, List.take_append_drop]
  rw [hsplit, recallsAll_append] at h
  exact ⟨h.1, h.2.1⟩

/-- Symbols are numbered by the steps and by the uses of memory before. -/
theorem recallsAll_of_numbered (hplay : t.play μ ms = some ν)
    (hc : ∀ (k : Nat) (m : Move), ms[k]? = some m → v (choiceSymbol t.id (s.steps + k)) = m.value)
    (hr : ∀ (i : Nat) (o : Occurrence), (t.occurrences p s ms)[i]? = some o →
      v (readSymbol t.id (s.accesses + i)) = o.value) : RecallsAll v t p s ms := by
  induction ms generalizing s μ with
  | nil => trivial
  | cons m ms ih =>
    obtain ⟨μ', hm, hrest⟩ := Option.bind_eq_some_iff.1 hplay
    refine ⟨⟨hc 0 m rfl, fun hne => ?_⟩, ih hrest (fun k m' hk => ?_) fun i o ho => ?_⟩
    · obtain ⟨o, os, ho⟩ := List.exists_cons_of_ne_nil hne
      have hvalue : o.value = m.value := by
        obtain ⟨e, -, rfl⟩ := List.mem_map.1 (show o ∈ t.occurs s m by simp [ho])
        rfl
      rw [← hvalue]
      exact hr 0 o (by simp [occurrences, ho])
    · rw [track_steps hm, Nat.add_assoc, Nat.add_comm 1]
      exact hc (k + 1) m' hk
    · rw [track_accesses, Nat.add_assoc]
      refine hr _ o ?_
      rw [occurrences, List.getElem?_append_right (Nat.le_add_right _ _), Nat.add_sub_cancel_left]
      exact ho

theorem trackAll_agrees (h : s.Agrees v μ) (hv : RecallsAll v t p s ms)
    (hplay : t.play μ ms = some ν) : (t.trackAll p s ms).Agrees v ν := by
  induction ms generalizing s μ with
  | nil =>
    obtain rfl := Option.some.inj hplay
    exact h
  | cons m ms ih =>
    obtain ⟨μ', hm, hrest⟩ := Option.bind_eq_some_iff.1 hplay
    exact ih (track_agrees h hv.1 hm) hv.2 hrest

/-- What a move writes or reads is the value of the term in its event. -/
theorem occurs_computes (h : s.Agrees v μ) (hv : Recalls v t s m) (hm : t.move μ m = some ν) :
    ∀ o ∈ t.occurs s m, o.event.valueTerm.Computes v.environment o.value := by
  obtain ⟨e, registers, he, -, happly, -⟩ := move_edge hm
  have hread := hv.read
  obtain ⟨source, target, label⟩ := e
  simp only [occurs, emit, access, he, Option.bind_some] at hread ⊢
  cases label with
  | load reg var =>
    intro o ho
    obtain rfl := List.mem_singleton.1 ho
    exact congrArg (fun k => some (Value.int k)) (hread (by simp [accessOf]))
  | store var value =>
    intro o ho
    obtain rfl := List.mem_singleton.1 ho
    exact h.eval (Option.ite_none_right_eq_some.1 happly).1
  | _ =>
    intro o ho
    exact absurd ho (by simp [accessOf])

theorem occurrences_compute (h : s.Agrees v μ) (hv : RecallsAll v t p s ms)
    (hplay : t.play μ ms = some ν) :
    ∀ o ∈ t.occurrences p s ms, o.event.valueTerm.Computes v.environment o.value := by
  induction ms generalizing s μ with
  | nil => simp [occurrences]
  | cons m ms ih =>
    obtain ⟨μ', hm, hrest⟩ := Option.bind_eq_some_iff.1 hplay
    intro o ho
    rcases List.mem_append.1 ho with ho | ho
    · exact occurs_computes h hv.1 hm o ho
    · exact ih (track_agrees h hv.1 hm) hv.2 hrest o ho

/-- Constraints make no difference to the event of a step. -/
theorem emit_bare (t : Thread) (l : LocalState) (edge number : Nat) :
    t.emit l.bare edge number = t.emit l edge number := rfl

end Thread
end Consistency
