import Consistency.Proofs.Cnf.Extension
import Consistency.Proofs.Cnf.Gates
import Consistency.Proofs.Ordered.Map
import Consistency.Proofs.Ordered.Distinct
import Consistency.Proofs.Ordered.Set

/-!
# Declarations and domains

Before anything is asserted, each Boolean constant has a variable of its own
and each integer constant one indicator for each value of its domain. Every
assignment within the domains fits some valuation, and under every valuation in
which the clauses hold exactly one indicator of a constant is true.
-/

set_option autoImplicit false

namespace Consistency
variable {e f : Encoder}

namespace Symbol

def Admits (v : Option Value) : Symbol → Prop
  | .bool _ => ∃ b, v = some (.bool b)
  | .int cases => ∃ n ∈ cases.map Prod.snd, v = some (.int n)
  | .unbound => False

def Follows (τ : Nat → Bool) (v : Option Value) : Symbol → Prop
  | .bool l => ∀ b, v = some (.bool b) → l.holds τ = b
  | .int cases => ∀ g n, (g, n) ∈ cases → v = some (.int n) → g.holds τ = true
  | .unbound => True

end Symbol

namespace Encoder

structure Bound (e : Encoder) : Prop where
  top : [.top] ∈ e.definitions
  pos : 0 < e.vars
  closed : ∀ d ∈ e.definitions, ∀ l ∈ d, l.var < e.vars
  lits : ∀ (x : String) (s : Symbol), e.symbols[x]? = some s → ∀ l ∈ s.lits, l.var < e.vars
  picks : ∀ (x : String) (cases : Cases), e.symbols[x]? = some (.int cases) →
    ∀ τ, e.Satisfies τ → ∃ n, Picks τ cases n
  realize : ∀ a : Environment,
    (∀ (x : String) (cases : Cases), e.symbols[x]? = some (.int cases) →
      (Symbol.int cases).Admits (a x)) →
    ∃ τ, e.Satisfies τ ∧
      ∀ (x : String) (s : Symbol), e.symbols[x]? = some s → s.Follows τ (a x)

/-- One indicator follows the value, so the others do. -/
theorem Bound.shows (h : e.Bound) {τ : Nat → Bool} (hτ : e.Satisfies τ) {x : String} {s : Symbol}
    (hs : e.symbols[x]? = some s) {v : Option Value} (ha : s.Admits v) (hf : s.Follows τ v) :
    s.Shows τ v := by
  cases s with
  | bool l =>
    obtain ⟨b, rfl⟩ := ha
    exact congrArg (fun b => some (Value.bool b)) (hf b rfl).symm
  | int cases =>
    obtain ⟨n, hn, rfl⟩ := ha
    obtain ⟨⟨g, m⟩, hg, rfl⟩ := List.mem_map.1 hn
    obtain ⟨k, hk⟩ := h.picks x cases hs τ hτ
    have hgt : g.holds τ = true := hf g m hg rfl
    obtain rfl : m = k := hk.2 g m hg hgt
    exact ⟨m, rfl, hk⟩
  | unbound => trivial

structure Declared (ds : List (String × ValueSort)) (e : Encoder) : Prop where
  bound : e.Bound
  definitions : e.definitions = [[.top]]
  asserted : e.asserted = []
  known : e.known = ∅
  vars : e.vars = 1 + ds.countP (fun d => d.2 = .bool)
  sorts : ∀ x, match ds.reverse.lookup x with
    | some .bool => ∃ l, e.symbols[x]? = some (.bool l)
    | some .int => e.symbols[x]? = some .unbound
    | some (.uninterpreted _) => False
    | none => e.symbols[x]? = none

section Declared
variable {ds : List (String × ValueSort)} {x : String}

theorem Declared.symbol_of_bool (h : e.Declared ds) (hx : ds.reverse.lookup x = some .bool) :
    ∃ l, e.symbols[x]? = some (.bool l) := by
  have hsort := h.sorts x
  rwa [hx] at hsort

theorem Declared.symbol_of_int (h : e.Declared ds) (hx : ds.reverse.lookup x = some .int) :
    e.symbols[x]? = some .unbound := by
  have hsort := h.sorts x
  rwa [hx] at hsort

/-- A name that is found was declared as a Boolean or as an integer. -/
theorem Declared.symbol_cases (h : e.Declared ds) {s : Symbol} (hx : e.symbols[x]? = some s) :
    (∃ l, s = .bool l ∧ ds.reverse.lookup x = some .bool) ∨
      s = .unbound ∧ ds.reverse.lookup x = some .int := by
  have hsort := h.sorts x
  rw [hx] at hsort
  split at hsort
  · next hbool =>
    obtain ⟨l, hl⟩ := hsort
    exact .inl ⟨l, Option.some.inj hl, hbool⟩
  · next hint => exact .inr ⟨Option.some.inj hsort, hint⟩
  · exact hsort.elim
  · exact absurd hsort (by simp)

theorem Declared.no_domain (h : e.Declared ds) (x : String) (cases : Cases) :
    e.symbols[x]? ≠ some (.int cases) := by
  intro hx
  rcases h.symbol_cases hx with ⟨l, hl, -⟩ | ⟨hu, -⟩
  · exact absurd hl (by simp)
  · exact absurd hu (by simp)

end Declared

theorem initial_declared : initial.Declared [] where
  bound := {
    top := by simp [initial]
    pos := by simp [initial]
    closed := by simp [initial, Lit.top]
    lits := by simp [initial]
    picks := by simp [initial]
    realize := fun a _ => ⟨fun _ => true, by simp [Satisfies, initial, Clause.holds, Lit.holds,
      Lit.top], by simp [initial]⟩ }
  definitions := rfl
  asserted := rfl
  known := rfl
  vars := rfl
  sorts := by simp [initial]

theorem lookup_reverse_append {κ β : Type} [BEq κ] [LawfulBEq κ] (ds : List (κ × β)) (k x : κ)
    (v : β) : (ds ++ [(k, v)]).reverse.lookup x =
      if x == k then some v else ds.reverse.lookup x := by
  rw [List.reverse_append, List.reverse_singleton, List.singleton_append]
  cases h : x == k <;> simp [List.lookup_cons, h]

section Declarations
variable {ds : List (String × ValueSort)}

/-- A declaration changes what is known of its own name only. -/
theorem declaration_cases (e : Encoder) (x : String) (sort : ValueSort) (s : Symbol) (y : String) :
    (ds ++ [(x, sort)]).reverse.lookup y = some sort ∧ (e.symbols.insert x s)[y]? = some s ∨
      (ds ++ [(x, sort)]).reverse.lookup y = ds.reverse.lookup y ∧
        (e.symbols.insert x s)[y]? = e.symbols[y]? := by
  rw [lookup_reverse_append, Std.HashMap.getElem?_insert, BEq.comm]
  cases x == y with
  | true => exact .inl ⟨rfl, rfl⟩
  | false => exact .inr ⟨rfl, rfl⟩

theorem Declared.no_domain_insert (h : e.Declared ds) {x y : String} {s : Symbol} {cases : Cases}
    (hs : s ≠ .int cases) : (e.symbols.insert x s)[y]? ≠ some (.int cases) := by
  rw [Std.HashMap.getElem?_insert]
  split
  · exact fun heq => hs (Option.some.inj heq)
  · exact h.no_domain y cases

/-- The variable of a new Boolean is as its value says, and the others are as they were. -/
theorem Declared.realize_bool (h : e.Declared ds) (x : String) (a : Environment) :
    ∃ τ, e.Satisfies τ ∧ ∀ (y : String) (s : Symbol),
      (e.symbols.insert x (.bool ⟨e.vars, true⟩))[y]? = some s → s.Follows τ (a y) := by
  obtain ⟨τ, hτ, hf⟩ := h.bound.realize a fun y cs hy => absurd hy (h.no_domain y cs)
  have hold : ∀ v < e.vars, Function.update τ e.vars (a x == some (.bool true)) v = τ v :=
    fun v hv => Function.update_of_ne hv.ne _ _
  refine ⟨Function.update τ e.vars (a x == some (.bool true)), ?_, ?_⟩
  · intro d hd
    rw [holds_below (h.bound.closed d hd) hold]
    exact hτ d hd
  · intro y s hs
    rw [Std.HashMap.getElem?_insert] at hs
    split at hs
    · next hxy =>
      obtain rfl := eq_of_beq hxy
      obtain rfl := Option.some.inj hs
      intro b hb
      cases b <;> simp [Lit.holds, hb]
    · have hfs := hf y s hs
      cases s with
      | bool l =>
        intro b hb
        rw [← hfs b hb]
        exact Lit.holds_congr (hold _ (h.bound.lits y _ hs l (by simp [Symbol.lits])))
      | int cases => exact absurd hs (h.no_domain y cases)
      | unbound => trivial

theorem Declared.bool (h : e.Declared ds) (x : String) :
    Declared (ds ++ [(x, .bool)])
      { e with vars := e.vars + 1, symbols := e.symbols.insert x (.bool ⟨e.vars, true⟩) } where
  bound := {
    top := h.bound.top
    pos := Nat.succ_pos _
    closed := fun d hd l hl => (h.bound.closed d hd l hl).trans (Nat.lt_succ_self _)
    lits := by
      intro y s hs l hl
      rw [Std.HashMap.getElem?_insert] at hs
      split at hs
      · obtain rfl := Option.some.inj hs
        obtain rfl := List.mem_singleton.1 hl
        exact Nat.lt_succ_self _
      · exact (h.bound.lits y s hs l hl).trans (Nat.lt_succ_self _)
    picks := fun _ _ hy => absurd hy (h.no_domain_insert (by simp))
    realize := fun a _ => h.realize_bool x a }
  definitions := h.definitions
  asserted := h.asserted
  known := h.known
  vars := by
    have := h.vars
    simp only [List.countP_append, List.countP_cons, List.countP_nil, decide_true, if_true]
    omega
  sorts := by
    intro y
    rcases declaration_cases e x .bool (.bool ⟨e.vars, true⟩) y with ⟨hsort, hs⟩ | ⟨hsort, hs⟩
    · rw [hsort]
      exact ⟨_, hs⟩
    · rw [hsort, hs]
      exact h.sorts y

theorem Declared.int (h : e.Declared ds) (x : String) :
    Declared (ds ++ [(x, .int)]) { e with symbols := e.symbols.insert x .unbound } where
  bound := {
    top := h.bound.top
    pos := h.bound.pos
    closed := h.bound.closed
    lits := by
      intro y s hs l hl
      rw [Std.HashMap.getElem?_insert] at hs
      split at hs
      · obtain rfl := Option.some.inj hs
        exact absurd hl (by simp [Symbol.lits])
      · exact h.bound.lits y s hs l hl
    picks := fun _ _ hy => absurd hy (h.no_domain_insert (by simp))
    realize := by
      intro a _
      obtain ⟨τ, hτ, hf⟩ := h.bound.realize a fun y cs hy => absurd hy (h.no_domain y cs)
      refine ⟨τ, hτ, fun y s hs => ?_⟩
      rw [Std.HashMap.getElem?_insert] at hs
      split at hs
      · obtain rfl := Option.some.inj hs
        trivial
      · exact hf y s hs }
  definitions := h.definitions
  asserted := h.asserted
  known := h.known
  vars := by simpa using h.vars
  sorts := by
    intro y
    rcases declaration_cases e x .int .unbound y with ⟨hsort, hs⟩ | ⟨hsort, hs⟩
    · rw [hsort]
      exact hs
    · rw [hsort, hs]
      exact h.sorts y

end Declarations

end Encoder

namespace Encode
open Encoder

theorem declare_declared {ds : List (String × ValueSort)} (hd : e.Declared ds) {x : String}
    {sort : ValueSort} {u : Unit} (h : Runs (declare x sort) e u f) :
    f.Declared (ds ++ [(x, sort)]) := by
  cases sort with
  | bool =>
    simp only [declare, define, Runs.bind_iff, runs_fresh, Runs.modify_iff] at h
    obtain ⟨_, _, ⟨rfl, rfl⟩, rfl⟩ := h
    exact hd.bool x
  | int =>
    simp only [declare, define, Runs.modify_iff] at h
    subst h
    exact hd.int x
  | uninterpreted name => exact absurd h runs_fail

theorem declareFrom_declared {ds : List (String × ValueSort)} (hd : e.Declared ds) {c : Command}
    {u : Unit} (h : Runs (declareFrom c) e u f) : f.Declared (ds ++ c.declared.toList) := by
  have stay : ∀ {c : Command}, c.declared = none → Runs (pure () : Encode Unit) e u f →
      f.Declared (ds ++ c.declared.toList) := by
    intro c hc h
    obtain ⟨_, rfl⟩ := Runs.pure_iff.1 h
    simpa [hc] using hd
  cases c with
  | declareConst x sort => exact declare_declared hd h
  | declareFun x params sort =>
    cases params with
    | nil => exact declare_declared hd h
    | cons p ps => exact absurd h runs_giveUp
  | defineFun x params sort body => exact absurd h runs_giveUp
  | push n => exact absurd h runs_fail
  | pop n => exact absurd h runs_fail
  | setLogic _ | setOption _ _ | assert _ | checkSat | getModel | getValue _ | comment _ | exit =>
    exact stay rfl h

theorem declarations_declared {cs : List Command} {ds : List (String × ValueSort)}
    (hd : e.Declared ds) {u : Unit} (h : Runs (cs.forM declareFrom) e u f) :
    f.Declared (ds ++ cs.filterMap Command.declared) := by
  induction cs generalizing e ds with
  | nil =>
    obtain rfl := Runs.forM_nil.1 h
    simpa using hd
  | cons c cs ih =>
    obtain ⟨g, hc, hcs⟩ := Runs.forM_cons.1 h
    have := ih (declareFrom_declared hd hc) hcs
    rw [List.append_assoc] at this
    rw [List.filterMap_cons]
    cases hdc : c.declared with
    | none => simpa [hdc] using this
    | some d => simpa [hdc] using this

def indicators (n : Nat) (values : List Int) : Cases :=
  (values.zipIdx n).map fun p => (⟨p.2, true⟩, p.1)

theorem indicators_cons (n : Nat) (v : Int) (values : List Int) :
    indicators n (v :: values) = (⟨n, true⟩, v) :: indicators (n + 1) values := rfl

theorem values_indicators (n : Nat) (values : List Int) :
    (indicators n values).map Prod.snd = values := by
  induction values generalizing n with
  | nil => rfl
  | cons v values ih => rw [indicators_cons, List.map_cons, ih]

theorem vars_indicators (n : Nat) (values : List Int) :
    (indicators n values).map (fun z => z.1.var) = List.range' n values.length := by
  induction values generalizing n with
  | nil => rfl
  | cons v values ih => rw [indicators_cons, List.map_cons, ih, List.length_cons, List.range'_succ]

theorem runs_indicators {values : List Int} {zs : Cases}
    (h : Runs (values.mapM fun v => do return (← fresh, v)) e zs f) :
    zs = indicators e.vars values ∧ f = { e with vars := e.vars + values.length } := by
  induction values generalizing e zs with
  | nil =>
    obtain ⟨rfl, rfl⟩ := Runs.mapM_nil.1 h
    exact ⟨rfl, rfl⟩
  | cons v values ih =>
    obtain ⟨z, zs, g, rfl, hz, hzs⟩ := Runs.mapM_cons.1 h
    simp only [Runs.bind_iff, Runs.pure_iff, runs_fresh] at hz
    obtain ⟨_, _, ⟨rfl, rfl⟩, rfl, rfl⟩ := hz
    obtain ⟨rfl, rfl⟩ := ih hzs
    refine ⟨rfl, ?_⟩
    simp only [List.length_cons]
    congr 1
    omega

theorem atMostOne_iff (τ : Nat → Bool) (ls : List Lit) :
    (∀ d ∈ atMostOne ls, Clause.holds τ d = true) ↔
      ls.Pairwise fun l k => ¬ (l.holds τ = true ∧ k.holds τ = true) := by
  induction ls with
  | nil => simp [atMostOne]
  | cons l ls ih =>
    simp only [atMostOne, List.forall_mem_append, ih, List.pairwise_cons, List.forall_mem_map]
    refine and_congr_left fun _ => forall₂_congr fun k _ => ?_
    cases hl : l.holds τ <;> cases hk : k.holds τ <;> simp [Clause.holds, hl, hk]

theorem mem_atMostOne {ls : List Lit} {d : Clause} (h : d ∈ atMostOne ls) {k : Lit} (hk : k ∈ d) :
    ∃ l ∈ ls, k.var = l.var := by
  induction ls with
  | nil => exact absurd h (by simp [atMostOne])
  | cons l ls ih =>
    rcases List.mem_append.1 h with h | h
    · obtain ⟨m, hm, rfl⟩ := List.mem_map.1 h
      simp only [List.mem_cons, List.not_mem_nil, or_false] at hk
      rcases hk with rfl | rfl
      · exact ⟨l, by simp, rfl⟩
      · exact ⟨m, by simp [hm], rfl⟩
    · obtain ⟨m, hm, he⟩ := ih h
      exact ⟨m, List.mem_cons_of_mem _ hm, he⟩

/-- The clauses say that exactly one indicator is true. -/
theorem picks_of_clauses {τ : Nat → Bool} {zs : Cases}
    (hsome : Clause.holds τ (zs.map Prod.fst) = true)
    (hone : ∀ d ∈ atMostOne (zs.map Prod.fst), Clause.holds τ d = true) : ∃ n, Picks τ zs n := by
  obtain ⟨l, hl, ht⟩ := Clause.holds_iff.1 hsome
  obtain ⟨⟨g, n⟩, hg, rfl⟩ := List.mem_map.1 hl
  rw [atMostOne_iff, List.pairwise_map] at hone
  refine ⟨n, ⟨g, hg, ht⟩, fun k m hk hkt => ?_⟩
  by_contra hne
  have hsymm : Std.Symm fun a b : Lit × Int => ¬ (a.1.holds τ = true ∧ b.1.holds τ = true) :=
    ⟨fun _ _ h hab => h hab.symm⟩
  exact hone.forall hk hg (fun he => hne (congrArg Prod.snd he)) ⟨hkt, ht⟩

def withDomain (e : Encoder) (x : String) (values : List Int) : Encoder :=
  let zs := indicators e.vars values
  { e with
    vars := e.vars + values.length
    definitions := (atMostOne (zs.map Prod.fst)).reverse ++ zs.map Prod.fst :: e.definitions
    symbols := e.symbols.insert x (.int zs) }

theorem runs_bindDomain {x : String} {values : List Int} {u : Unit}
    (h : Runs (bindDomain x values) e u f) : f = withDomain e x values := by
  simp only [bindDomain, define, Runs.bind_iff, runs_emit, Runs.modify_iff] at h
  obtain ⟨zs, _, hz, _, _, rfl, _, g, hone, rfl⟩ := h
  obtain ⟨rfl, rfl⟩ := runs_indicators hz
  have := runs_forM_emit id hone
  rw [List.map_id] at this
  rw [this]
  rfl

theorem mem_indicators {n : Nat} {values : List Int} {z : Lit × Int}
    (h : z ∈ indicators n values) : ∃ i, values[i]? = some z.2 ∧ z.1 = ⟨n + i, true⟩ := by
  induction values generalizing n with
  | nil => exact absurd h (by simp [indicators])
  | cons v values ih =>
    rw [indicators_cons] at h
    rcases List.mem_cons.1 h with rfl | h
    · exact ⟨0, rfl, rfl⟩
    · obtain ⟨i, hi, hz⟩ := ih h
      refine ⟨i + 1, by simpa using hi, ?_⟩
      rw [hz]
      congr 1
      omega

theorem lt_of_mem_indicators {n : Nat} {values : List Int} {z : Lit × Int}
    (h : z ∈ indicators n values) : z.1.var < n + values.length := by
  obtain ⟨i, hi, hz⟩ := mem_indicators h
  obtain ⟨hlt, -⟩ := List.getElem?_eq_some_iff.1 hi
  rw [hz]
  exact Nat.add_lt_add_left hlt n

theorem withDomain_closed (hb : e.Bound) {x : String} {values : List Int} :
    ∀ d ∈ (withDomain e x values).definitions, ∀ l ∈ d, l.var < (withDomain e x values).vars := by
  have hz : ∀ l ∈ (indicators e.vars values).map Prod.fst, l.var < e.vars + values.length := by
    intro l hl
    obtain ⟨z, hz, rfl⟩ := List.mem_map.1 hl
    exact lt_of_mem_indicators hz
  intro d hd l hl
  rcases List.mem_append.1 hd with hd | hd
  · obtain ⟨k, hk, he⟩ := mem_atMostOne (List.mem_reverse.1 hd) hl
    rw [he]
    exact hz k hk
  · rcases List.mem_cons.1 hd with rfl | hd
    · exact hz l hl
    · exact (hb.closed d hd l hl).trans_le (Nat.le_add_right _ _)

theorem withDomain_satisfies {x : String} {values : List Int} {τ : Nat → Bool} :
    (withDomain e x values).Satisfies τ ↔
      (∀ d ∈ atMostOne ((indicators e.vars values).map Prod.fst), Clause.holds τ d = true) ∧
        Clause.holds τ ((indicators e.vars values).map Prod.fst) = true ∧ e.Satisfies τ := by
  simp only [Satisfies, withDomain, List.forall_mem_append, List.mem_reverse,
    List.forall_mem_cons]

def extendBy (τ : Nat → Bool) (n : Nat) (values : List Int) (v : Option Value) : Nat → Bool :=
  fun k => if k < n then τ k else (values[k - n]?).any fun m => v == some (.int m)

theorem holds_extendBy {τ : Nat → Bool} {n : Nat} {values : List Int} {v : Option Value}
    {z : Lit × Int} (h : z ∈ indicators n values) :
    z.1.holds (extendBy τ n values v) = (v == some (.int z.2)) := by
  obtain ⟨i, hi, hz⟩ := mem_indicators h
  simp [hz, Lit.holds, extendBy, hi]

theorem extendBy_satisfies (hb : e.Bound) {x : String} {values : List Int} (hn : values.Nodup)
    {τ : Nat → Bool} (hτ : e.Satisfies τ) {n : Int} (hmem : n ∈ values) :
    (withDomain e x values).Satisfies (extendBy τ e.vars values (some (.int n))) := by
  rw [withDomain_satisfies, atMostOne_iff, List.pairwise_map, Clause.holds_iff]
  refine ⟨?_, ?_, fun d hd => ?_⟩
  · have hz : (indicators e.vars values).Pairwise fun a b => a.2 ≠ b.2 := by
      rw [← List.pairwise_map (f := Prod.snd) (R := (· ≠ ·)), values_indicators]
      exact hn
    refine hz.imp_of_mem fun ha hb hne hab => hne ?_
    rw [holds_extendBy ha, holds_extendBy hb] at hab
    simp only [beq_iff_eq, Option.some.injEq, Value.int.injEq] at hab
    exact hab.1.symm.trans hab.2
  · rw [← values_indicators e.vars values] at hmem
    obtain ⟨z, hz, rfl⟩ := List.mem_map.1 hmem
    exact ⟨z.1, List.mem_map_of_mem hz, by rw [holds_extendBy hz, beq_self_eq_true]⟩
  · have hold : ∀ v < e.vars, extendBy τ e.vars values (some (.int n)) v = τ v :=
      fun v hv => by simp [extendBy, hv]
    rw [holds_below (hb.closed d hd) hold]
    exact hτ d hd

theorem bound_withDomain (hb : e.Bound) {x : String} {values : List Int}
    (hx : ∀ cases, e.symbols[x]? ≠ some (.int cases)) (hn : values.Nodup) :
    (withDomain e x values).Bound where
  top := List.mem_append_right _ (List.mem_cons_of_mem _ hb.top)
  pos := Nat.add_pos_left hb.pos _
  closed := withDomain_closed hb
  lits := by
    intro y s hs l hl
    rw [withDomain, Std.HashMap.getElem?_insert] at hs
    split at hs
    · obtain rfl := Option.some.inj hs
      obtain ⟨z, hz, rfl⟩ := List.mem_map.1 hl
      exact lt_of_mem_indicators hz
    · exact (hb.lits y s hs l hl).trans_le (Nat.le_add_right _ _)
  picks := by
    intro y cases hy τ hτ
    obtain ⟨hone, hsome, hτ⟩ := withDomain_satisfies.1 hτ
    rw [withDomain, Std.HashMap.getElem?_insert] at hy
    split at hy
    · obtain rfl := Symbol.int.inj (Option.some.inj hy)
      exact picks_of_clauses hsome hone
    · exact hb.picks y cases hy τ hτ
  realize := by
    intro a ha
    have hself : (withDomain e x values).symbols[x]? =
        some (.int (indicators e.vars values)) := by simp [withDomain]
    have hother : ∀ {y s}, y ≠ x → e.symbols[y]? = some s →
        (withDomain e x values).symbols[y]? = some s := by
      intro y s hne hs
      simp [withDomain, Std.HashMap.getElem?_insert, hne.symm, hs]
    obtain ⟨n, hmem, hax⟩ := ha x _ hself
    rw [values_indicators] at hmem
    obtain ⟨τ, hτ, hf⟩ := hb.realize a fun y cases hy =>
      ha y cases (hother (fun he => hx cases (he ▸ hy)) hy)
    refine ⟨extendBy τ e.vars values (a x), ?_, fun y s hs => ?_⟩
    · rw [hax]
      exact extendBy_satisfies hb hn hτ hmem
    · rw [withDomain, Std.HashMap.getElem?_insert] at hs
      split at hs
      · next hxy =>
        obtain rfl := eq_of_beq hxy
        obtain rfl := Option.some.inj hs
        intro g m hg hm
        rw [holds_extendBy hg, hm, beq_self_eq_true]
      · have hfs := hf y s hs
        have hold : ∀ l ∈ s.lits, l.holds (extendBy τ e.vars values (a x)) = l.holds τ :=
          fun l hl => Lit.holds_congr (by simp [extendBy, hb.lits y s hs l hl])
        cases s with
        | bool l => exact fun b hv => (hold l (by simp [Symbol.lits])).trans (hfs b hv)
        | int cases =>
          exact fun g m hg hm => (hold g (List.mem_map_of_mem hg)).trans (hfs g m hg hm)
        | unbound => trivial

end Encode
end Consistency
