import Consistency.Proofs.Cnf.Script
import Consistency.Proofs.Term.Sort

/-!
# Scripts that are encoded

Formulas and integer terms in which every constant is declared with the sort
it is used with, and every integer constant has a domain, are encoded without
an error. The only way to stop is arithmetic that is undefined or has too many
cases; without arithmetic there is none.
-/

set_option autoImplicit false

namespace Consistency

namespace Encode
open Encoder

/-- Stopping there is no error: arithmetic that overflows or divides by zero for some values, or
that has too many of them. -/
inductive Excused : Stop → Prop
  | undefinedValue (t : Term) : Excused (.gaveUp (.undefinedValue t))
  | tooManyCases (t : Term) : Excused (.gaveUp (.tooManyCases t))

/-- When the symbols are `s`, the computation has a result and leaves them, or stops as `q` says. -/
def Ends {α : Type} (q : Stop → Prop) (s : Std.HashMap String Symbol) (m : Encode α) : Prop :=
  ∀ e : Encoder, e.symbols = s →
    (∃ a f, Runs m e a f ∧ f.symbols = s) ∨ ∃ why, m.run e = .error why ∧ q why

variable {q : Stop → Prop} {s : Std.HashMap String Symbol}

section Ends
variable {α β : Type} {m : Encode α} {k : α → Encode β}

theorem ends_pure (a : α) : Ends q s (pure a : Encode α) :=
  fun e he => .inl ⟨a, e, Runs.pure_iff.2 ⟨rfl, rfl⟩, he⟩

theorem ends_stop {why : Stop} (h : q why) : Ends q s (throw why : Encode α) :=
  fun _ _ => .inr ⟨why, rfl, h⟩

theorem ends_stop_bind {why : Stop} (h : q why) (k : α → Encode β) :
    Ends q s ((throw why : Encode α) >>= k) :=
  fun _ _ => .inr ⟨why, rfl, h⟩

theorem ends_modify {f : Encoder → Encoder} (hf : ∀ e, (f e).symbols = e.symbols) :
    Ends q s (modify f) :=
  fun e he => .inl ⟨⟨⟩, f e, Runs.modify_iff.2 rfl, (hf e).trans he⟩

theorem ends_fresh : Ends q s fresh :=
  fun e he => .inl ⟨_, { e with vars := e.vars + 1 }, Runs.modifyGet_iff.2 rfl, he⟩

theorem ends_emit (d : Clause) : Ends q s (emit d) := ends_modify fun _ => rfl

theorem Ends.bind (hm : Ends q s m) (hk : ∀ a, Ends q s (k a)) : Ends q s (m >>= k) := by
  intro e he
  rcases hm e he with ⟨a, f, hf, hs⟩ | ⟨why, hwhy, hq⟩
  · rcases hk a f hs with ⟨b, g, hg, hs⟩ | ⟨why, hwhy, hq⟩
    · exact .inl ⟨b, g, Runs.bind_iff.2 ⟨a, f, hf, hg⟩, hs⟩
    · exact .inr ⟨why, (hf.run_bind k).trans hwhy, hq⟩
  · refine .inr ⟨why, ?_, hq⟩
    rw [StateT.run_bind, hwhy]
    rfl

/-- What is read are the symbols. -/
theorem ends_get {k : Encoder → Encode β} (hk : ∀ e, e.symbols = s → Ends q s (k e)) :
    Ends q s (get >>= k) := by
  intro e he
  rcases hk e he e he with ⟨b, g, hg, hs⟩ | ⟨why, hwhy, hq⟩
  · exact .inl ⟨b, g, Runs.bind_iff.2 ⟨e, e, Runs.get_iff.2 ⟨rfl, rfl⟩, hg⟩, hs⟩
  · exact .inr ⟨why, hwhy, hq⟩

theorem ends_symbol {k : Option Symbol → Encode β} {x : String} (hk : Ends q s (k s[x]?)) :
    Ends q s (symbol x >>= k) := by
  unfold symbol
  rw [bind_assoc]
  apply ends_get
  intro e he
  rwa [pure_bind, he]

theorem ends_mapM {xs : List α} {k : α → Encode β} (hk : ∀ a ∈ xs, Ends q s (k a)) :
    Ends q s (xs.mapM k) := by
  induction xs with
  | nil => exact ends_pure []
  | cons x xs ih =>
    rw [List.mapM_cons]
    exact (hk x (by simp)).bind fun _ =>
      (ih fun a ha => hk a (List.mem_cons_of_mem _ ha)).bind fun _ => ends_pure _

theorem ends_forM {xs : List α} {k : α → Encode PUnit} (hk : ∀ a ∈ xs, Ends q s (k a)) :
    Ends q s (xs.forM k) := by
  induction xs with
  | nil => exact ends_pure _
  | cons x xs ih =>
    exact (hk x (by simp)).bind fun _ => ih fun a ha => hk a (List.mem_cons_of_mem _ ha)

theorem ends_foldlM {xs : List α} {k : β → α → Encode β} (hk : ∀ b, ∀ a ∈ xs, Ends q s (k b a))
    (b : β) : Ends q s (xs.foldlM k b) := by
  induction xs generalizing b with
  | nil => exact ends_pure b
  | cons x xs ih =>
    rw [List.foldlM_cons]
    exact (hk b x (by simp)).bind fun d => ih (fun b a ha => hk b a (List.mem_cons_of_mem _ ha)) d

end Ends

theorem ends_conj (ls : List Lit) : Ends q s (conj ls) := by
  unfold conj
  split
  · exact ends_pure _
  · exact ends_pure _
  · exact ends_pure _
  · exact ends_fresh.bind fun v => (ends_forM fun _ _ => ends_emit _).bind fun _ =>
      (ends_emit _).bind fun _ => ends_pure v

theorem ends_disj (ls : List Lit) : Ends q s (disj ls) :=
  (ends_conj _).bind fun _ => ends_pure _

theorem ends_equivalence (a b : Lit) : Ends q s (equivalence a b) := by
  unfold equivalence
  split_ifs
  · exact ends_pure _
  · exact ends_pure _
  · exact ends_pure _
  · exact ends_pure _
  · exact ends_pure _
  · exact ends_pure _
  · exact ends_fresh.bind fun v => (ends_emit _).bind fun _ => (ends_emit _).bind fun _ =>
      (ends_emit _).bind fun _ => (ends_emit _).bind fun _ => ends_pure v

theorem ends_choice (a b d : Lit) : Ends q s (choice a b d) :=
  (ends_conj _).bind fun _ => (ends_conj _).bind fun _ => ends_disj _

theorem ends_relate (rel : Int → Int → Bool) (xs ys : Cases) : Ends q s (relate rel xs ys) :=
  (ends_mapM fun _ _ => ends_conj _).bind fun _ => ends_disj _

theorem ends_merge (m : Guards) : Ends q s (merge m) :=
  (ends_mapM fun _ _ => (ends_disj _).bind fun _ => ends_pure _).bind fun _ => ends_pure _

theorem ends_guarded (a : Lit) (cases : Cases) (m : Guards) : Ends q s (guarded a cases m) :=
  ends_foldlM (fun _ _ _ => (ends_conj _).bind fun _ => ends_pure _) m

section Arithmetic
variable (hq : ∀ why, Excused why → q why)
include hq

theorem ends_combine (whole : Term) (op : Int → Int → Option Int) (xs ys : Cases) :
    Ends q s (combine whole op xs ys) := by
  unfold combine
  split
  · exact ends_stop_bind (hq _ (.tooManyCases _)) _
  · refine (ends_foldlM (fun m p _ => ?_) _).bind fun _ => ends_merge _
    dsimp only
    split
    · exact ends_stop (hq _ (.undefinedValue _))
    · exact (ends_conj _).bind fun _ => ends_pure _

theorem ends_negate (whole : Term) (xs : Cases) : Ends q s (negate whole xs) := by
  refine ends_mapM fun p _ => ?_
  dsimp only
  split
  · exact ends_stop (hq _ (.undefinedValue _))
  · exact ends_pure _

end Arithmetic

def Matches (Γ : String → Option ValueSort) (s : Std.HashMap String Symbol) : Prop :=
  ∀ x k, Γ x = some k → ∃ sym, s[x]? = some sym ∧ sym.IsOf k

variable {Γ : String → Option ValueSort} {arithmetic : Prop}

theorem ends_remember {t : Term} {m : Encode Lit} (hm : Ends q s m) : Ends q s (remember t m) := by
  unfold remember
  apply ends_get
  intro e _
  split
  · exact ends_pure _
  · refine hm.bind fun l => Ends.bind ?_ fun _ => ends_pure l
    exact ends_modify fun _ => rfl

theorem ends_constFormula (hs : Matches Γ s) {x : String} (hx : Γ x = some .bool) :
    Ends q s (constFormula x) := by
  obtain ⟨sym, hsym, hof⟩ := hs x _ hx
  unfold constFormula
  apply ends_symbol
  rw [hsym]
  cases sym with
  | bool l => exact ends_pure l
  | int cases => exact hof.elim
  | unbound => exact hof.elim

theorem ends_constCases (hs : Matches Γ s) {x : String} (hx : Γ x = some .int) :
    Ends q s (constCases x) := by
  obtain ⟨sym, hsym, hof⟩ := hs x _ hx
  unfold constCases
  apply ends_symbol
  rw [hsym]
  cases sym with
  | bool l => exact hof.elim
  | int cases => exact ends_pure cases
  | unbound => exact hof.elim

/-- Sides of an equation are taken for formulas exactly if they are of that sort. -/
theorem isFormula_of_sort (hs : Matches Γ s) {k : ValueSort} (hk : k = .bool ∨ k = .int)
    (t : Term) (h : t.OfSort Γ arithmetic k) : isFormula s t = decide (k = .bool) := by
  cases t with
  | const x =>
    obtain ⟨sym, hsym, hof⟩ := hs x k h
    rw [isFormula, hsym]
    rcases hk with rfl | rfl
    · cases sym with
      | bool l => rfl
      | int cases => exact hof.elim
      | unbound => exact hof.elim
    · cases sym with
      | bool l => exact hof.elim
      | int cases => rfl
      | unbound => exact hof.elim
  | ite c a b =>
    rw [isFormula]
    exact isFormula_of_sort hs hk a h.2.1
  | bool b => simp [isFormula, show k = .bool from h]
  | int n => simp [isFormula, show k = .int from h]
  | not _ | and _ | or _ | implies _ _ | iff _ _ | eq _ _ | distinct _ | compare _ _ _ =>
    simp [isFormula, h.1]
  | arith _ _ _ | neg _ => simp [isFormula, h.1]
  | app _ _ => exact h.elim

structure Operand.Proper (q : Stop → Prop) (s : Std.HashMap String Symbol) (k : ValueSort)
    (x : Operand) : Prop where
  isFormula : isFormula s x.term = decide (k = .bool)
  formula : k = .bool → Ends q s x.formula
  integer : k = .int → Ends q s x.integer

theorem ends_equate {k : ValueSort} (hk : k = .bool ∨ k = .int) {x y : Operand}
    (hx : x.Proper q s k) (hy : y.Proper q s k) : Ends q s (equate x y) := by
  unfold equate
  apply ends_get
  rintro e rfl
  simp only [hx.isFormula, hy.isFormula, Bool.or_self]
  rcases hk with rfl | rfl
  · exact (hx.formula rfl).bind fun _ => (hy.formula rfl).bind fun _ => ends_equivalence _ _
  · exact (hx.integer rfl).bind fun _ => (hy.integer rfl).bind fun _ => ends_relate _ _ _

theorem ends_pairwiseUnequal {k : ValueSort} (hk : k = .bool ∨ k = .int) {xs : List Operand}
    (hx : ∀ x ∈ xs, x.Proper q s k) : Ends q s (pairwiseUnequal xs) := by
  induction xs with
  | nil => exact ends_pure []
  | cons x xs ih =>
    have hrest : ∀ y ∈ xs, y.Proper q s k := fun y hy => hx y (List.mem_cons_of_mem _ hy)
    have hhere : Ends q s (unequalTo x xs) := ends_mapM fun y hy =>
      (ends_remember (ends_equate hk (hx x (by simp)) (hrest y hy))).bind fun _ => ends_pure _
    exact hhere.bind fun _ => (ih hrest).bind fun _ => ends_pure _

/-- One operand is not compared with anything. -/
theorem ends_pairwiseUnequal_few {xs : List Operand} (h : xs.length ≤ 1) :
    Ends q s (pairwiseUnequal xs) := by
  rcases xs with _ | ⟨x, _ | ⟨y, ys⟩⟩
  · exact ends_pure []
  · have hhere : Ends q s (unequalTo x []) :=
      ends_mapM fun y hy => absurd hy List.not_mem_nil
    exact hhere.bind fun _ => (ends_pure []).bind fun _ => ends_pure _
  · simp at h

mutual
theorem ends_formula (hs : Matches Γ s) (hq : arithmetic → ∀ why, Excused why → q why) (t : Term)
    (h : t.OfSort Γ arithmetic .bool) : Ends q s (formula t) := by
  cases t with
  | bool b =>
    rw [formula]
    exact ends_remember (ends_pure _)
  | const x =>
    rw [formula]
    exact ends_remember (ends_constFormula hs h)
  | not a =>
    rw [formula]
    exact ends_remember ((ends_formula hs hq a h.2).bind fun _ => ends_pure _)
  | and as =>
    rw [formula]
    exact ends_remember ((ends_formulas hs hq as h.2).bind fun _ => ends_conj _)
  | or as =>
    rw [formula]
    exact ends_remember ((ends_formulas hs hq as h.2).bind fun _ => ends_disj _)
  | implies a b =>
    rw [formula]
    exact ends_remember ((ends_formula hs hq a h.2.1).bind fun _ =>
      (ends_formula hs hq b h.2.2).bind fun _ => ends_disj _)
  | iff a b =>
    rw [formula]
    exact ends_remember ((ends_formula hs hq a h.2.1).bind fun _ =>
      (ends_formula hs hq b h.2.2).bind fun _ => ends_equivalence _ _)
  | eq a b =>
    rw [formula]
    apply ends_remember
    rcases h.2 with ⟨ha, hb⟩ | ⟨ha, hb⟩
    · exact ends_equate (.inl rfl)
        ⟨isFormula_of_sort hs (.inl rfl) a ha, fun _ => ends_formula hs hq a ha, by simp⟩
        ⟨isFormula_of_sort hs (.inl rfl) b hb, fun _ => ends_formula hs hq b hb, by simp⟩
    · exact ends_equate (.inr rfl)
        ⟨isFormula_of_sort hs (.inr rfl) a ha, by simp, fun _ => ends_integer hs hq a ha⟩
        ⟨isFormula_of_sort hs (.inr rfl) b hb, by simp, fun _ => ends_integer hs hq b hb⟩
  | distinct as =>
    rw [formula]
    apply ends_remember
    rcases h.2 with hfew | hall | hall
    · refine (ends_pairwiseUnequal_few ?_).bind fun _ => ends_conj _
      rwa [← List.length_map (f := Operand.term), operands_terms]
    · have hproper := proper_operands hs hq (.inl rfl) as hall
      exact (ends_pairwiseUnequal (.inl rfl) hproper).bind fun _ => ends_conj _
    · have hproper := proper_operands hs hq (.inr rfl) as hall
      exact (ends_pairwiseUnequal (.inr rfl) hproper).bind fun _ => ends_conj _
  | ite c a b =>
    rw [formula]
    exact ends_remember ((ends_formula hs hq c h.1).bind fun _ =>
      (ends_formula hs hq a h.2.1).bind fun _ => (ends_formula hs hq b h.2.2).bind fun _ =>
        ends_choice _ _ _)
  | compare o a b =>
    rw [formula]
    exact ends_remember ((ends_integer hs hq a h.2.1).bind fun _ =>
      (ends_integer hs hq b h.2.2).bind fun _ => ends_relate _ _ _)
  | int n => exact absurd h (by simp [Term.OfSort])
  | arith _ _ _ | neg _ => exact absurd h.1 (by simp)
  | app _ _ => exact h.elim

theorem ends_integer (hs : Matches Γ s) (hq : arithmetic → ∀ why, Excused why → q why) (t : Term)
    (h : t.OfSort Γ arithmetic .int) : Ends q s (integer t) := by
  cases t with
  | int n =>
    rw [integer]
    exact ends_pure _
  | const x =>
    rw [integer]
    exact ends_constCases hs h
  | neg a =>
    rw [integer]
    exact (ends_integer hs hq a h.2.2).bind fun _ => ends_negate (hq h.2.1) _ _
  | arith o a b =>
    rw [integer]
    exact (ends_integer hs hq a h.2.2.1).bind fun _ => (ends_integer hs hq b h.2.2.2).bind fun _ =>
      ends_combine (hq h.2.1) _ _ _ _
  | ite c a b =>
    rw [integer]
    exact (ends_formula hs hq c h.1).bind fun _ => (ends_integer hs hq a h.2.1).bind fun _ =>
      (ends_guarded _ _ _).bind fun _ => (ends_integer hs hq b h.2.2).bind fun _ =>
        (ends_guarded _ _ _).bind fun _ => ends_merge _
  | bool b => exact absurd h (by simp [Term.OfSort])
  | not _ | and _ | or _ | implies _ _ | iff _ _ | eq _ _ | distinct _ | compare _ _ _ =>
    exact absurd h.1 (by simp)
  | app _ _ => exact h.elim

theorem ends_formulas (hs : Matches Γ s) (hq : arithmetic → ∀ why, Excused why → q why)
    (ts : List Term) (h : Term.AllOfSort Γ arithmetic .bool ts) : Ends q s (formulas ts) := by
  cases ts with
  | nil =>
    rw [formulas]
    exact ends_pure []
  | cons t ts =>
    rw [formulas]
    exact (ends_formula hs hq t h.1).bind fun _ => (ends_formulas hs hq ts h.2).bind fun _ =>
      ends_pure _

theorem proper_operands (hs : Matches Γ s) (hq : arithmetic → ∀ why, Excused why → q why)
    {k : ValueSort} (hk : k = .bool ∨ k = .int) (ts : List Term)
    (h : Term.AllOfSort Γ arithmetic k ts) : ∀ x ∈ operands ts, x.Proper q s k := by
  cases ts with
  | nil => simp [operands]
  | cons t ts =>
    rw [operands]
    refine List.forall_mem_cons.2 ⟨⟨isFormula_of_sort hs hk t h.1, ?_, ?_⟩,
      proper_operands hs hq hk ts h.2⟩
    · rintro rfl
      exact ends_formula hs hq t h.1
    · rintro rfl
      exact ends_integer hs hq t h.1
end

theorem ends_demand (d : Clause) : Ends q s (demand d) := by
  unfold demand
  split
  · exact ends_pure _
  · exact ends_modify fun _ => rfl

mutual
theorem ends_assert (hs : Matches Γ s) (hq : arithmetic → ∀ why, Excused why → q why) (t : Term)
    (h : t.OfSort Γ arithmetic .bool) : Ends q s (assert t) := by
  cases t with
  | and as =>
    rw [assert]
    exact ends_assertAll hs hq as h.2
  | or as =>
    rw [assert]
    exact (ends_formulas hs hq as h.2).bind fun _ => ends_demand _
  | implies a b =>
    rw [assert]
    exact (ends_formula hs hq a h.2.1).bind fun _ => (ends_formula hs hq b h.2.2).bind fun _ =>
      ends_demand _
  | _ =>
    rw [assert]
    · exact (ends_formula hs hq _ h).bind fun _ => ends_demand _
    all_goals simp

theorem ends_assertAll (hs : Matches Γ s) (hq : arithmetic → ∀ why, Excused why → q why)
    (ts : List Term) (h : Term.AllOfSort Γ arithmetic .bool ts) : Ends q s (assertAll ts) := by
  cases ts with
  | nil =>
    rw [assertAll]
    exact ends_pure _
  | cons t ts =>
    rw [assertAll]
    exact (ends_assert hs hq t h.1).bind fun _ => ends_assertAll hs hq ts h.2
end

end Encode

def Command.Plain : Command → Prop
  | .declareConst _ k | .declareFun _ [] k => k = .bool ∨ k = .int
  | .declareFun _ (_ :: _) _ | .defineFun _ _ _ _ | .push _ | .pop _ => False
  | _ => True

def Script.used? (s : Script) (x : String) : Option ValueSort :=
  if x ∈ s.assertions.flatMap Term.consts then s.sort? x else none

structure Script.InFragment (s : Script) (arithmetic : Prop) : Prop where
  commands : ∀ c ∈ s.commands, c.Plain
  declared : ∀ x ∈ s.assertions.flatMap Term.consts, s.sort? x = some .bool ∨
    s.sort? x = some .int ∧ ∃ t ∈ s.assertions, ∃ d ∈ t.domain?, d.1 = x
  sorts : Term.AllOfSort s.sort? arithmetic .bool s.assertions

namespace Encode
open Encoder
variable {e f : Encoder} {arithmetic : Prop} {s : Script}

theorem runs_declarations {cs : List Command} (h : ∀ c ∈ cs, c.Plain) (e : Encoder) :
    ∃ f, Runs (cs.forM declareFrom) e ⟨⟩ f := by
  induction cs generalizing e with
  | nil => exact ⟨e, Runs.forM_nil.2 rfl⟩
  | cons c cs ih =>
    have hdeclare : ∀ (x : String) (k : ValueSort), k = .bool ∨ k = .int →
        ∃ g, Runs (declare x k) e ⟨⟩ g := by
      rintro x k (rfl | rfl)
      · exact ⟨_, rfl⟩
      · exact ⟨_, rfl⟩
    have hfirst : ∃ g, Runs (declareFrom c) e ⟨⟩ g := by
      have hc := h c List.mem_cons_self
      cases c with
      | declareConst x k => exact hdeclare x k hc
      | declareFun x params k =>
        cases params with
        | nil => exact hdeclare x k hc
        | cons _ _ => exact hc.elim
      | defineFun _ _ _ _ => exact hc.elim
      | push _ => exact hc.elim
      | pop _ => exact hc.elim
      | _ => exact ⟨e, rfl⟩
    obtain ⟨g, hg⟩ := hfirst
    obtain ⟨f, hf⟩ := ih (fun d hd => h d (List.mem_cons_of_mem _ hd)) g
    exact ⟨f, Runs.forM_cons.2 ⟨g, hg, hf⟩⟩

theorem contains_addDomain {symbols : Std.HashMap String Symbol} {m : Domains} {x : String}
    (h : m.contains x = true) (t : Term) : (addDomain symbols m t).contains x = true := by
  unfold addDomain
  split
  · split
    · rw [OrderedMap.contains, OrderedMap.get?_insert]
      split
      · rfl
      · exact h
    · exact h
  · exact h

/-- The domain of an integer that an assertion states is found. -/
theorem contains_domains {symbols : Std.HashMap String Symbol} {x : String}
    (hx : symbols[x]? = some .unbound) {ts : List Term} {t : Term} (ht : t ∈ ts)
    {values : List Int} (hd : t.domain? = some (x, values)) (m : Domains) :
    (ts.foldl (addDomain symbols) m).contains x = true := by
  have hkept : ∀ (ts : List Term) (m : Domains), m.contains x = true →
      (ts.foldl (addDomain symbols) m).contains x = true := by
    intro ts
    induction ts with
    | nil => exact fun m h => h
    | cons u us ih => exact fun m h => ih _ (contains_addDomain h u)
  induction ts generalizing m with
  | nil => exact absurd ht List.not_mem_nil
  | cons u us ih =>
    rcases List.mem_cons.1 ht with rfl | ht
    · have hfound : (addDomain symbols m t).contains x = true := by
        unfold addDomain
        rw [hd]
        by_cases hm : m.contains x = true
        · simp [hx, hm]
        · dsimp only
          rw [if_pos ⟨hx, hm⟩, OrderedMap.contains, OrderedMap.get?_insert, beq_self_eq_true]
          rfl
      exact hkept us _ hfound
    · exact ih ht _

theorem runs_requires {domains : Domains} {names : List String}
    (h : ∀ x ∈ names, ∃ sym, e.symbols[x]? = some sym ∧
      (sym = .unbound → domains.contains x = true)) :
    Runs (names.forM (requireDomain domains)) e ⟨⟩ e := by
  induction names with
  | nil => exact Runs.forM_nil.2 rfl
  | cons x xs ih =>
    obtain ⟨hx, hxs⟩ := List.forall_mem_cons.1 h
    exact Runs.forM_cons.2 ⟨e, runs_requireDomain.2 ⟨rfl, hx⟩, ih hxs⟩

theorem runs_bindAll (ds : List (String × List Int)) (e : Encoder) :
    ∃ f, Runs (ds.forM fun (x, values) => bindDomain x values) e ⟨⟩ f := by
  induction ds generalizing e with
  | nil => exact ⟨e, Runs.forM_nil.2 rfl⟩
  | cons d ds ih =>
    obtain ⟨x, values⟩ := d
    have hind : Ends (fun _ => False) e.symbols
        (values.mapM fun v => return (← fresh, v) : Encode Cases) :=
      ends_mapM fun v _ => ends_fresh.bind fun _ => ends_pure _
    have hclauses : ∀ cases : Cases, Ends (fun _ => False) e.symbols (do
        emit (cases.map Prod.fst)
        (atMostOne (cases.map Prod.fst)).forM emit) := fun _ =>
      (ends_emit _).bind fun _ => ends_forM fun _ _ => ends_emit _
    obtain ⟨cases, g, hg, hs⟩ := (hind e rfl).resolve_right (by simp)
    obtain ⟨_, g', hg', -⟩ := (hclauses cases g hs).resolve_right (by simp)
    obtain ⟨_, g₁, hemit, hrest⟩ := Runs.bind_iff.1 hg'
    obtain ⟨f, hf⟩ := ih { g' with symbols := g'.symbols.insert x (.int cases) }
    refine ⟨f, Runs.forM_cons.2 ⟨_, ?_, hf⟩⟩
    simp only [bindDomain, Runs.bind_iff]
    exact ⟨cases, g, hg, ⟨⟩, g₁, hemit, ⟨⟩, g', hrest, Runs.modify_iff.2 rfl⟩

theorem matches_of_prepared (h : e.Prepared s) : Matches s.used? e.symbols := by
  intro x k hx
  unfold Script.used? at hx
  split at hx
  · next hm =>
    obtain ⟨sym, sort, hsym, hsort, hof⟩ := h.sorts x hm
    obtain rfl := Option.some.inj (hsort.symm.trans hx)
    exact ⟨sym, hsym, hof⟩
  · exact absurd hx (by simp)

/-- The constants of the assertions are found ready. -/
theorem runs_bindDomains (h : s.InFragment arithmetic) (hd : e.Declared s.declared) :
    ∃ f, Runs (bindDomains s.assertions) e ⟨⟩ f := by
  obtain ⟨f, hf⟩ := runs_bindAll (s.assertions.foldl (addDomain e.symbols) .empty).entries e
  refine ⟨f, ?_⟩
  simp only [bindDomains, Runs.bind_iff, Runs.get_iff]
  refine ⟨e, e, ⟨rfl, rfl⟩, ⟨⟩, e, runs_requires fun x hx => ?_, hf⟩
  rcases h.declared x (mem_distinct.1 (OrderedSet.mem_ofList.1 hx)) with
    hx | ⟨hx, t, ht, ⟨y, values⟩, hv, rfl⟩
  · obtain ⟨l, hl⟩ := hd.symbol_of_bool hx
    exact ⟨_, hl, by simp⟩
  · have hun := hd.symbol_of_int hx
    exact ⟨_, hun, fun _ => contains_domains hun ht hv _⟩

end Encode

namespace Script
open Encode
variable {s : Script} {arithmetic : Prop}

theorem used_of_sorts (h : Term.AllOfSort s.sort? arithmetic .bool s.assertions) :
    Term.AllOfSort s.used? arithmetic .bool s.assertions := by
  refine Term.AllOfSort.mono s.assertions (fun x hx k hk => ?_) h
  rw [Term.constsOf_eq] at hx
  exact (if_pos hx).trans hk

theorem InFragment.used (h : s.InFragment arithmetic) :
    Term.AllOfSort s.used? arithmetic .bool s.assertions := used_of_sorts h.sorts

/-- Once the constants are ready, only arithmetic can stop the encoding. -/
theorem encoded_of_ready {e₀ e : Encoder}
    (hsorts : Term.AllOfSort s.sort? arithmetic .bool s.assertions)
    (h₀ : Runs (s.commands.forM declareFrom) .initial ⟨⟩ e₀)
    (he : Runs (bindDomains s.assertions) e₀ ⟨⟩ e) :
    (∃ f, Encoder.ofScript s = .ok f) ∨
      arithmetic ∧ ∃ why, Encoder.ofScript s = .error why ∧ Excused why := by
  have hmatches := matches_of_prepared
    (bindDomains_prepared (declarations_declared Encoder.initial_declared h₀) he)
  have hrun : (Encode.script s).run .initial = (assertAll s.assertions).run e :=
    (h₀.run_bind _).trans (he.run_bind _)
  unfold Encoder.ofScript
  rw [hrun]
  rcases ends_assertAll (q := fun why => arithmetic ∧ Excused why) hmatches
      (fun ha why hwhy => ⟨ha, hwhy⟩) s.assertions (used_of_sorts hsorts) e rfl with
    ⟨_, f, hf, -⟩ | ⟨why, hwhy, ha, hexcused⟩
  · exact .inl ⟨f, by rw [hf]; rfl⟩
  · exact .inr ⟨ha, why, by rw [hwhy]; rfl, hexcused⟩

/-- A script within the fragment is encoded, unless its arithmetic stops the encoding. -/
theorem InFragment.encoded (h : s.InFragment arithmetic) :
    (∃ f, Encoder.ofScript s = .ok f) ∨
      arithmetic ∧ ∃ why, Encoder.ofScript s = .error why ∧ Excused why := by
  obtain ⟨e₀, h₀⟩ := runs_declarations h.commands .initial
  obtain ⟨e, he⟩ := runs_bindDomains h (declarations_declared Encoder.initial_declared h₀)
  exact encoded_of_ready h.sorts h₀ he

end Script

structure Script.Sorted (s : Script) (arithmetic : Prop) : Prop where
  commands : ∀ c ∈ s.commands, c.Plain
  declared : ∀ x ∈ s.assertions.flatMap Term.consts, s.sort? x = some .bool ∨ s.sort? x = some .int
  sorts : Term.AllOfSort s.sort? arithmetic .bool s.assertions

namespace Encode
variable {s : Script} {arithmetic : Prop}

def Unbounded (why : Stop) : Prop := ∃ x, why = .gaveUp (.unboundedDomain x)

theorem ends_requireDomain {symbols : Std.HashMap String Symbol} {sym : Symbol} {x : String}
    (hx : symbols[x]? = some sym) (domains : Domains) :
    Ends Unbounded symbols (requireDomain domains x) := by
  unfold requireDomain
  apply ends_symbol
  rw [hx]
  cases sym with
  | bool l => exact ends_pure _
  | int cases => exact ends_pure _
  | unbound =>
    dsimp only
    split
    · exact ends_pure _
    · exact ends_stop ⟨x, rfl⟩

/-- The domains are bound unless there is none for some integer. -/
theorem bindDomains_ends (h : s.Sorted arithmetic) {e : Encoder} (hd : e.Declared s.declared) :
    (∃ f, Runs (bindDomains s.assertions) e ⟨⟩ f) ∨
      ∃ why, (bindDomains s.assertions).run e = .error why ∧ Unbounded why := by
  let domains := s.assertions.foldl (addDomain e.symbols) .empty
  let referenced := OrderedSet.ofList (distinct (s.assertions.flatMap Term.consts))
  have hrequires : Ends Unbounded e.symbols (referenced.toList.forM (requireDomain domains)) := by
    refine ends_forM fun x hx => ?_
    rcases h.declared x (mem_distinct.1 (OrderedSet.mem_ofList.1 hx)) with hx | hx
    · obtain ⟨l, hl⟩ := hd.symbol_of_bool hx
      exact ends_requireDomain hl domains
    · exact ends_requireDomain (hd.symbol_of_int hx) domains
  have hrun : (bindDomains s.assertions).run e =
      (referenced.toList.forM (requireDomain domains) >>= fun _ =>
        domains.entries.forM fun (x, values) => bindDomain x values).run e := rfl
  rcases hrequires e rfl with ⟨_, f, hf, -⟩ | ⟨why, hwhy, hunbounded⟩
  · obtain ⟨k, hk⟩ := runs_bindAll domains.entries f
    exact .inl ⟨k, hrun.trans (Runs.bind_iff.2 ⟨_, f, hf, hk⟩)⟩
  · refine .inr ⟨why, ?_, hunbounded⟩
    rw [hrun, StateT.run_bind, hwhy]
    rfl

end Encode

namespace Script
open Encode
variable {s : Script} {arithmetic : Prop}

/-- A script with sorts is encoded unless its arithmetic or an integer without a domain stops the
encoding; it is never found broken. -/
theorem Sorted.encoded (h : s.Sorted arithmetic) : (∃ f, Encoder.ofScript s = .ok f) ∨
    ∃ why, Encoder.ofScript s = .error why ∧ (Excused why ∨ Unbounded why) := by
  obtain ⟨e₀, h₀⟩ := runs_declarations h.commands .initial
  rcases bindDomains_ends h (declarations_declared Encoder.initial_declared h₀) with
    ⟨e, he⟩ | ⟨why, hwhy, hunbounded⟩
  · rcases encoded_of_ready h.sorts h₀ he with hencoded | ⟨-, why, hwhy, hexcused⟩
    · exact .inl hencoded
    · exact .inr ⟨why, hwhy, .inl hexcused⟩
  · have hrun : (Encode.script s).run .initial = (do
        bindDomains s.assertions
        assertAll s.assertions : Encode Unit).run e₀ := h₀.run_bind _
    refine .inr ⟨why, ?_, .inr hunbounded⟩
    unfold Encoder.ofScript
    rw [hrun, StateT.run_bind, hwhy]
    rfl

end Script
end Consistency
