import Consistency.Proofs.Term.Confluence
import Consistency.Proofs.Thread.Simulation

/-!
# Choices with their values

When it is known what the threads pick, the symbols of choices can be replaced
by the integers picked. What this makes of an expression evaluated in a local
state depends on what it makes of the registers, and on nothing else.
-/

set_option autoImplicit false

namespace Consistency
open Bounded (InRange)

namespace Term

mutual
theorem substitute_eq_total (f : String → Option Term) (t : Term) :
    t.substitute f = t.substitute fun x => some ((f x).getD (.const x)) := by
  cases t with
  | bool _ | int _ | const _ => rfl
  | not s | neg s => rw [substitute, substitute, substitute_eq_total f s]
  | and ts | or ts | distinct ts | app k ts =>
    rw [substitute, substitute, substituteAll_eq_total f ts]
  | implies a b | iff a b | eq a b | arith o a b | compare o a b =>
    rw [substitute, substitute, substitute_eq_total f a, substitute_eq_total f b]
  | ite c a b =>
    rw [substitute, substitute, substitute_eq_total f c, substitute_eq_total f a,
      substitute_eq_total f b]

theorem substituteAll_eq_total (f : String → Option Term) (ts : List Term) :
    substituteAll f ts = substituteAll (fun x => some ((f x).getD (.const x))) ts := by
  cases ts with
  | nil => rfl
  | cons t ts =>
    rw [substituteAll, substituteAll, substitute_eq_total f t, substituteAll_eq_total f ts]
end

mutual
/-- Constants are replaced in what was put in for constants. -/
theorem substitute_substitute (f : String → Term) (g : String → Option Term) (t : Term) :
    (t.substitute fun x => some (f x)).substitute g =
      t.substitute fun x => some ((f x).substitute g) := by
  cases t with
  | bool _ | int _ | const _ => rfl
  | not s | neg s => simp only [substitute, substitute_substitute f g s]
  | and ts | or ts | distinct ts | app k ts =>
    simp only [substitute, substituteAll_substituteAll f g ts]
  | implies a b | iff a b | eq a b | arith o a b | compare o a b =>
    simp only [substitute, substitute_substitute f g a, substitute_substitute f g b]
  | ite c a b =>
    simp only [substitute, substitute_substitute f g c, substitute_substitute f g a,
      substitute_substitute f g b]

theorem substituteAll_substituteAll (f : String → Term) (g : String → Option Term)
    (ts : List Term) : substituteAll g (substituteAll (fun x => some (f x)) ts) =
      substituteAll (fun x => some ((f x).substitute g)) ts := by
  cases ts with
  | nil => rfl
  | cons t ts =>
    simp only [substituteAll, substitute_substitute f g t, substituteAll_substituteAll f g ts]
end

end Term

open Classical in
noncomputable def Valuation.picks (v : Valuation) (x : String) : Option Term :=
  if ∃ t k, x = Thread.choiceSymbol t k then some (.int (v x)) else none

def Valuation.Bounded (v : Valuation) : Prop := ∀ t k, InRange (v (Thread.choiceSymbol t k))

noncomputable def Term.fixed (v : Valuation) (t : Term) : Term := t.reduce v.picks

variable {v w : Valuation} {s l : LocalState} {t u : Term}

theorem Valuation.picks_choice (v : Valuation) (i k : Nat) :
    v.picks (Thread.choiceSymbol i k) = some (.int (v (Thread.choiceSymbol i k))) :=
  if_pos ⟨i, k, rfl⟩

theorem Valuation.picks_read (v : Valuation) (i k : Nat) : v.picks (readSymbol i k) = none := by
  refine if_neg ?_
  rintro ⟨j, n, h⟩
  have hstem := congrArg stem h
  rw [stem_readSymbol, stem_choiceSymbol] at hstem
  exact absurd hstem (by decide)

theorem Valuation.Bounded.picks (h : v.Bounded) :
    ∀ x u, v.picks x = some u → u.WellFormed InRange := by
  intro x u hu
  unfold Valuation.picks at hu
  split at hu
  · next hx =>
    obtain ⟨t, k, rfl⟩ := hx
    obtain rfl := Option.some.inj hu
    exact h t k
  · exact absurd hu (by simp)

namespace Term

@[simp] theorem fixed_bool (v : Valuation) (b : Bool) : (Term.bool b).fixed v = .bool b := rfl

@[simp] theorem fixed_int (v : Valuation) (n : Int) : (Term.int n).fixed v = .int n := rfl

@[simp] theorem fixed_choice (v : Valuation) (i k : Nat) :
    (Term.const (Thread.choiceSymbol i k)).fixed v = .int (v (Thread.choiceSymbol i k)) := by
  rw [fixed, reduce, substitute, v.picks_choice]
  rfl

@[simp] theorem fixed_read (v : Valuation) (i k : Nat) :
    (Term.const (readSymbol i k)).fixed v = .const (readSymbol i k) := by
  rw [fixed, reduce, substitute, v.picks_read]
  rfl

/-- A value is not lost under a valuation with the same picks. -/
theorem eval_fixed
    (h : ∀ i k, w (Thread.choiceSymbol i k) = v (Thread.choiceSymbol i k)) {r : Value}
    (ht : t.eval w.environment = some r) : (t.fixed v).eval w.environment = some r := by
  apply eval_simplify
  rw [substitute_eq_total, eval_substitute, ← ht]
  refine congrArg (fun env => t.eval env) (funext fun x => ?_)
  unfold Valuation.picks
  split
  · next hx =>
    obtain ⟨i, k, rfl⟩ := hx
    exact congrArg (fun n => some (Value.int n)) (h i k).symm
  · rfl

/-- Terms that are the same when it is known what the threads pick have the same value, if they
have values. -/
theorem value_unique (h : ∀ i k, w (Thread.choiceSymbol i k) = v (Thread.choiceSymbol i k))
    (htu : t.fixed v = u.fixed v) {r r' : Value} (ht : t.eval w.environment = some r)
    (hu : u.eval w.environment = some r') : r = r' := by
  have ht' := eval_fixed h ht
  rw [htu, eval_fixed h hu] at ht'
  exact (Option.some.inj ht').symm

end Term

theorem LocalState.fixed_eval (hv : v.Bounded) (ht : t.WellFormed InRange)
    (hs : ∀ reg, (s.register reg).WellFormed InRange) : (s.eval t).fixed v =
      t.reduce fun reg => some ((s.register reg).substitute v.picks) := by
  rw [Term.fixed, LocalState.eval, Term.reduce_simplify hv.picks, Term.reduce,
    Term.substitute_substitute]
  · rfl
  · refine Term.WellFormed.substitute (fun x u hu => ?_) t ht
    obtain rfl := Option.some.inj hu
    exact hs x

/-- Evaluation in states whose registers are the same when it is known what the threads pick. -/
theorem LocalState.fixed_eval_congr (hv : v.Bounded) (ht : t.WellFormed InRange)
    (hs : ∀ reg, (s.register reg).WellFormed InRange)
    (hl : ∀ reg, (l.register reg).WellFormed InRange)
    (h : ∀ reg, (s.register reg).fixed v = (l.register reg).fixed v) :
    (s.eval t).fixed v = (l.eval t).fixed v := by
  rw [fixed_eval hv ht hs, fixed_eval hv ht hl]
  refine Term.reduce_congr ?_ t
  exact h

end Consistency
