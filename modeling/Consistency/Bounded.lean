/-!
# Integers of 128 bits

Register values range over the signed integers of 128 bits. An operation whose
result leaves the range has no result. Quotient and remainder are Euclidean:
the remainder is never negative.
-/

set_option autoImplicit false

namespace Consistency.Bounded

def least : Int := -Int.pow 2 127
def greatest : Int := Int.pow 2 127 - 1

def InRange (n : Int) : Prop := least ≤ n ∧ n ≤ greatest

instance (n : Int) : Decidable (InRange n) := inferInstanceAs (Decidable (_ ∧ _))

def bound (n : Int) : Option Int := if InRange n then some n else none

def neg (a : Int) : Option Int := bound (-a)
def add (a b : Int) : Option Int := bound (a + b)
def sub (a b : Int) : Option Int := bound (a - b)
def mul (a b : Int) : Option Int := bound (a * b)

def div (a b : Int) : Option Int := if b = 0 then none else bound (a / b)

def mod (a b : Int) : Option Int := (div a b).map fun _ => a % b

theorem bound_eq_some {n m : Int} : bound n = some m ↔ InRange n ∧ n = m := by
  unfold bound
  split <;> simp_all

theorem inRange_of_bound {n m : Int} (h : bound n = some m) : InRange m := by
  obtain ⟨hn, rfl⟩ := bound_eq_some.1 h
  exact hn

end Consistency.Bounded
