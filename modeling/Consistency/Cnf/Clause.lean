/-!
# Clauses

Literals over numbered Boolean variables. Variable 0 is the constant true. A
list of literals is brought into a normal form, in which repeated literals have
gone and a literal stands beside its opposite if both occur.
-/

set_option autoImplicit false

namespace Consistency

structure Lit where
  var : Nat
  sign : Bool
  deriving DecidableEq, Repr, Inhabited

namespace Lit

def top : Lit := ⟨0, true⟩
def bottom : Lit := ⟨0, false⟩

def flip (l : Lit) : Lit := ⟨l.var, !l.sign⟩

def holds (τ : Nat → Bool) (l : Lit) : Bool := τ l.var == l.sign

def before (a b : Lit) : Bool := a.var < b.var || (a.var == b.var && (!a.sign || b.sign))

end Lit

abbrev Clause := List Lit

namespace Clause

def holds (τ : Nat → Bool) (c : Clause) : Bool := c.any (Lit.holds τ)

def dropRepeats : List Lit → List Lit
  | a :: b :: rest => if a = b then dropRepeats (b :: rest) else a :: dropRepeats (b :: rest)
  | c => c

def normal (c : List Lit) : List Lit := dropRepeats (c.mergeSort Lit.before)

def clashes : List Lit → Bool
  | a :: b :: rest => a.var == b.var || clashes (b :: rest)
  | _ => false

def simplify (c : Clause) : Option Clause :=
  if c.contains .top then none
  else
    let kept := normal (c.filter (· != .bottom))
    if clashes kept then none else some kept

end Clause

def conjuncts (ls : List Lit) : Option (List Lit) :=
  if ls.contains .bottom then none
  else
    let kept := Clause.normal (ls.filter (· != .top))
    if Clause.clashes kept then none else some kept

end Consistency
