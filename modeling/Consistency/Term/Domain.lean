import Consistency.Term

/-!
# Domains written as terms

An equation of a constant with a literal, or a disjunction of such equations of
one constant, fixes a finite set of values for it.
-/

set_option autoImplicit false

namespace Consistency.Term

def equation? : Term → Option (String × Int)
  | .eq (.const x) (.int v) => some (x, v)
  | .eq (.int v) (.const x) => some (x, v)
  | _ => none

def domain? : Term → Option (String × List Int)
  | .or [] => none
  | .or (p :: ps) => do
    let (x, v) ← equation? p
    let rest ← ps.mapM equation?
    if rest.all fun e => e.1 == x then some (x, v :: rest.map Prod.snd) else none
  | t => (equation? t).map fun (x, v) => (x, [v])

def oneOf (symbol : String) (values : List Int) : Term :=
  mkOr (values.map fun v => .eq (.const symbol) (.int v))

end Consistency.Term
