import Consistency.Term.Eval

/-!
# Simplification of terms

Operands are simplified first. Then the head is folded by the identities of its
operator, and a term without constants is replaced by its value if it has one.
-/

set_option autoImplicit false

namespace Consistency.Term

def foldIff (a b : Term) : Term :=
  match a, b with
  | .bool true, b => b
  | a, .bool true => a
  | .bool false, b => mkNot b
  | a, .bool false => mkNot a
  | a, b => if a = b then .bool true else .iff a b

def foldEq (a b : Term) : Term := if a = b then .bool true else .eq a b

def foldIte (c a b : Term) : Term :=
  match c with
  | .bool true => a
  | .bool false => b
  | c => if a = b then a else .ite c a b

def foldArith (op : ArithOp) (a b : Term) : Term :=
  match op with
  | .add => if a = .int 0 then b else if b = .int 0 then a else .arith .add a b
  | .sub => if b = .int 0 then a else .arith .sub a b
  | .mul =>
    if a = .int 0 ∨ b = .int 0 then .int 0
    else if a = .int 1 then b else if b = .int 1 then a else .arith .mul a b
  | .div => .arith .div a b
  | .mod => .arith .mod a b

def foldNeg : Term → Term
  | .neg t => t
  | t => .neg t

def settle (t : Term) : Term :=
  if t.isGround then (t.evalGround.map Value.toTerm).getD t else t

mutual
def simplify : Term → Term
  | .bool b => .bool b
  | .int n => .int n
  | .const x => .const x
  | .not a => settle (mkNot (simplify a))
  | .and as => settle (mkAnd (simplifyAll as))
  | .or as => settle (mkOr (simplifyAll as))
  | .implies a b => settle (mkImplies (simplify a) (simplify b))
  | .iff a b => settle (foldIff (simplify a) (simplify b))
  | .eq a b => settle (foldEq (simplify a) (simplify b))
  | .distinct as => settle (.distinct (simplifyAll as))
  | .ite c a b => settle (foldIte (simplify c) (simplify a) (simplify b))
  | .arith o a b => settle (foldArith o (simplify a) (simplify b))
  | .neg a => settle (foldNeg (simplify a))
  | .compare o a b => settle (.compare o (simplify a) (simplify b))
  | .app f as => settle (.app f (simplifyAll as))

def simplifyAll : List Term → List Term
  | [] => []
  | a :: as => simplify a :: simplifyAll as
end

end Consistency.Term
