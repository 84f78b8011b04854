import Consistency.Bounded
import Consistency.Term

/-!
# Values of terms

A term has a value under an environment unless it meets an unbound constant, an
operand of the wrong sort, an integer out of range, a division by zero or a
function symbol. Conjunction and disjunction need the value of every operand;
an implication with a false premise does not need its conclusion, and a
conditional needs only the branch it takes.
-/

set_option autoImplicit false

namespace Consistency

inductive Value where
  | bool (value : Bool)
  | int (value : Int)
  deriving DecidableEq, Repr, Inhabited

namespace Value

def bool? : Value → Option Bool
  | .bool b => some b
  | .int _ => none

def int? : Value → Option Int
  | .int n => some n
  | .bool _ => none

def toTerm : Value → Term
  | .bool b => .bool b
  | .int n => .int n

def render : Value → String
  | .bool b => toString b
  | .int n => toString n

def order : Value → Value → Ordering
  | .bool a, .bool b => compare a b
  | .bool _, .int _ => .lt
  | .int _, .bool _ => .gt
  | .int a, .int b => compare a b

instance : Ord Value := ⟨order⟩

def equal : Value → Value → Option Bool
  | .bool a, .bool b => some (a == b)
  | .int a, .int b => some (a == b)
  | _, _ => none

end Value

def ArithOp.eval : ArithOp → Int → Int → Option Int
  | .add => Bounded.add
  | .sub => Bounded.sub
  | .mul => Bounded.mul
  | .div => Bounded.div
  | .mod => Bounded.mod

def CompareOp.holds : CompareOp → Int → Int → Bool
  | .lt, a, b => a < b
  | .le, a, b => a ≤ b
  | .gt, a, b => b < a
  | .ge, a, b => b ≤ a

abbrev Environment := String → Option Value

namespace Term

mutual
def eval (env : Environment) : Term → Option Value
  | .bool b => some (.bool b)
  | .int n => some (.int n)
  | .const x => env x
  | .not a => do
    let b ← (← eval env a).bool?
    return .bool (!b)
  | .and as => do
    let bs ← (← evalAll env as).mapM Value.bool?
    return .bool (bs.all id)
  | .or as => do
    let bs ← (← evalAll env as).mapM Value.bool?
    return .bool (bs.any id)
  | .implies a b => do
    let premise ← (← eval env a).bool?
    if premise then
      let conclusion ← (← eval env b).bool?
      return .bool conclusion
    else return .bool true
  | .iff a b => do
    let p ← (← eval env a).bool?
    let q ← (← eval env b).bool?
    return .bool (p == q)
  | .eq a b => do
    let u ← eval env a
    let v ← eval env b
    return .bool (← u.equal v)
  | .distinct as => do
    let vs ← evalAll env as
    return .bool (decide vs.Nodup)
  | .ite c a b => do
    let cond ← (← eval env c).bool?
    if cond then eval env a else eval env b
  | .arith o a b => do
    let m ← (← eval env a).int?
    let n ← (← eval env b).int?
    return .int (← o.eval m n)
  | .neg a => do
    let n ← (← eval env a).int?
    return .int (← Bounded.neg n)
  | .compare o a b => do
    let m ← (← eval env a).int?
    let n ← (← eval env b).int?
    return .bool (o.holds m n)
  | .app _ _ => none

def evalAll (env : Environment) : List Term → Option (List Value)
  | [] => some []
  | a :: as => do
    let v ← eval env a
    let vs ← evalAll env as
    return v :: vs
end

def noBindings : Environment := fun _ => none

def evalGround (t : Term) : Option Value := eval noBindings t

end Term
end Consistency
