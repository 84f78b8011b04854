import Consistency.Term

/-!
# The order of terms

Terms are ordered by their head, then by their operands from left to right;
names are ordered by code point.
-/

set_option autoImplicit false

namespace Consistency.Term

def rank : Term → Nat
  | .bool _ => 0
  | .int _ => 1
  | .const _ => 2
  | .not _ => 3
  | .and _ => 4
  | .or _ => 5
  | .implies _ _ => 6
  | .iff _ _ => 7
  | .eq _ _ => 8
  | .distinct _ => 9
  | .ite _ _ _ => 10
  | .arith _ _ _ => 11
  | .neg _ => 12
  | .compare _ _ _ => 13
  | .app _ _ => 14

mutual
def order : Term → Term → Ordering
  | .bool a, .bool b => Ord.compare a b
  | .int a, .int b => Ord.compare a b
  | .const a, .const b => Ord.compare a b
  | .not a, .not b => order a b
  | .and as, .and bs => orderList as bs
  | .or as, .or bs => orderList as bs
  | .implies a c, .implies b d => (order a b).then (order c d)
  | .iff a c, .iff b d => (order a b).then (order c d)
  | .eq a c, .eq b d => (order a b).then (order c d)
  | .distinct as, .distinct bs => orderList as bs
  | .ite a c e, .ite b d f => (order a b).then ((order c d).then (order e f))
  | .arith o a c, .arith p b d => (Ord.compare o p).then ((order a b).then (order c d))
  | .neg a, .neg b => order a b
  | .compare o a c, .compare p b d => (Ord.compare o p).then ((order a b).then (order c d))
  | .app f as, .app g bs => (Ord.compare f g).then (orderList as bs)
  | a, b => Ord.compare a.rank b.rank

def orderList : List Term → List Term → Ordering
  | [], [] => .eq
  | [], _ :: _ => .lt
  | _ :: _, [] => .gt
  | a :: as, b :: bs => (order a b).then (orderList as bs)
end

instance : Ord Term := ⟨order⟩

end Consistency.Term
