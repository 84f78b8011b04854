/-!
# Terms over Booleans and integers

The formulas of path constraints, stored values and solver queries. `and`,
`or` and `distinct` take any number of operands.
-/

set_option autoImplicit false

namespace Consistency

inductive ArithOp where
  | add | sub | mul | div | mod
  deriving DecidableEq, Repr, Ord, Hashable

inductive CompareOp where
  | lt | le | gt | ge
  deriving DecidableEq, Repr, Ord, Hashable

inductive Term where
  | bool (value : Bool)
  | int (value : Int)
  | const (name : String)
  | not (operand : Term)
  | and (operands : List Term)
  | or (operands : List Term)
  | implies (lhs rhs : Term)
  | iff (lhs rhs : Term)
  | eq (lhs rhs : Term)
  | distinct (operands : List Term)
  | ite (cond yes no : Term)
  | arith (op : ArithOp) (lhs rhs : Term)
  | neg (operand : Term)
  | compare (op : CompareOp) (lhs rhs : Term)
  | app (symbol : String) (args : List Term)
  deriving Repr, Inhabited

namespace Term

mutual
def same : Term → Term → Bool
  | .bool a, .bool b => a == b
  | .int a, .int b => a == b
  | .const a, .const b => a == b
  | .not a, .not b => same a b
  | .and as, .and bs => sameList as bs
  | .or as, .or bs => sameList as bs
  | .implies a c, .implies b d => same a b && same c d
  | .iff a c, .iff b d => same a b && same c d
  | .eq a c, .eq b d => same a b && same c d
  | .distinct as, .distinct bs => sameList as bs
  | .ite a c e, .ite b d f => same a b && same c d && same e f
  | .arith o a c, .arith p b d => o == p && same a b && same c d
  | .neg a, .neg b => same a b
  | .compare o a c, .compare p b d => o == p && same a b && same c d
  | .app f as, .app g bs => f == g && sameList as bs
  | _, _ => false

def sameList : List Term → List Term → Bool
  | [], [] => true
  | a :: as, b :: bs => same a b && sameList as bs
  | _, _ => false
end

mutual
theorem same_iff (a b : Term) : same a b = true ↔ a = b := by
  cases a <;> cases b <;> simp [same, same_iff, sameList_iff, and_assoc]

theorem sameList_iff (as bs : List Term) : sameList as bs = true ↔ as = bs := by
  cases as <;> cases bs <;> simp [sameList, same_iff, sameList_iff]
end

instance : DecidableEq Term := fun a b => decidable_of_iff _ (same_iff a b)

mutual
def hash : Term → UInt64
  | .bool b => mixHash 1 (Hashable.hash b)
  | .int n => mixHash 2 (Hashable.hash n)
  | .const x => mixHash 3 (Hashable.hash x)
  | .not a => mixHash 4 (hash a)
  | .and as => mixHash 5 (hashList as)
  | .or as => mixHash 6 (hashList as)
  | .implies a b => mixHash 7 (mixHash (hash a) (hash b))
  | .iff a b => mixHash 8 (mixHash (hash a) (hash b))
  | .eq a b => mixHash 9 (mixHash (hash a) (hash b))
  | .distinct as => mixHash 10 (hashList as)
  | .ite a b c => mixHash 11 (mixHash (hash a) (mixHash (hash b) (hash c)))
  | .arith o a b => mixHash 12 (mixHash (Hashable.hash o) (mixHash (hash a) (hash b)))
  | .neg a => mixHash 13 (hash a)
  | .compare o a b => mixHash 14 (mixHash (Hashable.hash o) (mixHash (hash a) (hash b)))
  | .app f as => mixHash 15 (mixHash (Hashable.hash f) (hashList as))

def hashList : List Term → UInt64
  | [] => 17
  | a :: as => mixHash (hash a) (hashList as)
end

instance : Hashable Term := ⟨hash⟩

def bool? : Term → Option Bool
  | .bool b => some b
  | _ => none

def int? : Term → Option Int
  | .int n => some n
  | _ => none

def mkNot : Term → Term
  | .bool b => .bool (!b)
  | .not t => t
  | t => .not t

def conjuncts : Term → List Term
  | .bool true => []
  | .and ts => ts
  | t => [t]

def mkAnd (ts : List Term) : Term :=
  if ts.contains (.bool false) then .bool false
  else match ts.flatMap conjuncts with
    | [] => .bool true
    | [t] => t
    | ks => .and ks

def disjuncts : Term → List Term
  | .bool false => []
  | .or ts => ts
  | t => [t]

def mkOr (ts : List Term) : Term :=
  if ts.contains (.bool true) then .bool true
  else match ts.flatMap disjuncts with
    | [] => .bool false
    | [t] => t
    | ks => .or ks

def mkImplies (lhs rhs : Term) : Term :=
  match lhs, rhs with
  | .bool false, _ => .bool true
  | _, .bool true => .bool true
  | .bool true, r => r
  | l, .bool false => mkNot l
  | l, r => .implies l r

mutual
def consts : Term → List String
  | .bool _ | .int _ => []
  | .const x => [x]
  | .not a | .neg a => consts a
  | .and as | .or as | .distinct as | .app _ as => constsOf as
  | .implies a b | .iff a b | .eq a b | .arith _ a b | .compare _ a b => consts a ++ consts b
  | .ite a b c => consts a ++ (consts b ++ consts c)

def constsOf : List Term → List String
  | [] => []
  | a :: as => consts a ++ constsOf as
end

def isGround (t : Term) : Bool := t.consts.isEmpty

mutual
def substitute (f : String → Option Term) : Term → Term
  | .bool b => .bool b
  | .int n => .int n
  | .const x => (f x).getD (.const x)
  | .not a => .not (substitute f a)
  | .and as => .and (substituteAll f as)
  | .or as => .or (substituteAll f as)
  | .implies a b => .implies (substitute f a) (substitute f b)
  | .iff a b => .iff (substitute f a) (substitute f b)
  | .eq a b => .eq (substitute f a) (substitute f b)
  | .distinct as => .distinct (substituteAll f as)
  | .ite a b c => .ite (substitute f a) (substitute f b) (substitute f c)
  | .arith o a b => .arith o (substitute f a) (substitute f b)
  | .neg a => .neg (substitute f a)
  | .compare o a b => .compare o (substitute f a) (substitute f b)
  | .app g as => .app g (substituteAll f as)

def substituteAll (f : String → Option Term) : List Term → List Term
  | [] => []
  | a :: as => substitute f a :: substituteAll f as
end

end Term
end Consistency
