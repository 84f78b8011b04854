import Consistency.Ordered.Set

/-!
# Relation expressions

Relations between events, built from base relations, products and identities
of event sets, and names given by a memory model.
-/

set_option autoImplicit false

namespace Consistency

/-- Program order, reads-from, coherence, from-reads, same variable, same thread,
different threads, and identity. -/
inductive BaseRelation where
  | po | rf | co | fr | loc | int | ext | id
  deriving DecidableEq, Repr, Inhabited

namespace BaseRelation

def name : BaseRelation → String
  | .po => "po"
  | .rf => "rf"
  | .co => "co"
  | .fr => "fr"
  | .loc => "loc"
  | .int => "int"
  | .ext => "ext"
  | .id => "id"

def ofName? : String → Option BaseRelation
  | "po" => some .po
  | "rf" => some .rf
  | "co" => some .co
  | "fr" => some .fr
  | "loc" => some .loc
  | "int" => some .int
  | "ext" => some .ext
  | "id" => some .id
  | _ => none

end BaseRelation

inductive EventSet where
  | reads | writes | memory | initWrites
  deriving DecidableEq, Repr, Inhabited

namespace EventSet

def name : EventSet → String
  | .reads => "R"
  | .writes => "W"
  | .memory => "M"
  | .initWrites => "IW"

def ofName? : String → Option EventSet
  | "R" => some .reads
  | "W" => some .writes
  | "M" => some .memory
  | "IW" => some .initWrites
  | _ => none

end EventSet

inductive RelOp where
  | union | diff | inter | seq
  deriving DecidableEq, Repr, Inhabited

namespace RelOp

def symbol : RelOp → String
  | .union => "|"
  | .diff => "\\"
  | .inter => "&"
  | .seq => ";"

def strength : RelOp → Nat
  | .union => 1
  | .diff => 2
  | .inter => 3
  | .seq => 4

end RelOp

inductive RelSuffix where
  | inverse | plus | star | optional
  deriving DecidableEq, Repr, Inhabited

def RelSuffix.symbol : RelSuffix → String
  | .inverse => "^-1"
  | .plus => "+"
  | .star => "*"
  | .optional => "?"

inductive RelExpr where
  | base (rel : BaseRelation)
  | named (name : String)
  | product (lhs rhs : EventSet)
  | identity (set : EventSet)
  | binary (op : RelOp) (lhs rhs : RelExpr)
  | suffixed (op : RelSuffix) (operand : RelExpr)
  deriving DecidableEq, Repr, Inhabited

namespace RelExpr

def ofName (name : String) : RelExpr :=
  match BaseRelation.ofName? name with
  | some rel => .base rel
  | none => .named name

def union (a b : RelExpr) : RelExpr := .binary .union a b

def unionAll : List RelExpr → Option RelExpr
  | [] => none
  | e :: es => some (es.foldl union e)

def names : RelExpr → List String
  | .base _ | .product _ _ | .identity _ => []
  | .named name => [name]
  | .binary _ a b => a.names ++ b.names
  | .suffixed _ a => a.names

def references (e : RelExpr) : OrderedSet String := .ofList e.names

def isAtomic : RelExpr → Bool
  | .base _ | .named _ | .identity _ => true
  | _ => false

/-- Operations are written in parentheses, products are not. -/
def render : RelExpr → String
  | .base rel => rel.name
  | .named name => name
  | .product a b => a.name ++ " * " ++ b.name
  | .identity s => "[" ++ s.name ++ "]"
  | .binary op a b => "(" ++ a.render ++ " " ++ op.symbol ++ " " ++ b.render ++ ")"
  | .suffixed op a =>
    if a.isAtomic then a.render ++ op.symbol else "(" ++ a.render ++ ")" ++ op.symbol

end RelExpr
end Consistency
