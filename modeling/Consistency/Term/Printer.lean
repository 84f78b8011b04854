import Consistency.Term

/-!
# The written form of terms

Terms are written as fully parenthesised expressions with the operator first. A
negative integer is written `(- n)`; `and` and `or` of fewer than two operands
and `distinct` of fewer than two need no operator.
-/

set_option autoImplicit false

namespace Consistency

def ArithOp.symbol : ArithOp → String
  | .add => "+"
  | .sub => "-"
  | .mul => "*"
  | .div => "div"
  | .mod => "mod"

def CompareOp.symbol : CompareOp → String
  | .lt => "<"
  | .le => "<="
  | .gt => ">"
  | .ge => ">="

def spaced (parts : List String) : String := " ".intercalate parts

def parens (parts : List String) : String := "(" ++ spaced parts ++ ")"

namespace Term

def renderInt (n : Int) : String :=
  if n < 0 then parens ["-", toString n.natAbs] else toString n

def renderNary (op empty : String) : List String → String
  | [] => empty
  | [t] => t
  | ts => parens (op :: ts)

mutual
def render : Term → String
  | .bool b => toString b
  | .int n => renderInt n
  | .const x => x
  | .not a => parens ["not", render a]
  | .and as => renderNary "and" "true" (renderAll as)
  | .or as => renderNary "or" "false" (renderAll as)
  | .implies a b => parens ["=>", render a, render b]
  | .iff a b | .eq a b => parens ["=", render a, render b]
  | .distinct as => match renderAll as with
    | [] | [_] => "true"
    | ts => parens ("distinct" :: ts)
  | .ite a b c => parens ["ite", render a, render b, render c]
  | .arith o a b => parens [o.symbol, render a, render b]
  | .neg a => parens ["-", render a]
  | .compare o a b => parens [o.symbol, render a, render b]
  | .app f as => match renderAll as with
    | [] => f
    | ts => parens (f :: ts)

def renderAll : List Term → List String
  | [] => []
  | a :: as => render a :: renderAll as
end

end Term
end Consistency
