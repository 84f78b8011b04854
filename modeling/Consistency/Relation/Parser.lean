import Consistency.Relation
import Consistency.Text

/-!
# Reading relation expressions

Union binds loosest, then difference, intersection and composition, each to the
left; the suffixes bind tightest. Reading keeps the operations that still wait
for an operand on a stack and alternates between operands and operators.
-/

set_option autoImplicit false

namespace Consistency

inductive RelToken where
  | name (text : String)
  | binary (op : RelOp)
  | suffix (op : RelSuffix)
  | openParen
  | closeParen
  | openSet
  | closeSet
  deriving DecidableEq, Repr, Inhabited

def RelToken.text : RelToken → String
  | .name text => text
  | .binary op => op.symbol
  | .suffix op => op.symbol
  | .openParen => "("
  | .closeParen => ")"
  | .openSet => "["
  | .closeSet => "]"

inductive RelFault where
  | brokenInverse
  | unexpectedChar (c : Char)
  | unexpected (token : RelToken)
  | unexpectedEnd
  | expected (token : RelToken)
  | notASet (name : String)
  | expectedSet
  deriving DecidableEq, Repr, Inhabited

def RelFault.message : RelFault → String
  | .brokenInverse => "expected '^-1'"
  | .unexpectedChar c => "unexpected character '" ++ c.toString ++ "'"
  | .unexpected token => "unexpected '" ++ token.text ++ "'"
  | .unexpectedEnd => "unexpected end of input"
  | .expected token => "expected '" ++ token.text ++ "'"
  | .notASet name => "'" ++ name ++ "' is not an event set"
  | .expectedSet => "expected an event set"

namespace RelToken

def isNameStart (c : Char) : Bool := c.isAlpha || c == '_'

def isNameChar (c : Char) : Bool := c.isAlphanum || c == '_' || c == '-' || c == '.'

def ofChar? : Char → Option RelToken
  | '|' => some (.binary .union)
  | '\\' => some (.binary .diff)
  | '&' => some (.binary .inter)
  | ';' => some (.binary .seq)
  | '+' => some (.suffix .plus)
  | '*' => some (.suffix .star)
  | '?' => some (.suffix .optional)
  | '(' => some .openParen
  | ')' => some .closeParen
  | '[' => some .openSet
  | ']' => some .closeSet
  | _ => none

def endName (word : List Char) (rest : List RelToken) : List RelToken :=
  if word.isEmpty then rest else .name (String.ofList word.reverse) :: rest

def scan (word : List Char) : List Char → Except RelFault (List RelToken)
  | [] => .ok (endName word [])
  | '^' :: '-' :: '1' :: cs =>
    (scan [] cs).map fun ts => endName word (.suffix .inverse :: ts)
  | c :: cs =>
    if !word.isEmpty && isNameChar c then scan (c :: word) cs
    else if isNameStart c then (scan [c] cs).map (endName word)
    else if Text.isBlank c then (scan [] cs).map (endName word)
    else if c = '^' then .error .brokenInverse
    else match ofChar? c with
      | some t => (scan [] cs).map fun ts => endName word (t :: ts)
      | none => .error (.unexpectedChar c)

def tokens (text : List Char) : Except RelFault (List RelToken) := scan [] text

end RelToken

inductive RelFrame where
  | paren
  | operand (op : RelOp) (lhs : RelExpr)
  deriving DecidableEq, Repr, Inhabited

namespace RelFrame

def isParen : RelFrame → Bool
  | .paren => true
  | .operand _ _ => false

def close (strength : Nat) : List RelFrame → RelExpr → List RelFrame × RelExpr
  | .operand op lhs :: stack, e =>
    if strength ≤ op.strength then close strength stack (.binary op lhs e)
    else (.operand op lhs :: stack, e)
  | stack, e => (stack, e)

end RelFrame

namespace RelExpr

mutual
def readOperand (stack : List RelFrame) : List RelToken → Except RelFault RelExpr
  | .openParen :: ts => readOperand (.paren :: stack) ts
  | .openSet :: .name n :: rest => match EventSet.ofName? n with
    | none => .error (.notASet n)
    | some s => match rest with
      | .closeSet :: ts => readOperator stack (.identity s) ts
      | _ => .error (.expected .closeSet)
  | .openSet :: _ => .error .expectedSet
  | .name n :: rest => match EventSet.ofName? n with
    | none => readOperator stack (ofName n) rest
    | some lhs => match rest with
      | .suffix .star :: .name m :: ts => match EventSet.ofName? m with
        | some rhs => readOperator stack (.product lhs rhs) ts
        | none => .error (.notASet m)
      | .suffix .star :: _ => .error .expectedSet
      | _ => .error (.expected (.suffix .star))
  | t :: _ => .error (.unexpected t)
  | [] => .error .unexpectedEnd

def readOperator (stack : List RelFrame) (e : RelExpr) : List RelToken → Except RelFault RelExpr
  | [] => match RelFrame.close 0 stack e with
    | ([], e) => .ok e
    | _ => .error (.expected .closeParen)
  | .suffix op :: ts => readOperator stack (.suffixed op e) ts
  | .binary op :: ts =>
    let (stack, lhs) := RelFrame.close op.strength stack e
    readOperand (.operand op lhs :: stack) ts
  | .closeParen :: ts => match RelFrame.close 0 stack e with
    | (_ :: stack, e) => readOperator stack e ts
    | ([], _) => .error (.unexpected .closeParen)
  | t :: _ =>
    if stack.any RelFrame.isParen then .error (.expected .closeParen)
    else .error (.unexpected t)
end

def read (text : String) : Except RelFault RelExpr := do
  readOperand [] (← RelToken.tokens text.toList)

end RelExpr
end Consistency
