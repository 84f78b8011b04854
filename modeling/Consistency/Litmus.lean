import Consistency.Automaton
import Consistency.Outcome

/-!
# Litmus tests

A litmus test gives the code of some threads, initial values of shared
variables, and the outcome to look for. Code is structured: branches and loops
are lowered to guarded edges of the automaton of the thread.
-/

set_option autoImplicit false

namespace Consistency

inductive Expr where
  | int (value : Int)
  | bool (value : Bool)
  | reg (name : String)
  | apply (op : String) (args : List Expr)
  deriving Repr, Inhabited

inductive LitmusError where
  | arity (op : String) (wanted given : Nat)
  | unknownOperator (op : String)
  | noValues (reg : String)
  | noThreads (name : String)
  deriving DecidableEq, Repr, Inhabited

def LitmusError.message : LitmusError → String
  | .arity op wanted given =>
    "operator '" ++ op ++ "' takes " ++ toString wanted ++ " argument(s), got " ++ toString given
  | .unknownOperator op => "unknown operator '" ++ op ++ "'"
  | .noValues reg => "nondet '" ++ reg ++ "' has no values"
  | .noThreads name => "'" ++ name ++ "' has no threads"

namespace Expr

def applyUnary (op : String) (build : Term → Term) : List Term → Except LitmusError Term
  | [a] => .ok (build a)
  | args => .error (.arity op 1 args.length)

def binary? : String → Option (Term → Term → Term)
  | "+" => some (.arith .add)
  | "-" => some (.arith .sub)
  | "*" => some (.arith .mul)
  | "/" => some (.arith .div)
  | "%" => some (.arith .mod)
  | "==" => some .eq
  | "!=" => some fun a b => .mkNot (.eq a b)
  | "<" => some (.compare .lt)
  | "<=" => some (.compare .le)
  | ">" => some (.compare .gt)
  | ">=" => some (.compare .ge)
  | _ => none

/-- An operator that is none of the known ones is first held to two operands. -/
def applyBinary (op : String) : List Term → Except LitmusError Term
  | [a, b] => match binary? op with
    | some build => .ok (build a b)
    | none => .error (.unknownOperator op)
  | args => .error (.arity op 2 args.length)

def applyOp (op : String) (args : List Term) : Except LitmusError Term :=
  match op with
  | "and" | "&&" => .ok (.mkAnd args)
  | "or" | "||" => .ok (.mkOr args)
  | "not" | "!" => applyUnary op .mkNot args
  | "neg" => applyUnary op .neg args
  | _ => applyBinary op args

mutual
def toTerm : Expr → Except LitmusError Term
  | .int n => .ok (.int n)
  | .bool b => .ok (.bool b)
  | .reg name => .ok (.const name)
  | .apply op args => do applyOp op (← toTerms args)

def toTerms : List Expr → Except LitmusError (List Term)
  | [] => .ok []
  | e :: es => do
    let t ← toTerm e
    let ts ← toTerms es
    return t :: ts
end

end Expr

inductive Instr (ε : Type) where
  | skip
  | store (var : String) (value : ε)
  | load (reg var : String)
  | assign (reg : String) (value : ε)
  | nondet (reg : String) (values : List Int)
  | assume (cond : ε)
  | branch (cond : ε) (yes no : List (Instr ε))
  | loop (cond : ε) (body : List (Instr ε))
  deriving Repr, Inhabited

namespace Instr

mutual
def resolve : Instr Expr → Except LitmusError (Instr Term)
  | .skip => .ok .skip
  | .store var value => do return .store var (← value.toTerm)
  | .load reg var => .ok (.load reg var)
  | .assign reg value => do return .assign reg (← value.toTerm)
  | .nondet reg values =>
    if values.isEmpty then .error (.noValues reg) else .ok (.nondet reg values)
  | .assume cond => do return .assume (← cond.toTerm)
  | .branch cond yes no => do
    let c ← cond.toTerm
    let yes ← resolveAll yes
    let no ← resolveAll no
    return .branch c yes no
  | .loop cond body => do
    let c ← cond.toTerm
    let body ← resolveAll body
    return .loop c body

def resolveAll : List (Instr Expr) → Except LitmusError (List (Instr Term))
  | [] => .ok []
  | i :: is => do
    let i ← resolve i
    let is ← resolveAll is
    return i :: is
end

mutual
/-- Add code that starts at a location; the result ends with the location where it ends. -/
def lower (a : Automaton) (start : Nat) : Instr Term → Automaton × Nat
  | .skip => (a.extend start .skip, a.locations)
  | .store var value => (a.extend start (.store var value), a.locations)
  | .load reg var => (a.extend start (.load reg var), a.locations)
  | .assign reg value => (a.extend start (.assign reg value), a.locations)
  | .nondet reg values => (a.extend start (.nondet reg values), a.locations)
  | .assume cond => (a.extend start (.assume cond), a.locations)
  | .branch cond yes no =>
    let (b, yesEnd) := lowerAll (a.extend start (.assume cond)) a.locations yes
    let (c, noEnd) := lowerAll (b.extend start (.assume (.mkNot cond))) b.locations no
    let join := c.locations
    ((c.addLocation.connect yesEnd join .skip).connect noEnd join .skip, join)
  | .loop cond body =>
    let (b, bodyEnd) := lowerAll (a.extend start (.assume cond)) a.locations body
    let c := b.connect bodyEnd start .skip
    (c.extend start (.assume (.mkNot cond)), c.locations)

def lowerAll (a : Automaton) (start : Nat) : List (Instr Term) → Automaton × Nat
  | [] => (a, start)
  | i :: is =>
    let (b, middle) := lower a start i
    lowerAll b middle is
end

def compile (name : String) (code : List (Instr Term)) : Automaton :=
  let (a, stop) := lowerAll (.single name) 0 code
  { a with finals := a.finals.insert stop }

end Instr

structure ThreadSpec where
  name : Option String
  code : List (Instr Expr)
  deriving Repr, Inhabited

structure LitmusTest where
  name : String
  init : OrderedMap String Int
  threads : List ThreadSpec
  exists? : Option String
  tracked : List String
  stepBound : Option Nat
  deriving Repr, Inhabited

namespace LitmusTest

def automaton (index : Nat) (t : ThreadSpec) : Except LitmusError Automaton := do
  let code ← Instr.resolveAll t.code
  return Instr.compile (t.name.getD ("P" ++ toString index)) code

def automata (t : LitmusTest) : Except LitmusError (List Automaton) :=
  if t.threads.isEmpty then .error (.noThreads t.name)
  else t.threads.zipIdx.mapM fun (spec, i) => automaton i spec

def outcome (t : LitmusTest) : Except OutcomeError Outcome :=
  match t.exists? with
  | some text => Outcome.parse text
  | none => .ok .any

def precision (t : LitmusTest) (stepBound : Option Nat) : Precision :=
  ⟨.ofList t.tracked, stepBound.or t.stepBound⟩

end LitmusTest
end Consistency
