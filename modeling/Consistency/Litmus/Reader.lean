import Consistency.Json.Reader
import Consistency.Json.Record
import Consistency.Litmus

/-!
# Reading litmus tests

Litmus tests are JSON records. Instructions are objects with the name of the
instruction as their only field; integers must fit into 64 bits.
-/

set_option autoImplicit false

namespace Consistency.LitmusTest

/-- Whether digits, after at most a minus sign, make up the text of a number; a negative zero
is no integer. -/
def integer? (text : String) : Option Int :=
  match text.toList with
  | '-' :: digits => match Text.readNat digits with
    | some (n + 1) => some (-(n + 1 : Int))
    | _ => none
  | digits => (Text.readNat digits).map Int.ofNat

def int64? : Json → Option Int
  | .number text => (integer? text).filter fun n => -Int.pow 2 63 ≤ n ∧ n < Int.pow 2 63
  | _ => none

def word? : Json → Option Nat
  | .number text => ((integer? text).filter fun n => 0 ≤ n ∧ n < Int.pow 2 64).map Int.toNat
  | _ => none

def operatorFields (fields : List (String × Json)) : Option (Json × Json) := do
  let some op ← Json.uniqueField fields "op" | none
  let some args ← Json.uniqueField fields "args" | none
  return (op, args)

def readExpr : Nat → Json → Option Expr
  | 0, _ => none
  | fuel + 1, j => match j with
    | .number _ => (int64? j).map Expr.int
    | .bool b => some (.bool b)
    | .string s => some (.reg s)
    | .object fields => do
      let (op, args) ← operatorFields fields
      return .apply (← op.string?) (← (← args.array?).mapM (readExpr fuel))
    | _ => none

def expr? (j : Json) : Option Expr :=
  if j.isRead then readExpr (Json.nestingLimit + 1) j else none

def readInstr (body : Json → Option (List (Instr Expr))) (name : String) (j : Json) :
    Option (Instr Expr) :=
  match name with
  | "skip" => match j with
    | .null => some .skip
    | _ => none
  | "store" => do
    let [var, value] ← j.looseFields ["var", "value"] | none
    return .store (← Json.required Json.string? var) (← Json.required expr? value)
  | "load" => do
    let [reg, var] ← j.looseFields ["reg", "var"] | none
    return .load (← Json.required Json.string? reg) (← Json.required Json.string? var)
  | "assign" => do
    let [reg, value] ← j.looseFields ["reg", "value"] | none
    return .assign (← Json.required Json.string? reg) (← Json.required expr? value)
  | "nondet" => do
    let [reg, values] ← j.looseFields ["reg", "values"] | none
    return .nondet (← Json.required Json.string? reg) (← Json.required (Json.list? int64?) values)
  | "assume" => do
    let [cond] ← j.looseFields ["cond"] | none
    return .assume (← Json.required expr? cond)
  | "if" => do
    let [cond, yes, no] ← j.looseFields ["cond", "then", "else"] | none
    return .branch (← Json.required expr? cond) (← Json.required body yes)
      (← Json.orDefault [] body no)
  | "while" => do
    let [cond, code] ← j.looseFields ["cond", "body"] | none
    return .loop (← Json.required expr? cond) (← Json.required body code)
  | _ => none

def readCode : Nat → Json → Option (List (Instr Expr))
  | 0, _ => none
  | fuel + 1, j => do
    (← j.array?).mapM fun
      | .string "skip" => some .skip
      | .object [(name, arg)] => readInstr (readCode fuel) name arg
      | _ => none

def code? (j : Json) : Option (List (Instr Expr)) := readCode (Json.nestingLimit + 1) j

/-- A variable given twice has the later value. -/
def readInit : Json → Option (OrderedMap String Int)
  | .object fields => do
    return .ofList (← fields.mapM fun (x, v) => do return (x, ← int64? v))
  | _ => none

def readThread (j : Json) : Option ThreadSpec := do
  let [name, code] ← j.strictFields ["name", "code"] | none
  return ⟨← Json.orNull Json.string? name, ← Json.required code? code⟩

def ofJson? (j : Json) : Option LitmusTest := do
  let [name, init, threads, wanted, tracked, bound] ←
    j.strictFields ["name", "init", "threads", "exists", "tracked", "step_bound"] | none
  return ⟨← Json.required Json.string? name,
    ← Json.orDefault .empty readInit init,
    ← Json.required (Json.list? readThread) threads,
    ← Json.orNull Json.string? wanted,
    ← Json.orDefault [] (Json.list? Json.string?) tracked,
    ← Json.orNull word? bound⟩

def read? (text : String) : Option LitmusTest := (Json.read text).bind ofJson?

end Consistency.LitmusTest
