import Consistency.Script.Printer

/-!
# The text sent to solvers

A script is completed by what it leaves out: the option to produce models, a
logic, and the final requests.
-/

set_option autoImplicit false

namespace Consistency

namespace Term

def isLiteralInt : Term → Bool
  | .int _ => true
  | _ => false

mutual
def nonlinear : Term → Bool
  | .bool _ | .int _ | .const _ => false
  | .not a | .neg a => nonlinear a
  | .and as | .or as | .distinct as | .app _ as => nonlinearAny as
  | .ite a b c => nonlinear a || nonlinear b || nonlinear c
  | .implies a b | .iff a b | .eq a b | .compare _ a b => nonlinear a || nonlinear b
  | .arith .mul a b => (!a.isLiteralInt && !b.isLiteralInt) || nonlinear a || nonlinear b
  | .arith .div a b | .arith .mod a b => !b.isLiteralInt || nonlinear a || nonlinear b
  | .arith .add a b | .arith .sub a b => nonlinear a || nonlinear b

def nonlinearAny : List Term → Bool
  | [] => false
  | a :: as => nonlinear a || nonlinearAny as
end

end Term

namespace Script

def logic (s : Script) : String := if s.assertions.any Term.nonlinear then "QF_NIA" else "QF_LIA"

def producesModels : Command → Bool
  | .setOption "produce-models" _ => true
  | _ => false

def choosesLogic : Command → Bool
  | .setLogic _ => true
  | _ => false

def request (s : Script) : String :=
  let lacks (p : Command → Bool) : Bool := !s.commands.any p
  let line (c : Command) : String := c.render ++ "\n"
  let header :=
    (if lacks producesModels then line (.setOption "produce-models" "true") else "") ++
    (if lacks choosesLogic then line (.setLogic s.logic) else "")
  let footer :=
    (if lacks (· == .checkSat) then line .checkSat else "") ++
    (if lacks (· == .getModel) then line .getModel else "")
  header ++ s.render ++ "\n" ++ footer

end Script
end Consistency
