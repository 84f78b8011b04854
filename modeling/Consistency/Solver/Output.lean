import Consistency.Solver.Sexp

/-!
# What solvers print

The first line that is not blank is the verdict. After `sat` the definitions of
constants are collected wherever they stand; after `unknown` the next line may
give a reason.
-/

set_option autoImplicit false

namespace Consistency.Output

def stripBars (name : String) : String :=
  let s := name.toList.dropWhile (· == '|')
  String.ofList (s.reverse.dropWhile (· == '|')).reverse

def definition? : List Sexp → Option (List (String × String))
  | [.atom head, .atom name, .list params, _, value] =>
    if head = "define-fun" then
      some (if params.isEmpty then [(stripBars name, value.render)] else [])
    else none
  | _ => none

mutual
def definitions : Sexp → List (String × String)
  | .atom _ => []
  | .list items => (definition? items).getD (definitionsOf items)

def definitionsOf : List Sexp → List (String × String)
  | [] => []
  | e :: es => definitions e ++ definitionsOf es
end

def readModel (text : List Char) : Except SolverError (Option Assignment) :=
  if Text.hasPart "define-fun".toList text then do
    let found := definitionsOf (← Sexp.read text)
    return if found.isEmpty then none else some ⟨found⟩
  else return none

def trimString (s : String) : String := String.ofList (Text.trim s.toList)

def reason (line : List Char) : Option String :=
  let s := line.dropWhile (· == '(')
  let s := (s.reverse.dropWhile (· == ')')).reverse
  if s.isEmpty || "error".toList.isPrefixOf s then none else some (String.ofList s)

def joinLines : List (List Char) → List Char
  | [] => []
  | [l] => l
  | l :: ls => l ++ ' ' :: joinLines ls

def timedOut (stderr : String) : Bool := Text.hasPart "timeout".toList stderr.toList

def read (stdout stderr : String) : Except SolverError Answer :=
  let lines := ((Text.lines stdout.toList).map Text.trim).filter (!·.isEmpty)
  match lines with
  | [] =>
    if timedOut stderr then .ok (.unknown "timeout")
    else .error (.emptyOutput (trimString stderr))
  | first :: rest =>
    match String.ofList first with
    | "unsat" => .ok .unsat
    | "sat" => (readModel (joinLines rest)).map Answer.sat
    | "unknown" =>
      let told := trimString stderr
      let fallback := if told.isEmpty then "unknown" else told
      .ok (.unknown ((rest.head?.bind reason).getD fallback))
    | "timeout" => .ok (.unknown "timeout")
    | line => if "(error".toList.isPrefixOf first then .error (.rejected line)
        else .error (.unexpected line)

def answer (stdout stderr : String) : Except SolverError Answer :=
  if trimString stdout = "timeout" || timedOut stderr then .ok (.unknown "timeout")
  else read stdout stderr

end Consistency.Output
