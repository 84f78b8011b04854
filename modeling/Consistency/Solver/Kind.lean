import Consistency.Text

/-!
# External solvers

The solver programs that can be driven through their standard input, and the
arguments each of them takes.
-/

set_option autoImplicit false

namespace Consistency

inductive SolverKind where
  | z3
  | cvc5
  | yices
  deriving DecidableEq, Repr, Inhabited

namespace SolverKind

def title : SolverKind → String
  | .z3 => "Z3"
  | .cvc5 => "CVC5"
  | .yices => "Yices"

def binary : SolverKind → String
  | .z3 => "z3"
  | .cvc5 => "cvc5"
  | .yices => "yices-smt2"

def ofLower? : String → Option SolverKind
  | "z3" => some .z3
  | "cvc5" => some .cvc5
  | "yices" | "yices2" | "yices-smt2" => some .yices
  | _ => none

def ofName? (name : String) : Option SolverKind := ofLower? (Text.lower name)

def unknownMessage (name : String) : String :=
  "Unknown solver: " ++ name ++ ". Valid options: z3, cvc5, yices"

def stdinArgs : SolverKind → List String
  | .z3 => ["-in", "-smt2"]
  | .cvc5 => ["--lang", "smt2", "--produce-models"]
  | .yices => []

/-- No argument stands for no limit; Yices takes whole seconds, rounded up. -/
def timeoutArg (kind : SolverKind) (milliseconds : Nat) : Option String :=
  if milliseconds = 0 then none
  else some <| match kind with
    | .z3 => "-t:" ++ toString milliseconds
    | .cvc5 => "--tlimit-per=" ++ toString milliseconds
    | .yices => "--timeout=" ++ toString ((milliseconds + 999) / 1000)

def args (kind : SolverKind) (milliseconds : Nat) (extra : List String) : List String :=
  kind.stdinArgs ++ (kind.timeoutArg milliseconds).toList ++ extra

end SolverKind
end Consistency
