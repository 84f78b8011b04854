import Consistency.Script
import Consistency.Solver.Assignment
import Consistency.Solver.Kind
import Consistency.Term.Printer

/-!
# Answers of solvers

A solver finds a script satisfiable, with or without an assignment, finds it
unsatisfiable, gives up for a reason, or fails.
-/

set_option autoImplicit false

namespace Consistency

inductive SolverError where
  | notFound (kind : SolverKind) (path : String)
  | library (text : String)
  | emptyOutput (stderr : String)
  | rejected (line : String)
  | unexpected (line : String)
  | unbalancedClose
  | unbalancedOpen
  | undefinedSymbol (name : String)
  | intUsedAsBool (name : String)
  | boolUsedAsInt (name : String)
  | intAsFormula (term : Term)
  | formulaAsInt (term : Term)
  | uninterpretedSort (name : String)
  | incremental
  | nativeMissing
  deriving DecidableEq, Repr, Inhabited

namespace SolverError

def unreadable (text : String) : String := "Failed to parse solver output: " ++ text

def unsupported (text : String) : String := "Unsupported by backend: " ++ text

def message : SolverError → String
  | .notFound kind path => kind.title ++ " binary not found at: " ++ path
  | .library text => "Solver process error: varisat: " ++ text
  | .emptyOutput stderr => unreadable ("Empty solver output. stderr: " ++ stderr)
  | .rejected line => unreadable ("Solver rejected script: " ++ line)
  | .unexpected line => unreadable ("Unexpected solver output: " ++ line)
  | .unbalancedClose => unreadable "unbalanced ')'"
  | .unbalancedOpen => unreadable "unbalanced '('"
  | .undefinedSymbol name => unreadable ("Undefined symbol: " ++ name)
  | .intUsedAsBool name => unreadable (name ++ " used as Bool but declared Int")
  | .boolUsedAsInt name => unreadable (name ++ " used as Int but declared Bool")
  | .intAsFormula t => unreadable ("integer term " ++ t.render ++ " used as a formula")
  | .formulaAsInt t => unreadable ("formula " ++ t.render ++ " used as an integer")
  | .uninterpretedSort name => unsupported ("uninterpreted sort " ++ name)
  | .incremental => unsupported "incremental scripts (push/pop)"
  | .nativeMissing => unsupported "z3-native backend requires the \x60z3-native\x60 feature"

end SolverError

inductive Answer where
  | sat (model : Option Assignment)
  | unsat
  | unknown (reason : String)
  deriving DecidableEq, Repr, Inhabited

namespace Answer

def isSat : Answer → Bool
  | .sat _ => true
  | _ => false

def isUnsat : Answer → Bool
  | .unsat => true
  | _ => false

def isUnknown : Answer → Bool
  | .unknown _ => true
  | _ => false

def model? : Answer → Option Assignment
  | .sat m => m
  | _ => none

end Answer

abbrev Backend := Script → Except SolverError Answer

end Consistency
