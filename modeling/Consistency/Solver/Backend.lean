import Consistency.Solver.FiniteDomain

/-!
# Choice of a solver

The finite-domain solver is always there. External solvers would have to be
installed, and the binding to one of them is not part of this build.
-/

set_option autoImplicit false

namespace Consistency

inductive BackendKind where
  | builtin
  | external (kind : SolverKind)
  | native
  deriving DecidableEq, Repr, Inhabited

namespace BackendKind

def render : BackendKind → String
  | .builtin => "builtin"
  | .external kind => kind.binary
  | .native => "z3-native"

def unknownMessage (name : String) : String :=
  "Unknown solver: " ++ name ++ ". Valid options: builtin, z3, cvc5, yices, z3-native"

def ofLower? : String → Option BackendKind
  | "builtin" | "internal" => some .builtin
  | "z3-native" | "z3native" => some .native
  | other => (SolverKind.ofLower? other).map .external

def ofName? (name : String) : Option BackendKind := ofLower? (Text.lower name)

def start (solve : SatSolver) : BackendKind → Except SolverError Backend
  | .builtin => .ok (Script.decide solve)
  | .external kind => .error (.notFound kind kind.binary)
  | .native => .error .nativeMissing

end BackendKind
end Consistency
