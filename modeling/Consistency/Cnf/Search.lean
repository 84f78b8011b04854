import Consistency.Cnf.Engine

/-!
# Models of clauses

A procedure that any program with clauses can be run with. The engine decides.
Should it end without an answer, all assignments are tried.
-/

set_option autoImplicit false

namespace Consistency

namespace Problem

/-- More steps than any search takes. -/
def patience : Nat := Nat.pow 2 50

def exhaust (p : Problem) : Option (Nat → Bool) := p.tryAll p.support fun _ => false

def solve (p : Problem) : Option (Nat → Bool) :=
  match Engine.run patience (Engine.start p) with
  | .model τ _ => some τ
  | .refuted _ => none
  | .undecided => p.exhaust

def ofClauses (cs : List Clause) : Problem :=
  ⟨(cs.flatMap fun c => c.map Lit.var).foldl max 0 + 1, cs⟩

end Problem

def SatSolver.engine : SatSolver := fun cs =>
  let p := Problem.ofClauses cs
  .ok (p.solve.map fun τ => (List.range p.vars).map fun v => ⟨v, τ v⟩)

end Consistency
