import Consistency.Cnf.Encoder
import Consistency.Cnf.Problem

/-!
# The solver for finite domains

Decides scripts over Booleans and integers with finite domains, given a
procedure for clauses. The model that this finds is read back as an assignment,
under which every assertion is evaluated again before it is given as an answer.
-/

set_option autoImplicit false

namespace Consistency

namespace Encoder

def problem (e : Encoder) : Problem := ⟨e.vars, e.asserted ++ e.definitions⟩

def symbolText (τ : Nat → Bool) : Symbol → String
  | .bool l => toString (l.holds τ)
  | .int cases => Term.renderInt (((cases.find? fun c => c.1.holds τ).map Prod.snd).getD 0)
  | .unbound => Term.renderInt 0

def assignment (e : Encoder) (names : List String) (τ : Nat → Bool) : Assignment :=
  ⟨names.filterMap fun name => (e.symbols[name]?).map fun s => (name, symbolText τ s)⟩

end Encoder

namespace Script

def names (s : Script) : List String := distinct (s.declared.map Prod.fst)

def holdsUnder (s : Script) (m : Assignment) : Bool :=
  let table := m.table
  s.assertions.all fun t => t.eval (fun name => (table[name]?).join) == some (.bool true)

def decide (solve : SatSolver) (s : Script) : Except SolverError Answer :=
  match Encoder.ofScript s with
  | .error stop => stop.answer
  | .ok e =>
    match e.problem.decide solve with
    | .error text => .error (.library text)
    | .ok none => .ok .unsat
    | .ok (some τ) =>
      let m := e.assignment s.names τ
      if s.holdsUnder m then .ok (.sat (some m))
      else (Stop.gaveUp .notReproduced).answer

end Script
end Consistency
