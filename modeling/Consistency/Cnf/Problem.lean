import Std.Data.HashMap
import Consistency.Cnf.Clause

/-!
# Problems

A problem is a list of clauses that are to hold together. Whether they can is
for a procedure to say that is given the clauses only.
-/

set_option autoImplicit false

namespace Consistency

/-- An error, or the literals of a model if there is one. -/
abbrev SatSolver := List Clause → Except String (Option (List Lit))

structure Problem where
  /-- Variables are numbered below this. -/
  vars : Nat
  clauses : List Clause
  deriving DecidableEq, Repr, Inhabited

namespace Problem

def holds (p : Problem) (τ : Nat → Bool) : Bool := p.clauses.all (Clause.holds τ)

def table (model : List Lit) : Std.HashMap Nat Bool :=
  model.foldl (fun values l => values.insert l.var l.sign) ∅

def valuation (model : List Lit) : Nat → Bool :=
  let values := table model
  fun v => values.getD v false

def decide (solve : SatSolver) (p : Problem) : Except String (Option (Nat → Bool)) :=
  if p.clauses.any List.isEmpty then .ok none
  else (solve p.clauses).map (Option.map valuation)

def support (p : Problem) : List Nat := (p.clauses.flatMap fun c => c.map Lit.var).eraseDups

def update (τ : Nat → Bool) (v : Nat) (b : Bool) : Nat → Bool := fun n => if n = v then b else τ n

def tryAll (p : Problem) : List Nat → (Nat → Bool) → Option (Nat → Bool)
  | [], τ => if p.holds τ then some τ else none
  | v :: vs, τ => match tryAll p vs (update τ v false) with
    | some found => some found
    | none => tryAll p vs (update τ v true)

end Problem
end Consistency
