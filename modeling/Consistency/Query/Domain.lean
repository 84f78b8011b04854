import Consistency.Graph
import Consistency.Query.Odometer
import Consistency.Term.Domain
import Consistency.Term.Eval

/-!
# Values that reads may see

A least fixpoint over the writes of an event graph: a read may see whatever may
be written to its variable, and a write may store whatever its term evaluates
to. The search for it ends without a result when sets or rounds grow too many.
-/

set_option autoImplicit false

namespace Consistency.Query

abbrev Values := OrderedSet Int

def maxRounds : Nat := 16
def maxDomain : Nat := 64
def maxCombinations : Nat := 4096

def shown (wheels : List Wheel) : Environment := fun name =>
  (wheels.find? (·.name == name)).map fun w => .int w.value

inductive Bounds where
  | open
  | empty
  | finite (wheels : List Wheel)
  deriving DecidableEq, Repr

def boundsOf (symbols : OrderedMap String Values) (combinations : Nat) : List String → Bounds
  | [] => .finite []
  | x :: xs => match symbols.get? x with
    | none => .open
    | some values => match Wheel.ofValues? x values.toList with
      | none => .empty
      | some w =>
        if maxCombinations < combinations * values.size then .open
        else match boundsOf symbols (combinations * values.size) xs with
          | .finite rest => .finite (w :: rest)
          | other => other

/-- The integers a term may evaluate to; none if there are too many cases to try. -/
def possibleValues (t : Term) (symbols : OrderedMap String Values) : Option Values :=
  match boundsOf symbols 1 (OrderedSet.ofList t.consts).toList with
  | .open => none
  | .empty => some .empty
  | .finite wheels =>
    some ((Stage.trying wheels).gather (fun ws => (t.eval (shown ws)).bind Value.int?) .empty)

def statedDomains (g : EventGraph) : OrderedMap String Values :=
  .ofList <| (g.constraints.filterMap Term.domain?).map fun (x, vs) => (x, .ofList vs)

def readsOf (g : EventGraph) : List Event := g.events.toList.filter Event.isRead

def writesOf (g : EventGraph) : List Event := g.events.toList.filter Event.isWrite

def observe (g : EventGraph) (vars symbols : OrderedMap String Values) :
    OrderedMap String Values :=
  (readsOf g).foldl (fun m e => m.insert e.symbol ((vars.get? e.var).getD .empty)) symbols

def contribute (symbols : OrderedMap String Values) :
    List Event → OrderedMap String Values → Bool → Option (OrderedMap String Values × Bool)
  | [], vars, changed => some (vars, changed)
  | e :: es, vars, changed => do
    let values ← possibleValues e.valueTerm symbols
    let before := (vars.get? e.var).getD .empty
    let after := before.insertMany values.toList
    if maxDomain < after.size then none
    else contribute symbols es (vars.insert e.var after) (changed || after.size != before.size)

def iterate (g : EventGraph) : Nat → OrderedMap String Values → OrderedMap String Values →
    Option (OrderedMap String Values)
  | 0, _, _ => none
  | rounds + 1, vars, symbols => do
    let symbols := observe g vars symbols
    let (vars, changed) ← contribute symbols (writesOf g) vars false
    if changed then iterate g rounds vars symbols else return symbols

def valueDomains (g : EventGraph) : Option (OrderedMap String Values) :=
  iterate g maxRounds .empty (statedDomains g)

end Consistency.Query
