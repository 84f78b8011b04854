import Consistency.Automaton
import Consistency.Event
import Consistency.Ordered.Map
import Consistency.Term.Domain
import Consistency.Term.Simplify

/-!
# Steps of a thread

A thread moves along the edges of its automaton. Registers hold simplified
terms over the symbols of earlier reads and choices; a guard that these leave
open is kept as a constraint of the path.
-/

set_option autoImplicit false

namespace Consistency

structure Precision where
  tracked : OrderedSet String
  stepBound : Option Nat
  deriving DecidableEq, Repr, Inhabited

namespace Precision

def default : Precision := ⟨.empty, none⟩

def tracks (p : Precision) (reg : String) : Bool := p.tracked.contains reg

def exhausted (p : Precision) (steps : Nat) : Bool :=
  match p.stepBound with
  | some bound => bound ≤ steps
  | none => false

end Precision

structure LocalState where
  location : Nat
  valuation : OrderedMap String Term
  constraints : OrderedSet Term
  accesses : Nat
  steps : Nat
  deriving DecidableEq, Repr, Inhabited, Hashable

namespace LocalState

def start (location : Nat) : LocalState := ⟨location, .empty, .empty, 0, 0⟩

def order (s t : LocalState) : Ordering :=
  (compare s.location t.location).then <| (compare s.valuation t.valuation).then <|
    (compare s.constraints t.constraints).then <| (compare s.accesses t.accesses).then
      (compare s.steps t.steps)

instance : Ord LocalState := ⟨order⟩

def register (s : LocalState) (reg : String) : Term := (s.valuation.get? reg).getD (.int 0)

def eval (s : LocalState) (t : Term) : Term := (t.substitute fun reg => s.register reg).simplify

def assign (s : LocalState) (reg : String) (value : Term) : LocalState :=
  { s with valuation := s.valuation.insert reg value }

def constrain (s : LocalState) (guard : Term) : LocalState :=
  { s with constraints := s.constraints.insert guard }

def coveredBy (s t : LocalState) : Bool :=
  s.location == t.location && s.accesses == t.accesses && s.steps == t.steps &&
    s.valuation == t.valuation && t.constraints.subset s.constraints

end LocalState

structure Access where
  var : String
  kind : EventKind
  value : Option Term
  deriving DecidableEq, Repr, Inhabited

structure Thread where
  id : Nat
  automaton : Automaton
  deriving DecidableEq, Repr, Inhabited

namespace Thread

def choiceSymbol (thread step : Nat) : String :=
  "nd_t" ++ toString thread ++ "_" ++ toString step

def initialState (t : Thread) : LocalState := .start t.automaton.initial

def isTerminated (t : Thread) (s : LocalState) : Bool := t.automaton.isTerminal s.location

def enabled (t : Thread) (s : LocalState) : List Nat := t.automaton.outgoing s.location

def accessOf (s : LocalState) : Label → Option Access
  | .load _ var => some ⟨var, .read, none⟩
  | .store var value => some ⟨var, .write, some (s.eval value)⟩
  | _ => none

def access (t : Thread) (s : LocalState) (edge : Nat) : Option Access :=
  (t.automaton.edge? edge).bind fun e => accessOf s e.label

def advance (s : LocalState) (e : Edge) : LocalState :=
  { s with
    location := e.target
    accesses := s.accesses + (if e.label.sharedVar?.isSome then 1 else 0)
    steps := s.steps + 1 }

def choose (t : Thread) (precision : Precision) (s next : LocalState) (reg : String)
    (values : List Int) : List LocalState :=
  let values := (OrderedSet.ofList values).toList
  if values.isEmpty then []
  else if precision.tracks reg then values.map fun v => next.assign reg (.int v)
  else
    let symbol := choiceSymbol t.id s.steps
    [(next.constrain (.oneOf symbol values)).assign reg (.const symbol)]

def follow (t : Thread) (precision : Precision) (s : LocalState) (e : Edge) : List LocalState :=
  let next := advance s e
  match e.label with
  | .skip | .store _ _ => [next]
  | .assume cond => match s.eval cond with
    | .bool true => [next]
    | .bool false => []
    | guard => [next.constrain guard]
  | .assign reg value => [next.assign reg (s.eval value)]
  | .nondet reg values => t.choose precision s next reg values
  | .load reg _ => [next.assign reg (.const (readSymbol t.id s.accesses))]

def step (t : Thread) (precision : Precision) (s : LocalState) (edge : Nat) : List LocalState :=
  match t.automaton.edge? edge with
  | none => []
  | some e =>
    if e.source ≠ s.location ∨ precision.exhausted s.steps then [] else t.follow precision s e

end Thread
end Consistency
