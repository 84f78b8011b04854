import Consistency.Term.Order
import Consistency.Term.Printer

/-!
# Memory events

A read or write of a shared variable, at a position in the program order of its
thread or among the initial writes. The value of a read is a symbol named after
its position, which a solver fixes later.
-/

set_option autoImplicit false

namespace Consistency

inductive Owner where
  | thread (id : Nat)
  | init
  deriving DecidableEq, Repr, Inhabited, Hashable

namespace Owner

/-- The owner of the initial writes has the greatest machine word for its number. -/
def number : Owner → Nat
  | .thread id => id
  | .init => Nat.pow 2 64 - 1

def order : Owner → Owner → Ordering
  | .thread a, .thread b => compare a b
  | .thread _, .init => .lt
  | .init, .thread _ => .gt
  | .init, .init => .eq

instance : Ord Owner := ⟨order⟩

end Owner

inductive EventKind where
  | read | write
  deriving DecidableEq, Repr, Inhabited, Hashable, Ord

def EventKind.letter : EventKind → String
  | .read => "R"
  | .write => "W"

def readSymbol (thread index : Nat) : String :=
  "rv_t" ++ toString thread ++ "_" ++ toString index

structure Event where
  id : Nat
  owner : Owner
  var : String
  kind : EventKind
  index : Nat
  /-- The value written. -/
  value : Option Term
  deriving DecidableEq, Repr, Inhabited

namespace Event

def make (id : Nat) (owner : Owner) (var : String) (kind : EventKind) (index : Nat)
    (value : Option Term) : Event where
  id := id
  owner := owner
  var := var
  kind := kind
  index := index
  value := match kind with
    | .write => value
    | .read => none

def isRead (e : Event) : Bool := e.kind == .read

def isWrite (e : Event) : Bool := e.kind == .write

def isInit (e : Event) : Bool := e.owner == .init

def symbol (e : Event) : String := readSymbol e.owner.number e.index

def symbol? (e : Event) : Option String := if e.isRead then some e.symbol else none

def valueTerm (e : Event) : Term :=
  match e.value, e.kind with
  | some t, _ => t
  | none, .read => .const e.symbol
  | none, .write => .int 0

def position (e : Event) : String :=
  match e.owner with
  | .init => "@init"
  | .thread id => "@T" ++ toString id ++ "." ++ toString e.index

def label (e : Event) : String :=
  let stored := match e.value with
    | some t => "=" ++ t.render
    | none => ""
  e.kind.letter ++ "(" ++ e.var ++ ")" ++ stored ++ e.position

def name (e : Event) : String := "e" ++ toString e.id

end Event

structure EventShape where
  owner : Owner
  index : Nat
  var : String
  kind : EventKind
  value : Option Term
  deriving DecidableEq, Repr, Inhabited, Hashable

namespace EventShape

def order (a b : EventShape) : Ordering :=
  (compare a.owner b.owner).then <| (compare a.index b.index).then <|
    (compare a.var b.var).then <| (compare a.kind b.kind).then (compare a.value b.value)

instance : Ord EventShape := ⟨order⟩

end EventShape

def Event.shape (e : Event) : EventShape := ⟨e.owner, e.index, e.var, e.kind, e.value⟩

end Consistency
