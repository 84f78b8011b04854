import Consistency.Term

/-!
# Scripts

A script is the list of commands given to a solver: declarations, assertions
and requests.
-/

set_option autoImplicit false

namespace Consistency

inductive ValueSort where
  | bool
  | int
  | uninterpreted (name : String)
  deriving DecidableEq, Repr, Inhabited

inductive Command where
  | setLogic (logic : String)
  | setOption (key value : String)
  | declareConst (name : String) (sort : ValueSort)
  | declareFun (name : String) (params : List ValueSort) (result : ValueSort)
  | defineFun (name : String) (params : List (String × ValueSort)) (result : ValueSort)
      (body : Term)
  | assert (formula : Term)
  | checkSat
  | getModel
  | getValue (terms : List Term)
  | push (levels : Nat)
  | pop (levels : Nat)
  | comment (text : String)
  | exit
  deriving DecidableEq, Repr, Inhabited

def Command.declared : Command → Option (String × ValueSort)
  | .declareConst name sort => some (name, sort)
  | .declareFun name [] sort => some (name, sort)
  | _ => none

def Command.assertion : Command → Option Term
  | .assert t => some t
  | _ => none

structure Script where
  commands : List Command
  deriving DecidableEq, Repr, Inhabited

namespace Script

def empty : Script := ⟨[]⟩

def push (s : Script) (c : Command) : Script := ⟨s.commands ++ [c]⟩

def append (s t : Script) : Script := ⟨s.commands ++ t.commands⟩

def assert (s : Script) (t : Term) : Script := if t = .bool true then s else s.push (.assert t)

def size (s : Script) : Nat := s.commands.length

def isEmpty (s : Script) : Bool := s.commands.isEmpty

def declared (s : Script) : List (String × ValueSort) := s.commands.filterMap Command.declared

def assertions (s : Script) : List Term := s.commands.filterMap Command.assertion

end Script
end Consistency
