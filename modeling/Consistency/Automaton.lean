import Consistency.Automaton.Arena

/-!
# Thread automata

The control flow of a thread. Wherever an automaton comes from, the edges listed
at a location are those that leave it.
-/

set_option autoImplicit false

namespace Consistency

structure Automaton extends Arena where
  indexed : toArena.Indexed
  deriving DecidableEq, Repr

namespace Automaton
open Arena (Building)

def single (name : String) : Automaton := ⟨.single name, Arena.single_indexed name⟩

instance : Inhabited Automaton := ⟨single ""⟩

def straightLine (name : String) (labels : List Label) : Automaton :=
  ⟨.straightLine name labels, Arena.straightLine_indexed name labels⟩

def build {α : Type} (a : Automaton) (call : Building α) (keeps : call.Keeps) :
    Except UnknownLocation Automaton :=
  match call.run a.toArena with
  | .ok _ _ => .ok ⟨call.after a.toArena, keeps a.toArena a.indexed⟩
  | .error e _ => .error e

def addLocation (a : Automaton) : Automaton := ⟨a.enlarge, a.indexed.enlarge⟩

def addEdge (a : Automaton) (source target : Nat) (label : Label) :
    Except UnknownLocation Automaton :=
  a.build (Arena.addEdge source target label) (Arena.addEdge_keeps source target label)

def setInitial (a : Automaton) (location : Nat) : Except UnknownLocation Automaton :=
  a.build (Arena.setInitial location) (Arena.setInitial_keeps location)

def markFinal (a : Automaton) (location : Nat) : Except UnknownLocation Automaton :=
  a.build (Arena.markFinal location) (Arena.markFinal_keeps location)

def connect (a : Automaton) (source target : Nat) (label : Label) : Automaton :=
  (a.addEdge source target label).toOption.getD a

def extend (a : Automaton) (source : Nat) (label : Label) : Automaton :=
  a.addLocation.connect source a.locations label

end Automaton
end Consistency
