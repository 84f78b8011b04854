import Std.Data.HashMap
import Std.Data.HashSet
import Consistency.Thread

/-!
# Composition of threads

Threads step independently. A global state has a local state for each thread
and the events emitted so far. Its key leaves out the identities of events and
the order in which the threads took turns.
-/

set_option autoImplicit false

namespace Consistency

structure GlobalState where
  locals : List LocalState
  /-- The latest event comes first. -/
  emitted : List Event
  terminated : OrderedSet Nat
  deriving DecidableEq, Repr, Inhabited

structure StateKey where
  locals : List LocalState
  events : List EventShape
  terminated : List Nat
  deriving DecidableEq, Repr, Inhabited, Hashable

namespace StateKey

def order (a b : StateKey) : Ordering :=
  (compare a.locals b.locals).then <| (compare a.events b.events).then
    (compare a.terminated b.terminated)

instance : Ord StateKey := ⟨order⟩

def withoutConstraints (k : StateKey) : StateKey :=
  { k with locals := k.locals.map fun s => { s with constraints := .empty } }

end StateKey

namespace GlobalState

def isTerminal (s : GlobalState) : Bool := s.terminated.size == s.locals.length

def events (s : GlobalState) : List Event := s.emitted.reverse

def shapes (s : GlobalState) : List EventShape :=
  (s.emitted.map Event.shape).mergeSort fun a b => (compare a b).isLE

def key (s : GlobalState) : StateKey := ⟨s.locals, s.shapes, s.terminated.toList⟩

def shapeKey (s : GlobalState) : StateKey := s.key.withoutConstraints

def constraints (s : GlobalState) : OrderedSet Term :=
  .ofList (s.locals.flatMap fun l => l.constraints.toList)

def coveredBy (s t : GlobalState) : Bool :=
  s.locals.length == t.locals.length && s.terminated == t.terminated &&
    (s.locals.zip t.locals).all (fun p => p.1.coveredBy p.2) && s.shapes == t.shapes

end GlobalState

structure Visited where
  keys : Std.HashSet StateKey
  covers : Std.HashMap StateKey (List GlobalState)

namespace Visited

def empty : Visited := ⟨∅, ∅⟩

def count (v : Visited) : Nat := v.keys.size

def visit (v : Visited) (k : StateKey) : Bool × Visited :=
  if v.keys.contains k then (false, v) else (true, { v with keys := v.keys.insert k })

/-- Whether a state of the record covers `s`; if none does, `s` joins the record. -/
def subsume (v : Visited) (s : GlobalState) : Bool × Visited :=
  let k := s.shapeKey
  let bucket := v.covers.getD k []
  if bucket.any s.coveredBy then (true, v)
  else (false, { v with covers := v.covers.insert k (s :: bucket) })

end Visited

structure Action where
  thread : Nat
  edge : Nat
  deriving DecidableEq, Repr, Inhabited

structure Composition where
  threads : List Thread
  initialWrites : OrderedMap String Int
  deriving DecidableEq, Repr, Inhabited

namespace Composition

def ofAutomata (automata : List Automaton) (initial : List (String × Int)) : Composition where
  threads := automata.zipIdx.map fun (a, thread) => ⟨thread, a⟩
  initialWrites :=
    let accessed := automata.flatMap fun a => a.sharedVars.toList
    .ofList (accessed.map (fun x => (x, 0)) ++ initial)

def initialEvents (c : Composition) (allocated : Nat) : List Event :=
  c.initialWrites.entries.zipIdx.map fun ((x, v), i) =>
    .make (allocated + i) .init x .write i (some (.int v))

def terminatedAt (c : Composition) (locals : List LocalState) : OrderedSet Nat :=
  .ofList (((c.threads.zip locals).filter fun (t, l) => t.isTerminated l).map (·.1.id))

def init (c : Composition) (allocated : Nat) : GlobalState × Nat :=
  let locals := c.threads.map Thread.initialState
  let events := c.initialEvents allocated
  (⟨locals, events.reverse, c.terminatedAt locals⟩, allocated + events.length)

def enabled (c : Composition) (s : GlobalState) : List Action :=
  (c.threads.zip s.locals).zipIdx.flatMap fun ((t, l), i) =>
    if s.terminated.contains i then [] else (t.enabled l).map fun e => ⟨i, e⟩

def settle (s : GlobalState) (emitted : List Event) (thread : Nat) (t : Thread)
    (next : LocalState) : GlobalState where
  locals := s.locals.set thread next
  emitted := emitted
  terminated := if t.isTerminated next then s.terminated.insert thread else s.terminated

/-- The successors of a state by an action, and the number of events allocated by then. All
successors share the event of the step. -/
def trans (c : Composition) (precision : Precision) (s : GlobalState) (a : Action)
    (allocated : Nat) : List GlobalState × Nat :=
  match c.threads[a.thread]?, s.locals[a.thread]? with
  | some t, some l =>
    if s.terminated.contains a.thread then ([], allocated)
    else
      let successors := t.step precision l a.edge
      if successors.isEmpty then ([], allocated)
      else match t.access l a.edge with
        | some x =>
          let e := Event.make allocated (.thread t.id) x.var x.kind l.accesses x.value
          (successors.map (settle s (e :: s.emitted) a.thread t), allocated + 1)
        | none => (successors.map (settle s s.emitted a.thread t), allocated)
  | _, _ => ([], allocated)

end Composition
end Consistency
