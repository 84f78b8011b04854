import Consistency.Composition

/-!
# Event graphs

The events of a terminal state with what its threads ended in. Nodes are
numbered: initial writes first, then the events of each thread in program
order. Reads-from and coherence are left open; only candidates are listed.
-/

set_option autoImplicit false

namespace Consistency

structure EventGraph where
  events : Array Event
  threadNames : List String
  registers : List (OrderedMap String Term)
  constraints : List Term
  deriving DecidableEq, Repr, Inhabited

namespace EventGraph

def rank (e : Event) : Nat × Nat × Nat :=
  match e.owner with
  | .init => (0, 0, e.index)
  | .thread id => (1, id, e.index)

def rankOrder (a b : Nat × Nat × Nat) : Ordering :=
  (compare a.1 b.1).then ((compare a.2.1 b.2.1).then (compare a.2.2 b.2.2))

def comesFirst (a b : Event) : Bool := (rankOrder (rank a) (rank b)).isLE

def ofState (c : Composition) (s : GlobalState) : EventGraph where
  events := (s.events.mergeSort comesFirst).toArray
  threadNames := c.threads.map fun t => t.automaton.name
  registers := s.locals.map fun l => l.valuation
  constraints := s.constraints.toList

def size (g : EventGraph) : Nat := g.events.size

def nodes (g : EventGraph) : List Nat := List.range g.size

def event? (g : EventGraph) (node : Nat) : Option Event := g.events[node]?

def related (g : EventGraph) (p : Event → Event → Bool) (a b : Nat) : Bool :=
  match g.event? a, g.event? b with
  | some x, some y => p x y
  | _, _ => false

def isNode (g : EventGraph) (p : Event → Bool) (node : Nat) : Bool := (g.event? node).any p

def reads (g : EventGraph) : List Nat := g.nodes.filter (g.isNode Event.isRead)

def writes (g : EventGraph) : List Nat := g.nodes.filter (g.isNode Event.isWrite)

def writesTo (g : EventGraph) (var : String) : List Nat :=
  g.writes.filter (g.isNode fun e => e.var == var)

def sharedVars (g : EventGraph) : OrderedSet String := .ofList (g.events.toList.map Event.var)

def sameVar (g : EventGraph) : Nat → Nat → Bool := g.related fun x y => x.var == y.var

def sameThread (g : EventGraph) : Nat → Nat → Bool := g.related fun x y => x.owner == y.owner

def programOrder (g : EventGraph) : Nat → Nat → Bool :=
  g.related fun x y => !x.isInit && x.owner == y.owner && x.index < y.index

def poEdges (g : EventGraph) : List (Nat × Nat) :=
  (g.nodes.map fun i => (i, i + 1)).filter fun (a, b) => g.programOrder a b

def writesSameVar (g : EventGraph) (node : Nat) : List Nat := g.writes.filter (g.sameVar node)

def rfCandidates (g : EventGraph) : List (Nat × Nat) :=
  g.reads.flatMap fun r => (g.writesSameVar r).map fun w => (r, w)

def coCandidates (g : EventGraph) : List (Nat × Nat) :=
  g.writes.flatMap fun a => ((g.writesSameVar a).filter (· != a)).map fun b => (a, b)

def registerTerm (g : EventGraph) (thread : Nat) (reg : String) : Option Term :=
  g.registers[thread]?.map fun valuation => (valuation.get? reg).getD (.int 0)

def label (g : EventGraph) (node : Nat) : String :=
  match g.event? node with
  | some e => e.label
  | none => "#" ++ toString node

def owners (g : EventGraph) : OrderedSet Owner := .ofList (g.events.toList.map Event.owner)

def ownerName (g : EventGraph) : Owner → String
  | .init => "init"
  | .thread id => g.threadNames[id]?.getD "?"

def render (g : EventGraph) : String :=
  "; ".intercalate <| g.owners.toList.map fun o =>
    let own := g.events.toList.filter fun e => e.owner == o
    g.ownerName o ++ ": " ++ spaced (own.map Event.label)

end EventGraph

def rfSymbol (read write : Nat) : String := "rf_" ++ toString read ++ "_" ++ toString write

def coSymbol (a b : Nat) : String := "co_" ++ toString a ++ "_" ++ toString b

end Consistency
