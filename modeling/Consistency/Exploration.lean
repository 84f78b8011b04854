import Consistency.Graph

/-!
# Exploration

The reachable states of a composition are visited level by level. Each level is
put in the order of its keys, so that terminal states are always found in the
same order. With subsumption, states covered by one met before are left out.
-/

set_option autoImplicit false

namespace Consistency

structure Stats where
  states : Nat
  terminals : Nat
  queried : Nat
  subsumed : Nat
  duplicates : Nat
  blocked : Nat
  levels : Nat
  deriving DecidableEq, Repr, Inhabited

def Stats.zero : Stats := ⟨0, 0, 0, 0, 0, 0, 0⟩

structure TerminalGraph where
  index : Nat
  graph : EventGraph
  deriving Inhabited

structure Exploration where
  frontier : List GlobalState
  visited : Visited
  allocated : Nat
  stats : Stats

namespace Exploration

def start (c : Composition) : Exploration :=
  let (s, allocated) := c.init 0
  ⟨[s], (Visited.empty.visit s.key).2, allocated, .zero⟩

def endsInFinal (c : Composition) (s : GlobalState) : Bool :=
  (c.threads.zip s.locals).all fun (t, l) => t.automaton.isFinal l.location

def terminalStates (x : Exploration) : List GlobalState := x.frontier.filter GlobalState.isTerminal

def liveStates (x : Exploration) : List GlobalState :=
  x.frontier.filter fun s => !s.isTerminal

def terminals (c : Composition) (x : Exploration) : List TerminalGraph :=
  (x.terminalStates.filter (endsInFinal c)).zipIdx.map fun (s, i) =>
    ⟨x.stats.terminals + i, .ofState c s⟩

def enter (c : Composition) (x : Exploration) : Exploration :=
  let ended := x.terminalStates
  let proper := ended.filter (endsInFinal c)
  { x with stats := { x.stats with
      levels := x.stats.levels + 1
      states := x.stats.states + x.frontier.length
      terminals := x.stats.terminals + proper.length
      blocked := x.stats.blocked + (ended.length - proper.length) } }

/-- Take note of a successor; it joins the frontier, kept backwards, unless it was met before
or is covered. -/
def record (subsumption : Bool) (x : Exploration) (s : GlobalState) : Exploration :=
  let (isNew, visited) := x.visited.visit s.key
  if !isNew then
    { x with visited := visited, stats := { x.stats with duplicates := x.stats.duplicates + 1 } }
  else if subsumption then
    let (covered, visited) := visited.subsume s
    if covered then
      { x with visited := visited, stats := { x.stats with subsumed := x.stats.subsumed + 1 } }
    else { x with visited := visited, frontier := s :: x.frontier }
  else { x with visited := visited, frontier := s :: x.frontier }

def act (c : Composition) (precision : Precision) (subsumption : Bool) (s : GlobalState)
    (x : Exploration × Bool) (a : Action) : Exploration × Bool :=
  let (successors, allocated) := c.trans precision s a x.1.allocated
  (successors.foldl (record subsumption) { x.1 with allocated := allocated },
    x.2 || !successors.isEmpty)

def expandState (c : Composition) (precision : Precision) (subsumption : Bool)
    (x : Exploration) (s : GlobalState) : Exploration :=
  let (x, moved) := (c.enabled s).foldl (act c precision subsumption s) (x, false)
  if moved then x
  else { x with stats := { x.stats with blocked := x.stats.blocked + 1 } }

def sortByKey (states : List GlobalState) : List GlobalState :=
  ((states.map fun s => (s.key, s)).mergeSort fun a b => (compare a.1 b.1).isLE).map Prod.snd

def expand (c : Composition) (precision : Precision) (subsumption : Bool) (x : Exploration) :
    Exploration :=
  let y := x.liveStates.foldl (expandState c precision subsumption) { x with frontier := [] }
  { y with frontier := sortByKey y.frontier.reverse }

/-- Go from level to level. `visit` is given the terminal graphs of each level and tells
whether to stop; `fuel` bounds the number of levels. -/
def run {σ ε : Type} (c : Composition) (precision : Precision) (subsumption : Bool)
    (visit : σ → List TerminalGraph → Except ε (σ × Bool)) :
    Nat → Exploration → σ → Except ε (Option (σ × Stats))
  | 0, _, _ => .ok none
  | fuel + 1, x, acc =>
    if x.frontier.isEmpty then .ok (some (acc, x.stats))
    else do
      let found := x.terminals c
      let x := x.enter c
      let (acc, stop) ← visit acc found
      if stop then return some (acc, x.stats)
      else run c precision subsumption visit fuel (x.expand c precision subsumption) acc

/-- More levels than any exploration that ends can have within memory. -/
def levelLimit : Nat := Nat.pow 2 60

def collect (acc found : List TerminalGraph) : Except Empty (List TerminalGraph × Bool) :=
  .ok (acc ++ found, false)

def allTerminals (c : Composition) (precision : Precision) (subsumption : Bool) :
    Option (List TerminalGraph × Stats) :=
  match run c precision subsumption collect levelLimit (start c) [] with
  | .ok found => found

end Exploration
end Consistency
