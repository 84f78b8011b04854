import Consistency.MemoryModel
import Consistency.Outcome
import Consistency.Query.Domain
import Consistency.Query.Matrix
import Consistency.Script

/-!
# Queries

The script that asks whether an event graph has an execution which a memory
model allows and which ends in an outcome. The source of each read and the
order of each two writes are Boolean symbols. Relations become matrices over
these; entries of relations used more than once are named by definitions, and
transitive closures are computed by repeated squaring.
-/

set_option autoImplicit false

namespace Consistency

structure QueryState where
  commands : List Command
  named : List (String × Matrix)
  definitions : Nat
  deriving Inhabited

abbrev QueryM := StateT QueryState (Except ModelError)

namespace Query

def add (c : Command) : QueryM Unit := modify fun s => { s with commands := c :: s.commands }

def assert (t : Term) : QueryM Unit :=
  if t = .bool true then return () else add (.assert t)

def heading (title : String) : QueryM Unit := add (.comment title)

/-! Coherence and reads-from -/

def isInit (g : EventGraph) (node : Nat) : Bool := g.isNode Event.isInit node

def rfTerm (r w : Nat) : Term := .const (rfSymbol r w)

def coTerm (g : EventGraph) (a b : Nat) : Term :=
  if isInit g a then .bool true
  else if isInit g b then .bool false
  else .const (coSymbol a b)

def intSymbols (g : EventGraph) (o : Outcome) : OrderedSet String :=
  let ofEvent (e : Event) : List String := e.symbol?.toList ++ e.value.toList.flatMap Term.consts
  let ofAtom : Atom → List String
    | .register p reg _ => (g.registerTerm p reg).toList.flatMap Term.consts
    | .memory _ _ => []
  .ofList (g.events.toList.flatMap ofEvent ++ g.constraints.flatMap Term.consts ++
    o.atoms.flatMap ofAtom)

def declare (g : EventGraph) (o : Outcome) : QueryM Unit := do
  g.rfCandidates.forM fun (r, w) => add (.declareConst (rfSymbol r w) .bool)
  (g.coCandidates.filter fun (a, b) => !isInit g a && !isInit g b).forM fun (a, b) =>
    add (.declareConst (coSymbol a b) .bool)
  (intSymbols g o).toList.forM fun name => add (.declareConst name .int)

def readSymbols (g : EventGraph) : List String := (readsOf g).map Event.symbol

def assertDomains (g : EventGraph) : QueryM Unit :=
  match valueDomains g with
  | none => return ()
  | some domains => do
    heading "value domains"
    (readSymbols g).forM fun symbol =>
      assert (.oneOf symbol ((domains.get? symbol).getD .empty).toList)

def laterPairs : List Nat → List (Nat × Nat)
  | [] => []
  | a :: as => as.map (fun b => (a, b)) ++ laterPairs as

def assertReadsFrom (g : EventGraph) : QueryM Unit := do
  heading "rf functional"
  g.reads.forM fun r => do
    let sources := g.writesSameVar r
    assert (.mkOr (sources.map (rfTerm r)))
    (laterPairs sources).forM fun (v, w) =>
      assert (.mkNot (.mkAnd [rfTerm r v, rfTerm r w]))

def triples (ws : List Nat) : List (Nat × Nat × Nat) :=
  ws.flatMap fun a => ws.flatMap fun b =>
    (ws.filter fun c => a != b && b != c && a != c).map fun c => (a, b, c)

def assertCoherence (g : EventGraph) : QueryM Unit := do
  heading "co total order"
  g.sharedVars.toList.forM fun x => do
    let writes := (g.writesTo x).filter fun w => !isInit g w
    (laterPairs writes).forM fun (a, b) => do
      assert (.mkOr [coTerm g a b, coTerm g b a])
      assert (.mkNot (.mkAnd [coTerm g a b, coTerm g b a]))
    (triples writes).forM fun (a, b, c) =>
      assert (.mkImplies (.mkAnd [coTerm g a b, coTerm g b c]) (coTerm g a c))

def valueAt (g : EventGraph) (node : Nat) : Term :=
  match g.event? node with
  | some e => e.valueTerm
  | none => .int 0

def assertDataFlow (g : EventGraph) : QueryM Unit := do
  heading "data flow"
  g.rfCandidates.forM fun (r, w) =>
    assert (.mkImplies (rfTerm r w) (.eq (valueAt g r) (valueAt g w)))

/-! Relations -/

def fromRead (g : EventGraph) (r w : Nat) : Term :=
  if g.isNode Event.isRead r && g.isNode Event.isWrite w && g.sameVar r w then
    .mkOr (((g.writesSameVar r).filter (· != w)).map fun v => .mkAnd [rfTerm r v, coTerm g v w])
  else .bool false

def rfEntry (g : EventGraph) (w r : Nat) : Term :=
  if g.isNode Event.isRead r && g.isNode Event.isWrite w && g.sameVar r w then rfTerm r w
  else .bool false

def coEntry (g : EventGraph) (a b : Nat) : Term :=
  if g.isNode Event.isWrite a && g.isNode Event.isWrite b && g.sameVar a b && a != b then
    coTerm g a b
  else .bool false

def base (g : EventGraph) : BaseRelation → Matrix
  | .po => .ofPredicate g.size g.programOrder
  | .rf => .build g.size (rfEntry g)
  | .co => .build g.size (coEntry g)
  | .fr => .build g.size (fromRead g)
  | .loc => .ofPredicate g.size g.sameVar
  | .int => .ofPredicate g.size g.sameThread
  | .ext => .ofPredicate g.size fun a b => !g.sameThread a b
  | .id => .ofPredicate g.size (· == ·)

def inSet (g : EventGraph) : EventSet → Nat → Bool
  | .reads => g.isNode Event.isRead
  | .writes => g.isNode Event.isWrite
  | .memory => g.isNode fun _ => true
  | .initWrites => g.isNode Event.isInit

def identity (g : EventGraph) (s : EventSet) : Matrix :=
  .ofPredicate g.size fun a b => a == b && inSet g s a

def product (g : EventGraph) (s t : EventSet) : Matrix :=
  .ofPredicate g.size fun a b => inSet g s a && inSet g t b

def definitionSymbol (k : Nat) : String := "def_" ++ toString k

def name (t : Term) : QueryM Term :=
  match t with
  | .bool _ | .const _ => return t
  | t => do
    let k := (← get).definitions
    modify fun s => { s with definitions := k + 1 }
    let symbol := definitionSymbol k
    add (.declareConst symbol .bool)
    assert (.iff (.const symbol) t)
    return .const symbol

def nameAll (m : Matrix) : QueryM Matrix := return ⟨← m.rows.mapM fun row => row.mapM name⟩

/-- `steps` squarings cover paths of length up to `2 ^ steps`. -/
def squareTimes : Nat → Matrix → QueryM Matrix
  | 0, m => return m
  | steps + 1, m => do
    let next ← nameAll (m.union (m.seq m))
    squareTimes steps next

def doublings (n : Nat) : Nat := if n ≤ 1 then 0 else (n - 1).log2 + 1

def closure (m : Matrix) : QueryM Matrix := do
  let start ← nameAll m
  squareTimes (doublings m.size) start

def relation (g : EventGraph) (lookup : String → QueryM Matrix) : RelExpr → QueryM Matrix
  | .base rel => return base g rel
  | .named x => lookup x
  | .product s t => return product g s t
  | .identity s => return identity g s
  | .binary op a b => do
    let x ← relation g lookup a
    let y ← relation g lookup b
    return match op with
      | .union => x.union y
      | .inter => x.inter y
      | .diff => x.diff y
      | .seq => x.seq y
  | .suffixed op a => do
    let x ← relation g lookup a
    match op with
    | .inverse => return x.inverse
    | .plus => closure x
    | .star => return (← closure x).union (identity g .memory)
    | .optional => return x.union (identity g .memory)

/-- The matrix of a name. A valid model reaches no more names than it defines, one inside the
definition of the other, so that `fuel` bounds the depth. -/
def namedRelation (g : EventGraph) (m : MemoryModel) : Nat → String → QueryM Matrix
  | 0, x => throw (.recursiveRelation x)
  | fuel + 1, x => do
    match (← get).named.lookup x with
    | some known => return known
    | none => match m.relation? x with
      | none => throw (.unknownRelation x m.name)
      | some e =>
        let found ← relation g (namedRelation g m fuel) e
        let found ← nameAll found
        modify fun s => { s with named := (x, found) :: s.named }
        return found

def ruledOut (kind : AxiomKind) (x : Matrix) : QueryM (List Term) :=
  match kind with
  | .acyclic => return (← closure x).diagonal
  | .irreflexive => return x.diagonal
  | .empty => return x.entries

def assertAxiom (g : EventGraph) (m : MemoryModel) (a : Axiom) : QueryM Unit := do
  heading ("axiom " ++ a.name)
  let x ← relation g (namedRelation g m (m.relations.length + 1)) a.rel
  let forbidden ← ruledOut a.kind x
  forbidden.forM fun t => assert (.mkNot t)

/-! Outcomes -/

def finalMemory (g : EventGraph) (x : String) (value : Int) : Term :=
  let writes := g.writesTo x
  .mkOr <| writes.map fun w =>
    .mkAnd (((writes.filter (· != w)).map fun b => .mkNot (coTerm g w b)) ++
      [.eq (valueAt g w) (.int value)])

def atomTerm (g : EventGraph) : Atom → Term
  | .register p reg value => match g.registerTerm p reg with
    | some t => .eq t (.int value)
    | none => .bool false
  | .memory x value => finalMemory g x value

def assertOutcome (g : EventGraph) (o : Outcome) : QueryM Unit :=
  if o.isAny then return ()
  else do
    heading ("outcome " ++ o.render)
    o.atoms.forM fun a => assert (atomTerm g a)

def build (g : EventGraph) (m : MemoryModel) (o : Outcome) : QueryM Unit := do
  heading ("model " ++ m.name ++ ": " ++ g.render)
  declare g o
  assertDomains g
  assertReadsFrom g
  assertCoherence g
  assertDataFlow g
  m.axioms.forM (assertAxiom g m)
  heading "path constraints"
  g.constraints.forM assert
  assertOutcome g o

def encode (g : EventGraph) (m : MemoryModel) (o : Outcome) : Except ModelError Script := do
  let (_, s) ← (build g m o).run ⟨[], [], 0⟩
  return ⟨s.commands.reverse⟩

end Query
end Consistency
