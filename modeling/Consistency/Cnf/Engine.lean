import Consistency.Cnf.Priority
import Consistency.Cnf.Watch

/-!
# Conflict-driven search

The engine assigns literals, first those that some clause leaves no choice
about, then one that it supposes. When all literals of a clause are false it
derives, by resolution with the clauses that made them so, a clause that would
have prevented this, takes back the suppositions that are not to blame and goes
on with one clause more.

Nothing here has to be right for its answers to be: a model is checked, and a
refutation is a derived clause without literals.
-/

set_option autoImplicit false

namespace Consistency

inductive Decision (p : Problem) where
  | model (τ : Nat → Bool) (holds : p.holds τ = true)
  | refuted (fails : ∀ τ, p.holds τ = false)
  | undecided

structure Schedule where
  conflicts : Nat
  /-- The number of conflicts at the next restart. -/
  pause : Nat
  /-- The distance of restarts, which grows up to a bound that grows itself. -/
  inner : Nat
  outer : Nat
  /-- How many learned clauses are kept. -/
  room : Nat
  deriving Repr, Inhabited

namespace Schedule

def initial (clauses : Nat) : Schedule := ⟨0, 100, 100, 100, clauses / 3 + 1000⟩

def restarted (s : Schedule) : Schedule :=
  let (inner, outer) :=
    if s.inner < s.outer then (s.inner + s.inner / 10, s.outer)
    else (100, s.outer + s.outer / 10)
  { s with inner := inner, outer := outer, pause := s.conflicts + inner }

end Schedule

structure Engine (p : Problem) where
  clauses : Array (Derived p)
  /-- How many clauses were not learned at the start. -/
  given : Nat
  watches : Watches
  trail : Trail
  /-- How much of the trail the clauses have been told of. -/
  told : Nat
  /-- How much of the trail has clauses of one literal for reasons. -/
  settled : Nat
  /-- A clause whose literals are all false. -/
  conflict : Option Nat
  order : Priority
  /-- The last value of a variable. -/
  phases : Array Bool
  schedule : Schedule

namespace Engine

variable {p : Problem}

def reasonOf (e : Engine p) (l : Nat) : Option (Derived p) :=
  match e.trail.reasonOf l with
  | 0 => none
  | i + 1 => e.clauses[i]?

def keep (e : Engine p) (c : Derived p) (among : List Nat) : Engine p :=
  { e with
    clauses := e.clauses.push c
    watches := e.watches.add c.lits among }

def force (e : Engine p) (l : Nat) : Engine p :=
  { e with trail := e.trail.assign l (e.clauses.size + 1) }

def refuse (e : Engine p) : Engine p := { e with conflict := some e.clauses.size }

def add (e : Engine p) (c : Derived p) : Engine p :=
  match c.lits.filter fun l => e.trail.mark l != falseMark with
  | [] => e.refuse.keep c []
  | [l] => (if e.trail.mark l == openMark then e.force l else e).keep c []
  | ls => e.keep c ls

def empty (p : Problem) (given : Nat) : Engine p where
  clauses := #[]
  given := given
  watches := .empty p.vars
  trail := .empty p.vars
  told := 0
  settled := 0
  conflict := none
  order := .initial p.vars
  phases := Array.replicate p.vars false
  schedule := .initial given

def start (p : Problem) : Engine p :=
  let clauses := Derived.given p
  clauses.foldl add (empty p clauses.length)

def propagate (e : Engine p) : Engine p :=
  match e.conflict with
  | some _ => e
  | none =>
    let ⟨watches, trail, conflict⟩ := e.watches.propagate (p.vars + 1) e.told e.trail
    let told := trail.lits.size
    { e with watches := watches, trail := trail, conflict := conflict, told := told }

def undo : Nat → Trail → Priority → Array Bool → Trail × Priority × Array Bool
  | 0, t, o, phases => (t, o, phases)
  | n + 1, t, o, phases => match t.lits.back? with
    | none => (t, o, phases)
    | some l =>
      let v := Code.var l
      undo n (t.drop l) (o.insert v) (phases.setIfInBounds v (Code.sign l))

def backtrack (e : Engine p) (level : Nat) : Engine p :=
  match e.trail.starts[level]? with
  | none => { e with conflict := none }
  | some size =>
    let (trail, order, phases) := undo (e.trail.lits.size - size) e.trail e.order e.phases
    { e with
      trail := { trail with starts := trail.starts.shrink level }
      order := order
      phases := phases
      told := size
      conflict := none }

/-- Resolve until only one literal of the present level is left; `used` are the clauses that
were resolved. -/
def explain (e : Engine p) : Nat → Derived p → List (List Nat) → Derived p × List (List Nat)
  | 0, c, used => (c, used)
  | fuel + 1, c, used => match e.trail.latestOfMany c.lits 0 0 with
    | none => (c, used)
    | some l => match e.reasonOf l with
      | none => (c, used)
      | some r => explain e fuel (c.resolve r l) (r.lits :: used)

def explainAll (e : Engine p) : Nat → Derived p → Derived p
  | 0, c => c
  | fuel + 1, c => match c.lits with
    | [] => c
    | l :: ls =>
      let last := e.trail.latest ls l
      match e.reasonOf last with
      | none => c
      | some r => explainAll e fuel (c.resolve r last)

def shorten (e : Engine p) : List Nat → Derived p → Derived p
  | [], c => c
  | l :: ls, c => match e.reasonOf l with
    | none => shorten e ls c
    | some r =>
      let k := Code.opposite l
      if r.lits.all fun x => x == k || c.lits.contains x then shorten e ls (c.resolve r l)
      else shorten e ls c

def highest (t : Trail) : List Nat → Nat → Nat
  | [], best => best
  | l :: ls, best => highest t ls (if t.levelOf best < t.levelOf l then l else best)

def countAll (conflict : Nat) (used : List (List Nat)) (o : Priority) : Priority :=
  (used.foldl (fun o ls => ls.foldl (fun o l => o.count conflict (Code.var l)) o) o).age

def rank (t : Trail) (ls : List Nat) : Nat := t.spread ls * Nat.pow 2 20 + ls.length

def learn (e : Engine p) (c : Derived p) : Engine p :=
  let (d, used) := e.explain e.trail.lits.size c [c.lits]
  let earlier := d.lits.filter fun l => e.trail.levelOf l != e.trail.level
  let d := e.shorten earlier d
  let d := { d with rank := rank e.trail d.lits }
  let (here, earlier) := d.lits.partition fun l => e.trail.levelOf l == e.trail.level
  let conflicts := e.schedule.conflicts + 1
  let e := { e with
    order := countAll conflicts used e.order
    schedule := { e.schedule with conflicts := conflicts } }
  match here, earlier with
  | [], _ => e.backtrack 0
  | l :: _, [] => ((e.backtrack 0).force l).keep d []
  | l :: _, k :: ks =>
    let high := highest e.trail ks k
    let level := e.trail.levelOf high
    ((e.backtrack level).force l).keep d [l, high]

/-- A literal that became true before anything was supposed, as a clause of its own; none if its
reason is one already. -/
def unit? (e : Engine p) (l : Nat) : Option (Derived p) :=
  match e.reasonOf l with
  | none => none
  | some c => match c.lits.filter (· != l) with
    | [] => none
    | ls => some (ls.foldl (fun c k => match e.reasonOf k with
      | none => c
      | some r => c.resolve r k) c)

def keepUnit (e : Engine p) (l : Nat) (c : Derived p) : Engine p :=
  let e := { e with trail := e.trail.setReason l (e.clauses.size + 1) }
  e.keep { c with rank := 0 } []

def settle : Nat → Engine p → Engine p
  | 0, e => e
  | fuel + 1, e => match e.trail.lits[e.settled]? with
    | none => e
    | some l =>
      let found := e.unit? l
      let e := { e with settled := e.settled + 1 }
      match found with
      | none => settle fuel e
      | some c => settle fuel (e.keepUnit l c)

def matters (e : Engine p) (c : Derived p) : Bool :=
  match c.lits with
  | [] | [_] => true
  | ls => !ls.any fun l => e.trail.mark l == trueMark

/-- Before anything is supposed: forget the worse half of the learned clauses. Clauses of one
literal come first, as they are the better reasons. -/
def reduce (e : Engine p) : Engine p :=
  let (fixed, learned) := (e.clauses.toList.filter e.matters).partition fun c => c.rank == 0
  let (units, others) := fixed.partition fun c => c.lits.length ≤ 1
  let best := (learned.mergeSort fun a b => a.rank ≤ b.rank).take (learned.length / 2)
  let fresh := (units ++ others ++ best).foldl add (empty p fixed.length)
  { fresh with
    order := e.order.refill
    phases := e.phases
    schedule := { e.schedule with room := e.schedule.room + 300 } }

def restart (e : Engine p) : Engine p :=
  let e := e.backtrack 0
  let e := { e with schedule := e.schedule.restarted }
  if e.schedule.room < e.clauses.size - e.given then e.reduce else e

def choose : Nat → Engine p → Option Nat × Engine p
  | 0, e => (none, e)
  | fuel + 1, e => match e.order.top? with
    | none => (none, e)
    | some v =>
      let e := { e with order := e.order.erase v }
      if e.trail.mark (2 * v) == openMark then (some v, e) else choose fuel e

def suppose (e : Engine p) (v : Nat) : Engine p :=
  let l := 2 * v + if e.phases.getD v false then 1 else 0
  { e with trail := e.trail.suppose l }

def answer (e : Engine p) : Decision p :=
  let τ := e.trail.valuation
  if h : p.holds τ = true then .model τ h else .undecided

def refutation (c : Derived p) : Decision p :=
  if h : c.lits = [] then .refuted (c.refutes h) else .undecided

def run : Nat → Engine p → Decision p
  | 0, _ => .undecided
  | fuel + 1, e =>
    let e := e.propagate
    match e.conflict.bind fun i => e.clauses[i]? with
    | some c =>
      if e.trail.level = 0 then refutation (e.explainAll (e.trail.lits.size + 1) c)
      else
        let e := e.learn c
        run fuel (if e.schedule.conflicts < e.schedule.pause then e else e.restart)
    | none =>
      let e := if e.trail.level = 0 then settle (e.trail.lits.size + 1) e else e
      match choose (p.vars + 1) e with
      | (none, e) => e.answer
      | (some v, e) => run fuel (e.suppose v)

end Engine
end Consistency
