import Consistency.Cnf.Trail

/-!
# Watched literals

Each clause watches two of its literals, and needs to be looked at only when one
of them becomes false: it then watches another literal that is not, or the other
one that it watches is the only one left.
-/

set_option autoImplicit false

namespace Consistency

structure Watches where
  /-- The literals of a clause. -/
  clauses : Array (Array Nat)
  /-- For a clause, the place of the literal found last. -/
  cursors : Array Nat
  /-- The two literals that a clause watches. -/
  first : Array Nat
  second : Array Nat
  /-- The clauses that watch a literal. -/
  watchers : Array (Array Nat)
  deriving Repr, Inhabited

namespace Watches

def empty (vars : Nat) : Watches where
  clauses := #[]
  cursors := #[]
  first := #[]
  second := #[]
  watchers := Array.replicate (2 * vars) #[]

def push (w : Watches) (ls : List Nat) (a b : Nat) : Watches :=
  { w with
    clauses := w.clauses.push ls.toArray
    cursors := w.cursors.push 0
    first := w.first.push a
    second := w.second.push b }

def watch (w : Watches) (l i : Nat) : Watches :=
  { w with watchers := w.watchers.modify l fun is => is.push i }

def add (w : Watches) (ls : List Nat) (among : List Nat) : Watches :=
  match among with
  | a :: b :: _ =>
    let w := w.watch a w.clauses.size
    let w := w.watch b w.clauses.size
    w.push ls a b
  | _ => w.push ls 0 0

def setWatchers (w : Watches) (l : Nat) (is : Array Nat) : Watches :=
  { w with watchers := w.watchers.setIfInBounds l is }

def moveFirst (w : Watches) (i k place : Nat) : Watches :=
  { w with
    cursors := w.cursors.setIfInBounds i place
    first := w.first.setIfInBounds i k
    watchers := w.watchers.modify k fun is => is.push i }

def moveSecond (w : Watches) (i k place : Nat) : Watches :=
  { w with
    cursors := w.cursors.setIfInBounds i place
    second := w.second.setIfInBounds i k
    watchers := w.watchers.modify k fun is => is.push i }

/-- The place of a literal that is neither false nor `other`, sought from `place` on and then
from the first one; past the end if there is none. -/
def spare (marks : Array Nat) (other : Nat) (ls : Array Nat) : Nat → Nat → Nat
  | 0, _ => ls.size
  | fuel + 1, place =>
    if h : place < ls.size then
      let l := ls[place]
      if l != other && marks.getD l openMark != falseMark then place
      else spare marks other ls fuel (place + 1)
    else spare marks other ls fuel 0

structure Outcome where
  watches : Watches
  trail : Trail
  /-- A clause whose literals are all false. -/
  conflict : Option Nat

/-- Tell the clauses `is`, which watch `l`, from place `j` on that it is false; of those before,
the first `m` go on watching it. -/
def tell (l : Nat) (is : Array Nat) (j m : Nat) (w : Watches) (t : Trail) (conflict : Option Nat) :
    Outcome :=
  if h : j < is.size then
    let i := is[j]
    let a := w.first.getD i 0
    let other := if a == l then w.second.getD i 0 else a
    let state := t.mark other
    if state == trueMark then tell l (is.setIfInBounds m i) (j + 1) (m + 1) w t conflict
    else
      let ls := w.clauses.getD i #[]
      let place := spare t.marks other ls (ls.size + 1) (w.cursors.getD i 0)
      if hp : place < ls.size then
        let k := ls[place]
        let w := if a == l then w.moveFirst i k place else w.moveSecond i k place
        tell l is (j + 1) m w t conflict
      else if state == falseMark then
        tell l (is.setIfInBounds m i) (j + 1) (m + 1) w t (some i)
      else tell l (is.setIfInBounds m i) (j + 1) (m + 1) w (t.assign other (i + 1)) conflict
  else ⟨w.setWatchers l (is.shrink m), t, conflict⟩
termination_by is.size - j
decreasing_by all_goals grind

def propagate : Nat → Nat → Watches → Trail → Outcome
  | 0, _, w, t => ⟨w, t, none⟩
  | fuel + 1, told, w, t => match t.lits[told]? with
    | none => ⟨w, t, none⟩
    | some l =>
      let k := Code.opposite l
      let is := w.watchers.getD k #[]
      match tell k is 0 0 (w.setWatchers k #[]) t none with
      | ⟨w, t, none⟩ => propagate fuel (told + 1) w t
      | found => found

end Watches
end Consistency
