import Consistency.Cnf.Derived

/-!
# Trails

A trail lists the literals that a search holds true, in the order in which they
became so: some were supposed, and each of the others was the only one that a
clause had left. A level is the number of suppositions made before.
-/

set_option autoImplicit false

namespace Consistency

/-- The mark of an open literal; a true one has 1 and a false one 2. -/
abbrev openMark : Nat := 0
abbrev trueMark : Nat := 1
abbrev falseMark : Nat := 2

structure Trail where
  lits : Array Nat
  /-- The length of the trail before each supposition. -/
  starts : Array Nat
  /-- The marks of the literals. -/
  marks : Array Nat
  /-- For a variable, its place in the trail. -/
  places : Array Nat
  /-- For a variable, its level. -/
  levels : Array Nat
  /-- For a variable, the number of the clause that left no choice plus one, or 0. -/
  reasons : Array Nat
  deriving Repr, Inhabited

namespace Trail

def empty (vars : Nat) : Trail where
  lits := #[]
  starts := #[]
  marks := Array.replicate (2 * vars) openMark
  places := Array.replicate vars 0
  levels := Array.replicate vars 0
  reasons := Array.replicate vars 0

@[inline]
def mark (t : Trail) (l : Nat) : Nat := t.marks.getD l openMark

@[inline]
def level (t : Trail) : Nat := t.starts.size

@[inline]
def levelOf (t : Trail) (l : Nat) : Nat := t.levels.getD (Code.var l) 0

@[inline]
def placeOf (t : Trail) (l : Nat) : Nat := t.places.getD (Code.var l) 0

@[inline]
def reasonOf (t : Trail) (l : Nat) : Nat := t.reasons.getD (Code.var l) 0

def assign (t : Trail) (l reason : Nat) : Trail :=
  let v := Code.var l
  let place := t.lits.size
  let level := t.starts.size
  { t with
    lits := t.lits.push l
    marks := (t.marks.setIfInBounds l trueMark).setIfInBounds (Code.opposite l) falseMark
    places := t.places.setIfInBounds v place
    levels := t.levels.setIfInBounds v level
    reasons := t.reasons.setIfInBounds v reason }

def suppose (t : Trail) (l : Nat) : Trail :=
  let place := t.lits.size
  assign { t with starts := t.starts.push place } l 0

def setReason (t : Trail) (l reason : Nat) : Trail :=
  { t with reasons := t.reasons.setIfInBounds (Code.var l) reason }

def drop (t : Trail) (l : Nat) : Trail :=
  { t with
    lits := t.lits.pop
    marks := (t.marks.setIfInBounds l openMark).setIfInBounds (Code.opposite l) openMark }

def latest (t : Trail) : List Nat → Nat → Nat
  | [], best => best
  | l :: ls, best => latest t ls (if t.placeOf best < t.placeOf l then l else best)

/-- Of the literals of the present level the one that became false last, if there are two or
more; `best` is that one of `count` literals so far. -/
def latestOfMany (t : Trail) : List Nat → Nat → Nat → Option Nat
  | [], best, count => if 1 < count then some best else none
  | l :: ls, best, count =>
    if t.levelOf l == t.level then
      latestOfMany t ls (if count == 0 || t.placeOf best < t.placeOf l then l else best) (count + 1)
    else latestOfMany t ls best count

def spread (t : Trail) (ls : List Nat) : Nat := (ls.map t.levelOf).eraseDups.length

def valuation (t : Trail) : Nat → Bool :=
  let marks := t.marks
  fun v => marks.getD (2 * v + 1) openMark == trueMark

end Trail
end Consistency
