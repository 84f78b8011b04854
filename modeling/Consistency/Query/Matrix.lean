import Consistency.Term

/-!
# Matrices of formulas

A relation on `n` nodes as a formula for each pair of nodes. Pairs outside the
matrix are false. The operations combine formulas entry by entry, but for
composition, which goes through every node in between.
-/

set_option autoImplicit false

namespace Consistency

structure Matrix where
  rows : Array (Array Term)
  deriving DecidableEq, Repr, Inhabited

namespace Matrix

def isFalse : Term → Bool
  | .bool false => true
  | _ => false

def build (n : Nat) (entry : Nat → Nat → Term) : Matrix where
  rows := .ofFn fun a : Fin n => .ofFn fun b : Fin n => entry a b

def size (m : Matrix) : Nat := m.rows.size

def entry (m : Matrix) (a b : Nat) : Term := (m.rows.getD a #[]).getD b (.bool false)

def ofPredicate (n : Nat) (p : Nat → Nat → Bool) : Matrix := build n fun a b => .bool (p a b)

def union (x y : Matrix) : Matrix :=
  build x.size fun a b => .mkOr [x.entry a b, y.entry a b]

def inter (x y : Matrix) : Matrix :=
  build x.size fun a b => .mkAnd [x.entry a b, y.entry a b]

def diff (x y : Matrix) : Matrix :=
  build x.size fun a b => .mkAnd [x.entry a b, .mkNot (y.entry a b)]

def between (x y : Matrix) (a c : Nat) : List Nat :=
  (List.range x.size).filter fun b => !isFalse (x.entry a b) && !isFalse (y.entry b c)

def seq (x y : Matrix) : Matrix :=
  build x.size fun a c =>
    .mkOr ((between x y a c).map fun b => .mkAnd [x.entry a b, y.entry b c])

def inverse (x : Matrix) : Matrix := build x.size fun a b => x.entry b a

def diagonal (x : Matrix) : List Term := (List.range x.size).map fun a => x.entry a a

def entries (x : Matrix) : List Term := x.rows.toList.flatMap Array.toList

end Matrix
end Consistency
