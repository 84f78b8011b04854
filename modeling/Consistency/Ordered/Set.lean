/-!
# Finite sets in increasing order

A set is kept as its strictly increasing list of members, so that two sets with
the same members are equal and are printed alike.
-/

set_option autoImplicit false

namespace Consistency

structure OrderedSet (α : Type) where
  toList : List α
  deriving DecidableEq, Hashable, Repr, Inhabited

namespace OrderedSet
variable {α : Type}

def empty : OrderedSet α := ⟨[]⟩

def isEmpty (s : OrderedSet α) : Bool := s.toList.isEmpty

def size (s : OrderedSet α) : Nat := s.toList.length

def insertList [Ord α] (a : α) : List α → List α
  | [] => [a]
  | b :: bs => match compare a b with
    | .lt => a :: b :: bs
    | .eq => b :: bs
    | .gt => b :: insertList a bs

def insert [Ord α] (s : OrderedSet α) (a : α) : OrderedSet α := ⟨insertList a s.toList⟩

def dropRepeats [Ord α] : List α → List α
  | a :: b :: xs =>
    if compare a b = .eq then dropRepeats (b :: xs) else a :: dropRepeats (b :: xs)
  | xs => xs

def ofList [Ord α] (xs : List α) : OrderedSet α :=
  ⟨dropRepeats (xs.mergeSort fun a b => (compare a b).isLE)⟩

def insertMany [Ord α] (s : OrderedSet α) (xs : List α) : OrderedSet α := xs.foldl insert s

def contains [BEq α] (s : OrderedSet α) (a : α) : Bool := s.toList.contains a

def subset [BEq α] (s t : OrderedSet α) : Bool := s.toList.all t.contains

instance [Ord α] : Ord (OrderedSet α) := ⟨fun s t => compare s.toList t.toList⟩

theorem mem_insertList [Ord α] [Std.LawfulEqOrd α] {a b : α} {xs : List α} :
    b ∈ insertList a xs ↔ b = a ∨ b ∈ xs := by
  induction xs with
  | nil => simp [insertList]
  | cons c cs ih =>
    unfold insertList
    split
    · simp
    · next h =>
      obtain rfl := Std.LawfulEqOrd.eq_of_compare h
      simp
    · simp only [List.mem_cons, ih]
      exact or_left_comm

theorem mem_dropRepeats [Ord α] [Std.LawfulEqOrd α] {a : α} {xs : List α} :
    a ∈ dropRepeats xs ↔ a ∈ xs := by
  fun_induction dropRepeats xs with
  | case1 b c xs h ih =>
    obtain rfl := Std.LawfulEqOrd.eq_of_compare h
    simp [ih]
  | case2 b c xs h ih => simp only [List.mem_cons, ih]
  | case3 xs h => rfl

theorem mem_ofList [Ord α] [Std.LawfulEqOrd α] {a : α} {xs : List α} :
    a ∈ (ofList xs).toList ↔ a ∈ xs := by
  simp [ofList, mem_dropRepeats]

end OrderedSet
end Consistency
