import Std.Data.HashSet.Basic

/-!
# Distinct members

The members of a list in the order of their first occurrence.
-/

set_option autoImplicit false

namespace Consistency
variable {α : Type} [BEq α] [Hashable α]

def distinctFrom (seen : Std.HashSet α) : List α → List α
  | [] => []
  | x :: xs =>
    if seen.contains x then distinctFrom seen xs else x :: distinctFrom (seen.insert x) xs

def distinct (xs : List α) : List α := distinctFrom ∅ xs

end Consistency
