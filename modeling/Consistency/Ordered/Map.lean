/-!
# Finite maps in increasing key order

A map is kept as its list of entries with strictly increasing keys. Maps are
compared entry by entry, an entry first by its key and then by its value.
-/

set_option autoImplicit false

namespace Consistency

structure OrderedMap (κ β : Type) where
  entries : List (κ × β)
  deriving DecidableEq, Hashable, Repr, Inhabited

namespace OrderedMap
variable {κ β γ : Type}

def empty : OrderedMap κ β := ⟨[]⟩

def isEmpty (m : OrderedMap κ β) : Bool := m.entries.isEmpty

def keys (m : OrderedMap κ β) : List κ := m.entries.map Prod.fst

def values (m : OrderedMap κ β) : List β := m.entries.map Prod.snd

def insertList [Ord κ] (k : κ) (v : β) : List (κ × β) → List (κ × β)
  | [] => [(k, v)]
  | e :: es => match compare k e.1 with
    | .lt => (k, v) :: e :: es
    | .eq => (k, v) :: es
    | .gt => e :: insertList k v es

def insert [Ord κ] (m : OrderedMap κ β) (k : κ) (v : β) : OrderedMap κ β :=
  ⟨insertList k v m.entries⟩

def ofList [Ord κ] (es : List (κ × β)) : OrderedMap κ β :=
  es.foldl (fun m e => m.insert e.1 e.2) empty

def get? [BEq κ] (m : OrderedMap κ β) (k : κ) : Option β := m.entries.lookup k

def contains [BEq κ] (m : OrderedMap κ β) (k : κ) : Bool := (m.get? k).isSome

def alter [Ord κ] [BEq κ] (m : OrderedMap κ β) (k : κ) (f : Option β → β) : OrderedMap κ β :=
  m.insert k (f (m.get? k))

def mapValues (f : β → γ) (m : OrderedMap κ β) : OrderedMap κ γ :=
  ⟨m.entries.map fun e => (e.1, f e.2)⟩

def compareEntries [Ord κ] [Ord β] : List (κ × β) → List (κ × β) → Ordering
  | [], [] => .eq
  | [], _ :: _ => .lt
  | _ :: _, [] => .gt
  | d :: ds, e :: es =>
    (compare d.1 e.1).then ((compare d.2 e.2).then (compareEntries ds es))

instance [Ord κ] [Ord β] : Ord (OrderedMap κ β) := ⟨fun m n => compareEntries m.entries n.entries⟩

end OrderedMap
end Consistency
