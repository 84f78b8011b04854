import Consistency.MemoryModel

/-!
# Standard memory models

Sequential consistency, total store order, release-acquire and coherence.
-/

set_option autoImplicit false

namespace Consistency.MemoryModel

def base (rel : BaseRelation) : RelExpr := .base rel

def named (name : String) : RelExpr := .named name

def common : List (String × RelExpr) :=
  [("com", ((base .rf).union (base .co)).union (base .fr)),
   ("po-loc", .binary .inter (base .po) (base .loc)),
   ("rfe", .binary .inter (base .rf) (base .ext))]

def scPerLocation : Axiom := ⟨"sc-per-location", .acyclic, (named "po-loc").union (named "com")⟩

def sc : MemoryModel where
  name := "sc"
  relations := common
  axioms := [⟨"sc", .acyclic, (base .po).union (named "com")⟩]

def tso : MemoryModel where
  name := "tso"
  relations := common ++ [("ppo", .binary .diff (base .po) (.product .writes .reads))]
  axioms := [scPerLocation,
    ⟨"tso", .acyclic, (((named "ppo").union (named "rfe")).union (base .co)).union (base .fr)⟩]

def ra : MemoryModel where
  name := "ra"
  relations := common ++
    [("hb", .suffixed .plus ((base .po).union (base .rf))),
     ("eco", .suffixed .plus (named "com"))]
  axioms := [scPerLocation,
    ⟨"ra-coherence", .irreflexive,
      .binary .seq (named "hb") (.suffixed .optional (named "eco"))⟩]

def coherence : MemoryModel where
  name := "coherence"
  relations := common
  axioms := [scPerLocation]

def standardNames : List String := ["sc", "tso", "ra", "coherence"]

def ofLower? : String → Option MemoryModel
  | "sc" => some sc
  | "tso" => some tso
  | "ra" => some ra
  | "coherence" | "coh" => some coherence
  | _ => none

def ofName? (name : String) : Option MemoryModel := ofLower? (Text.lower name)

end Consistency.MemoryModel
