import Consistency.Relation.Parser

/-!
# Memory models

A memory model names relations and demands of some that they have no cycle, no
pair of an event with itself, or no pair at all. A valid model defines every
name it uses exactly once, and no name through itself.
-/

set_option autoImplicit false

namespace Consistency

inductive AxiomKind where
  | acyclic | irreflexive | empty
  deriving DecidableEq, Repr, Inhabited

namespace AxiomKind

def name : AxiomKind → String
  | .acyclic => "acyclic"
  | .irreflexive => "irreflexive"
  | .empty => "empty"

def ofName? : String → Option AxiomKind
  | "acyclic" => some .acyclic
  | "irreflexive" => some .irreflexive
  | "empty" => some .empty
  | _ => none

end AxiomKind

structure Axiom where
  name : String
  kind : AxiomKind
  rel : RelExpr
  deriving DecidableEq, Repr, Inhabited

def Axiom.render (a : Axiom) : String := a.kind.name ++ " " ++ a.rel.render ++ " as " ++ a.name

inductive ModelError where
  | unknownRelation (name referencedFrom : String)
  | recursiveRelation (name : String)
  | duplicateRelation (name : String)
  | unreadable (text : String) (fault : RelFault)
  | unknownKind (text : String)
  deriving DecidableEq, Repr, Inhabited

namespace ModelError

def cannotParse (text message : String) : String :=
  "cannot parse relation '" ++ text ++ "': " ++ message

def message : ModelError → String
  | .unknownRelation name referencedFrom =>
    "unknown relation '" ++ name ++ "' referenced from '" ++ referencedFrom ++ "'"
  | .recursiveRelation name => "relation '" ++ name ++ "' is defined in terms of itself"
  | .duplicateRelation name => "relation '" ++ name ++ "' is defined twice"
  | .unreadable text fault => cannotParse text fault.message
  | .unknownKind text => cannotParse text "expected acyclic, irreflexive or empty"

end ModelError

def RelExpr.parse (text : String) : Except ModelError RelExpr :=
  match RelExpr.read text with
  | .ok e => .ok e
  | .error fault => .error (.unreadable text fault)

def AxiomKind.parse (text : String) : Except ModelError AxiomKind :=
  match AxiomKind.ofName? text with
  | some kind => .ok kind
  | none => .error (.unknownKind text)

structure MemoryModel where
  name : String
  relations : List (String × RelExpr)
  axioms : List Axiom
  deriving DecidableEq, Repr, Inhabited

namespace MemoryModel

def relation? (m : MemoryModel) (name : String) : Option RelExpr := m.relations.lookup name

def defines (m : MemoryModel) (name : String) : Bool := (m.relation? name).isSome

def checkNames (seen : List String) : List (String × RelExpr) → Except ModelError Unit
  | [] => .ok ()
  | (name, _) :: rest =>
    if (BaseRelation.ofName? name).isSome ∨ name ∈ seen then .error (.duplicateRelation name)
    else checkNames (name :: seen) rest

def checkReferences (m : MemoryModel) (e : RelExpr) (from' : String) : Except ModelError Unit :=
  match e.references.toList.find? fun name => !m.defines name with
  | some name => .error (.unknownRelation name from')
  | none => .ok ()

/-- Visit what `name` refers to, and so on. `path` leads to `name`, `done` was visited before;
a path has no more names than are defined, which bounds the depth by `fuel`. -/
def visit (m : MemoryModel) : Nat → List String → List String → String →
    Except ModelError (List String)
  | 0, _, _, name => .error (.recursiveRelation name)
  | fuel + 1, path, done, name =>
    if name ∈ done then .ok done
    else if name ∈ path then .error (.recursiveRelation name)
    else match m.relation? name with
      | none => .ok done
      | some e => do
        let done ← e.references.toList.foldlM (visit m fuel (name :: path)) done
        return name :: done

def checkCycles (m : MemoryModel) : Except ModelError (List String) :=
  (m.relations.map Prod.fst).foldlM (visit m (m.relations.length + 1) []) []

def validate (m : MemoryModel) : Except ModelError Unit := do
  checkNames [] m.relations
  m.relations.forM fun (name, e) => checkReferences m e name
  m.axioms.forM fun a => checkReferences m a.rel a.name
  let _ ← checkCycles m
  return ()

def render (m : MemoryModel) : String :=
  let lines := ("\"" ++ m.name ++ "\"") ::
    (m.relations.map fun (name, e) => "let " ++ name ++ " = " ++ e.render) ++
    m.axioms.map Axiom.render
  String.join (lines.map (· ++ "\n"))

end MemoryModel
end Consistency
