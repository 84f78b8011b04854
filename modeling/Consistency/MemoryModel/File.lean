import Consistency.Json.Reader
import Consistency.Json.Record
import Consistency.MemoryModel.Standard

/-!
# Memory models in files

A model file gives a name, relation definitions and axioms with the relations
written out.
-/

set_option autoImplicit false

namespace Consistency

structure RelationText where
  name : String
  body : String
  deriving DecidableEq, Repr, Inhabited

structure AxiomText where
  name : String
  kind : String
  rel : String
  deriving DecidableEq, Repr, Inhabited

structure ModelFile where
  name : String
  relations : List RelationText
  axioms : List AxiomText
  deriving DecidableEq, Repr, Inhabited

namespace ModelFile

def readRelation (j : Json) : Option RelationText := do
  let [name, body] ← j.strictFields ["name", "def"] | none
  return ⟨← Json.required Json.string? name, ← Json.required Json.string? body⟩

def readAxiom (j : Json) : Option AxiomText := do
  let [name, kind, rel] ← j.strictFields ["name", "kind", "rel"] | none
  return ⟨← Json.required Json.string? name, ← Json.required Json.string? kind,
    ← Json.required Json.string? rel⟩

def ofJson? (j : Json) : Option ModelFile := do
  let [name, relations, axioms] ← j.strictFields ["name", "relations", "axioms"] | none
  return ⟨← Json.required Json.string? name,
    ← Json.orDefault [] (Json.list? readRelation) relations,
    ← Json.required (Json.list? readAxiom) axioms⟩

def read? (text : String) : Option ModelFile := (Json.read text).bind ofJson?

def parseAxiom (a : AxiomText) : Except ModelError Axiom := do
  let kind ← AxiomKind.parse a.kind
  let rel ← RelExpr.parse a.rel
  return ⟨a.name, kind, rel⟩

def toModel (f : ModelFile) : Except ModelError MemoryModel := do
  let relations ← f.relations.mapM fun r => return (r.name, ← RelExpr.parse r.body)
  let axioms ← f.axioms.mapM parseAxiom
  return ⟨f.name, relations, axioms⟩

def toValidModel (f : ModelFile) : Except ModelError MemoryModel := do
  let m ← f.toModel
  m.validate
  return m

end ModelFile
end Consistency
