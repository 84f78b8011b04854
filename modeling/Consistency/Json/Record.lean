import Consistency.Json

/-!
# Records in JSON

A record is an object with its fields in any order and none of them twice, or
an array with the fields in their order of declaration, of which the last may
be missing.
-/

set_option autoImplicit false

namespace Consistency.Json

def uniqueField (fields : List (String × Json)) (name : String) : Option (Option Json) :=
  match fields.filter fun f => f.1 == name with
  | [] => some none
  | [f] => some (some f.2)
  | _ => none

def positional (items : List Json) : List String → List (Option Json)
  | [] => []
  | _ :: names => items.head? :: positional items.tail names

def looseFields (names : List String) : Json → Option (List (Option Json))
  | .object fields => names.mapM (uniqueField fields)
  | .array items => if names.length < items.length then none else some (positional items names)
  | _ => none

def strictFields (names : List String) (j : Json) : Option (List (Option Json)) :=
  match j with
  | .object fields => if fields.all fun f => names.contains f.1 then looseFields names j else none
  | j => looseFields names j

def string? : Json → Option String
  | .string s => some s
  | _ => none

def bool? : Json → Option Bool
  | .bool b => some b
  | _ => none

def array? : Json → Option (List Json)
  | .array items => some items
  | _ => none

def orDefault {α : Type} (default : α) (read : Json → Option α) : Option Json → Option α
  | none => some default
  | some j => read j

def orNull {α : Type} (read : Json → Option α) : Option Json → Option (Option α)
  | none | some .null => some none
  | some j => (read j).map some

def required {α : Type} (read : Json → Option α) (field : Option Json) : Option α :=
  field.bind read

def list? {α : Type} (read : Json → Option α) (j : Json) : Option (List α) :=
  j.array?.bind (List.mapM read)

end Consistency.Json
