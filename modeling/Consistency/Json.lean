/-!
# JSON values

Numbers keep their text, so that an integer is told from a fraction, and
objects keep their fields in order, repeated ones included. A value that was
passed over when its text was read is that text.
-/

set_option autoImplicit false

namespace Consistency

inductive Json where
  | null
  | bool (value : Bool)
  | number (text : String)
  | string (text : String)
  | array (items : List Json)
  | object (fields : List (String × Json))
  | unread (text : String)
  deriving Repr, Inhabited

namespace Json

def ofInt (n : Int) : Json := .number (toString n)
def ofNat (n : Nat) : Json := .number (toString n)

def field? : Json → String → Option Json
  | .object fields, key => fields.lookup key
  | _, _ => none

mutual
def isRead : Json → Bool
  | .unread _ => false
  | .array items => allRead items
  | .object fields => fieldsRead fields
  | _ => true

def allRead : List Json → Bool
  | [] => true
  | v :: vs => isRead v && allRead vs

def fieldsRead : List (String × Json) → Bool
  | [] => true
  | (_, v) :: fs => isRead v && fieldsRead fs
end

def hexDigit (n : Nat) : Char := if n < 10 then Char.ofNat (48 + n) else Char.ofNat (87 + n)

def escapeChar (c : Char) : String :=
  if c = '"' then "\\\""
  else if c = '\\' then "\\\\"
  else if c = '\n' then "\\n"
  else if c = '\r' then "\\r"
  else if c = '\t' then "\\t"
  else if c.toNat = 8 then "\\b"
  else if c.toNat = 12 then "\\f"
  else if c.toNat < 32 then
    "\\u00" ++ String.ofList [hexDigit (c.toNat / 16), hexDigit (c.toNat % 16)]
  else c.toString

def quoted (s : String) : String :=
  "\"" ++ s.toList.foldl (fun out c => out ++ escapeChar c) "" ++ "\""

mutual
def render : Json → String
  | .null => "null"
  | .bool b => toString b
  | .number text => text
  | .string s => quoted s
  | .array items => "[" ++ ",".intercalate (renderItems items) ++ "]"
  | .object fields => "\x7b" ++ ",".intercalate (renderFields fields) ++ "\x7d"
  | .unread text => text

def renderItems : List Json → List String
  | [] => []
  | v :: vs => render v :: renderItems vs

def renderFields : List (String × Json) → List String
  | [] => []
  | (k, v) :: fs => (quoted k ++ ":" ++ render v) :: renderFields fs
end

def newline (depth : Nat) : String := "\n" ++ "".pushn ' ' (2 * depth)

def block (depth : Nat) (opening closing : String) (items : List String) : String :=
  if items.isEmpty then opening ++ closing
  else
    opening ++ ",".intercalate (items.map (newline (depth + 1) ++ ·)) ++ newline depth ++ closing

mutual
def pretty (depth : Nat) : Json → String
  | .array items => block depth "[" "]" (prettyItems (depth + 1) items)
  | .object fields => block depth "\x7b" "\x7d" (prettyFields (depth + 1) fields)
  | .null => "null"
  | .bool b => toString b
  | .number text => text
  | .string s => quoted s
  | .unread text => text

def prettyItems (depth : Nat) : List Json → List String
  | [] => []
  | v :: vs => pretty depth v :: prettyItems depth vs

def prettyFields (depth : Nat) : List (String × Json) → List String
  | [] => []
  | (k, v) :: fs => (quoted k ++ ": " ++ pretty depth v) :: prettyFields depth fs
end

end Json
end Consistency
