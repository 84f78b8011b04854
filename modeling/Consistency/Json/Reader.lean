import Consistency.Json.Number

/-!
# Reading JSON

One value is read, and no text may follow it. A part of it that is well formed
but has no value stays unread: a container more than 127 deep, a string or a
key with an escaped surrogate that is not in a pair, and a number past the last
finite double. It depends on where the part stands whether that is an error.
-/

set_option autoImplicit false

namespace Consistency.Json

def isSpace (c : Char) : Bool := c == ' ' || c == '\t' || c == '\n' || c == '\r'

def skipSpace (s : List Char) : List Char := s.dropWhile isSpace

def hexValue? (c : Char) : Option Nat :=
  if c.isDigit then some (c.toNat - 48)
  else if 'a' ≤ c ∧ c ≤ 'f' then some (c.toNat - 87)
  else if 'A' ≤ c ∧ c ≤ 'F' then some (c.toNat - 55)
  else none

def hexQuad? (a b c d : Char) : Option Nat := do
  let a ← hexValue? a
  let b ← hexValue? b
  let c ← hexValue? c
  let d ← hexValue? d
  return ((a * 16 + b) * 16 + c) * 16 + d

def escaped? : Char → Option Char
  | '"' => some '"'
  | '\\' => some '\\'
  | '/' => some '/'
  | 'b' => some (Char.ofNat 8)
  | 'f' => some (Char.ofNat 12)
  | 'n' => some '\n'
  | 'r' => some '\r'
  | 't' => some '\t'
  | _ => none

def isHighSurrogate (n : Nat) : Bool := 0xd800 ≤ n && n ≤ 0xdbff
def isLowSurrogate (n : Nat) : Bool := 0xdc00 ≤ n && n ≤ 0xdfff

def readString : List Char → Option (List Char × List Char)
  | [] => none
  | '"' :: rest => some ([], rest)
  | '\\' :: 'u' :: a :: b :: c :: d :: rest =>
    match hexQuad? a b c d with
    | none => none
    | some n =>
      if isLowSurrogate n then none
      else if isHighSurrogate n then
        match rest with
        | '\\' :: 'u' :: e :: f :: g :: h :: rest =>
          match hexQuad? e f g h with
          | none => none
          | some m =>
            if isLowSurrogate m then
              (readString rest).map fun (s, r) =>
                (Char.ofNat (0x10000 + (n - 0xd800) * 0x400 + (m - 0xdc00)) :: s, r)
            else none
        | _ => none
      else (readString rest).map fun (s, r) => (Char.ofNat n :: s, r)
  | '\\' :: c :: rest =>
    match escaped? c with
    | none => none
    | some c => (readString rest).map fun (s, r) => (c :: s, r)
  | c :: rest =>
    if c.toNat < 32 then none else (readString rest).map fun (s, r) => (c :: s, r)

def dropLiteral : List Char → List Char → Option (List Char)
  | [], s => some s
  | c :: cs, d :: ds => if c = d then dropLiteral cs ds else none
  | _ :: _, [] => none

def skipString : List Char → Option (List Char)
  | [] => none
  | '"' :: rest => some rest
  | '\\' :: 'u' :: a :: b :: c :: d :: rest =>
    if (hexQuad? a b c d).isSome then skipString rest else none
  | '\\' :: c :: rest => if (escaped? c).isSome then skipString rest else none
  | c :: rest => if c.toNat < 32 then none else skipString rest

def readQuoted (s : List Char) : Option (Option String × List Char) :=
  match readString s with
  | some (t, r) => some (some (String.ofList t), r)
  | none => (skipString s).map fun r => (none, r)

def unreadUpTo (rest s : List Char) : Json :=
  .unread (String.ofList (s.take (s.length - rest.length)))

def readScalar (s : List Char) : Option (Json × List Char) :=
  match s with
  | '"' :: rest =>
    (readQuoted rest).map fun (t, r) => ((t.map Json.string).getD (unreadUpTo r s), r)
  | 'n' :: rest => (dropLiteral ['u', 'l', 'l'] rest).map (.null, ·)
  | 't' :: rest => (dropLiteral ['r', 'u', 'e'] rest).map (.bool true, ·)
  | 'f' :: rest => (dropLiteral ['a', 'l', 's', 'e'] rest).map (.bool false, ·)
  | _ => (readNumeral s).map fun (x, r) =>
    (if x.isFinite then .number x.text else unreadUpTo r s, r)

def readKey (s : List Char) : Option (Option String × List Char) :=
  match skipSpace s with
  | '"' :: rest => match readQuoted rest with
    | none => none
    | some (key, rest) => match skipSpace rest with
      | ':' :: rest => some (key, rest)
      | _ => none
  | _ => none

inductive Container where
  | array
  | object
  deriving DecidableEq, Repr

/-- After a value in the containers `opened`, innermost first: those still open before the next
value, and the text from there on. -/
def skipClosing : List Container → List Char → Option (List Container × List Char)
  | [], s => some ([], s)
  | .array :: opened, s => match skipSpace s with
    | ']' :: rest => skipClosing opened rest
    | ',' :: rest => some (.array :: opened, rest)
    | _ => none
  | .object :: opened, s => match skipSpace s with
    | '\x7d' :: rest => skipClosing opened rest
    | ',' :: rest => (readKey rest).map fun (_, r) => (.object :: opened, r)
    | _ => none

/-- What follows a value and the containers `opened` around it, however deep they are; `fuel` is
more than the number of characters left. -/
def skipValue : Nat → List Container → List Char → Option (List Char)
  | 0, _, _ => none
  | fuel + 1, opened, s =>
    let resume (opened : List Container) (s : List Char) : Option (List Char) :=
      match skipClosing opened s with
      | none => none
      | some ([], rest) => some rest
      | some (opened, rest) => skipValue fuel opened rest
    match skipSpace s with
    | '[' :: rest => match skipSpace rest with
      | ']' :: _ => resume (.array :: opened) rest
      | _ => skipValue fuel (.array :: opened) rest
    | '\x7b' :: rest => match skipSpace rest with
      | '\x7d' :: _ => resume (.object :: opened) rest
      | _ => match readKey rest with
        | none => none
        | some (_, rest) => skipValue fuel (.object :: opened) rest
    | s => match readScalar s with
      | none => none
      | some (_, rest) => resume opened rest

def ofFields (fields : List (Option String × Json)) : Option Json := do
  return .object (← fields.mapM fun (key, v) => do return (← key, v))

mutual
/-- `depth` containers may still be opened; `fuel` is more than twice the number of characters
left, as a character takes at most two calls. -/
def readValue : Nat → Nat → List Char → Option (Json × List Char)
  | 0, _, _ => none
  | fuel + 1, depth, s => match depth, skipSpace s with
    | 0, s@('[' :: _) | 0, s@('\x7b' :: _) =>
      (skipValue (s.length + 1) [] s).map fun r => (unreadUpTo r s, r)
    | depth + 1, '[' :: rest => match skipSpace rest with
      | ']' :: rest => some (.array [], rest)
      | _ => (readItems fuel depth rest).map fun (vs, r) => (.array vs, r)
    | depth + 1, s@('\x7b' :: rest) => match skipSpace rest with
      | '\x7d' :: rest => some (.object [], rest)
      | _ => (readFields fuel depth rest).map fun (fs, r) =>
        ((ofFields fs).getD (unreadUpTo r s), r)
    | _, s => readScalar s

def readItems : Nat → Nat → List Char → Option (List Json × List Char)
  | 0, _, _ => none
  | fuel + 1, depth, s => match readValue fuel depth s with
    | none => none
    | some (v, rest) => match skipSpace rest with
      | ',' :: rest => (readItems fuel depth rest).map fun (vs, r) => (v :: vs, r)
      | ']' :: rest => some ([v], rest)
      | _ => none

def readFields : Nat → Nat → List Char → Option (List (Option String × Json) × List Char)
  | 0, _, _ => none
  | fuel + 1, depth, s => match readKey s with
    | none => none
    | some (key, rest) => match readValue fuel depth rest with
      | none => none
      | some (v, rest) => match skipSpace rest with
        | ',' :: rest => (readFields fuel depth rest).map fun (fs, r) => ((key, v) :: fs, r)
        | '\x7d' :: rest => some ([(key, v)], rest)
        | _ => none
end

def nestingLimit : Nat := 127

def read (text : String) : Option Json :=
  let s := text.toList
  match readValue (2 * s.length + 2) nestingLimit s with
  | some (v, rest) => if (skipSpace rest).isEmpty then some v else none
  | none => none

end Consistency.Json
