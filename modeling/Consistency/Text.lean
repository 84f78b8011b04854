import Consistency.Bounded

/-!
# Reading text

Blanks are the characters of Unicode's White_Space property. Numbers are runs
of ASCII digits after at most one sign.
-/

set_option autoImplicit false

namespace Consistency.Text

def isBlank (c : Char) : Bool :=
  let n := c.toNat
  (9 ≤ n && n ≤ 13) || n == 32 || n == 0x85 || n == 0xa0 || n == 0x1680 ||
  (0x2000 ≤ n && n ≤ 0x200a) || n == 0x2028 || n == 0x2029 || n == 0x202f ||
  n == 0x205f || n == 0x3000

def trimLeft (s : List Char) : List Char := s.dropWhile isBlank

def trimRight (s : List Char) : List Char := (s.reverse.dropWhile isBlank).reverse

def trim (s : List Char) : List Char := trimRight (trimLeft s)

def splitOnce (sep : Char) : List Char → Option (List Char × List Char)
  | [] => none
  | c :: cs => if c = sep then some ([], cs)
      else (splitOnce sep cs).map fun (a, b) => (c :: a, b)

def split (sep : Char) : List Char → List (List Char)
  | [] => [[]]
  | c :: cs => if c = sep then [] :: split sep cs
      else match split sep cs with
        | [] => [[c]]
        | p :: ps => (c :: p) :: ps

def dropCarriageReturn (line : List Char) : List Char :=
  match line.reverse with
  | '\r' :: rest => rest.reverse
  | _ => line

/-- Lines end at a line feed, before which one carriage return is dropped; a
last line without a line feed counts unless it is empty. -/
def lines (s : List Char) : List (List Char) :=
  let pieces := split '\n' s
  let ended := pieces.dropLast.map dropCarriageReturn
  match pieces.getLast? with
  | none | some [] => ended
  | some rest => ended ++ [rest]

/-- Replace the non-empty `old` from left to right; `skip` counts the characters
of a match that are still to be passed over. -/
def replaceFrom (old new : List Char) : Nat → List Char → List Char
  | _, [] => []
  | skip + 1, _ :: cs => replaceFrom old new skip cs
  | 0, c :: cs =>
    if old.isPrefixOf (c :: cs) then new ++ replaceFrom old new (old.length - 1) cs
    else c :: replaceFrom old new 0 cs

def replace (old new s : List Char) : List Char := replaceFrom old new 0 s

def hasPart (part : List Char) : List Char → Bool
  | [] => part.isEmpty
  | c :: cs => part.isPrefixOf (c :: cs) || hasPart part cs

def lower (s : String) : String := s.map Char.toLower

def digitsValue (digits : List Char) : Nat :=
  digits.foldl (fun n c => n * 10 + (c.toNat - '0'.toNat)) 0

def readNat (s : List Char) : Option Nat :=
  if s.isEmpty || !s.all Char.isDigit then none else some (digitsValue s)

def readNatBelow (limit : Nat) (s : List Char) : Option Nat :=
  let digits := match s with
    | '+' :: rest => rest
    | _ => s
  (readNat digits).bind fun n => if n < limit then some n else none

def readWord (s : List Char) : Option Nat := readNatBelow (Nat.pow 2 64) s

def readInt (s : List Char) : Option Int :=
  match s with
  | '-' :: rest => (readNat rest).bind fun n => Bounded.bound (-(n : Int))
  | '+' :: rest => (readNat rest).bind fun n => Bounded.bound n
  | _ => (readNat s).bind fun n => Bounded.bound n

end Consistency.Text
