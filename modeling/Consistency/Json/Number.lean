import Consistency.Json
import Consistency.Text

/-!
# Numbers in JSON

A number is a whole part without leading zeros, then perhaps a fraction and an
exponent. Its value is that of a double: the digits that fit into 64 bits make
up the significand, those after them count by their places alone, and a number
past the last finite double has no value.
-/

set_option autoImplicit false

namespace Consistency.Json

structure Numeral where
  sign : List Char
  whole : List Char
  fraction : List Char
  exponent : List Char
  deriving DecidableEq, Repr, Inhabited

namespace Numeral

def text (x : Numeral) : String :=
  let point := if x.fraction.isEmpty then [] else ['.']
  String.ofList (x.sign ++ x.whole ++ point ++ x.fraction ++ x.exponent)

/-- The digits, read on from `n`, as long as they fit into 64 bits, and how many are left. -/
def significand : Nat → List Char → Nat × Nat
  | n, [] => (n, 0)
  | n, d :: ds =>
    let m := Text.digitsValue [d] + n * 10
    if m < Nat.pow 2 64 then significand m ds else (n, ds.length + 1)

def exponentValue (x : Numeral) : Int :=
  match x.exponent with
  | _ :: '-' :: digits => -(Text.digitsValue digits : Int)
  | _ :: '+' :: digits => Text.digitsValue digits
  | _ :: digits => Text.digitsValue digits
  | [] => 0

def nearest (n : Nat) : Nat :=
  let unit := Nat.pow 2 (n.log2 + 1 - 53)
  let below := n / unit
  let up := unit < 2 * (n % unit) ∨ (unit = 2 * (n % unit) ∧ below % 2 = 1)
  (if up then below + 1 else below) * unit

/-- Whether the double that stands for the number is finite: the product of the significand and
a power of ten, all three rounded. -/
def isFinite (x : Numeral) : Bool :=
  let (n, left) := significand 0 (x.whole ++ x.fraction)
  let power := x.exponentValue + left - x.fraction.length
  n == 0 || (power ≤ 308 && nearest (nearest n * nearest (Nat.pow 10 power.toNat)) < Nat.pow 2 1024)

end Numeral

def takeDigits (s : List Char) : List Char × List Char := s.span Char.isDigit

def readWhole (s : List Char) : Option (List Char × List Char) :=
  match takeDigits s with
  | ([], _) => none
  | ('0' :: _ :: _, _) => none
  | found => some found

def readFraction : List Char → Option (List Char × List Char)
  | '.' :: rest => match takeDigits rest with
    | ([], _) => none
    | found => some found
  | s => some ([], s)

def readExponent (s : List Char) : Option (List Char × List Char) :=
  match s with
  | c :: rest =>
    if c = 'e' ∨ c = 'E' then
      let (sign, rest) := match rest with
        | '+' :: r => (['+'], r)
        | '-' :: r => (['-'], r)
        | r => ([], r)
      match takeDigits rest with
      | ([], _) => none
      | (ds, rest) => some (c :: sign ++ ds, rest)
    else some ([], s)
  | [] => some ([], [])

def readNumeral (s : List Char) : Option (Numeral × List Char) := do
  let (sign, s) := match s with
    | '-' :: r => (['-'], r)
    | r => ([], r)
  let (whole, s) ← readWhole s
  let (fraction, s) ← readFraction s
  let (exponent, s) ← readExponent s
  return (⟨sign, whole, fraction, exponent⟩, s)

end Consistency.Json
