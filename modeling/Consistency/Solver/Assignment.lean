import Std.Data.HashMap.Lemmas
import Consistency.Term.Eval
import Consistency.Text

/-!
# Assignments found by solvers

A solver answers with a text for each constant. Booleans and integers are read
back from the texts; a negative integer may be written `(- n)`.
-/

set_option autoImplicit false

namespace Consistency

structure Assignment where
  entries : List (String × String)
  deriving DecidableEq, Repr, Inhabited

namespace Assignment

def readBool (text : String) : Option Bool :=
  let s := Text.trim text.toList
  if s = "true".toList then some true
  else if s = "false".toList then some false
  else none

def parenthesized? : List Char → Option (List Char)
  | '(' :: rest => match rest.reverse with
    | ')' :: inner => some inner.reverse
    | _ => none
  | _ => none

/-- The least integer is its own negation, as its opposite is out of range. -/
def negate (n : Int) : Int := if n = Bounded.least then n else -n

def readInt (text : String) : Option Int :=
  let s := Text.trim text.toList
  match parenthesized? s with
  | some inner => match Text.trim inner with
    | '-' :: magnitude => (Text.readInt (Text.trim magnitude)).map negate
    | _ => none
  | none => Text.readInt s

def get? (m : Assignment) (name : String) : Option String := m.entries.lookup name

def getBool? (m : Assignment) (name : String) : Option Bool := (m.get? name).bind readBool

def getInt? (m : Assignment) (name : String) : Option Int := (m.get? name).bind readInt

def size (m : Assignment) : Nat := m.entries.length

def isEmpty (m : Assignment) : Bool := m.entries.isEmpty

def readValue (text : String) : Option Value :=
  ((readBool text).map Value.bool).or ((readInt text).map Value.int)

def environment (m : Assignment) : Environment := fun name => (m.get? name).bind readValue

def table (m : Assignment) : Std.HashMap String (Option Value) :=
  m.entries.foldr (fun e t => t.insert e.1 (readValue e.2)) ∅

theorem table_eq_environment (m : Assignment) (name : String) :
    (m.table[name]?).join = m.environment name := by
  obtain ⟨entries⟩ := m
  simp only [table, environment, get?]
  induction entries with
  | nil => simp
  | cons e es ih =>
    obtain ⟨x, text⟩ := e
    simp only [List.foldr_cons, Std.HashMap.getElem?_insert]
    by_cases h : x = name
    · simp [h]
    · have hf : (x == name) = false := by simpa using h
      have hb : (name == x) = false := by simpa using fun h' => h h'.symm
      simp [List.lookup_cons, hf, hb, ih]

end Assignment
end Consistency
