import Consistency.Solver.Answer

/-!
# Parenthesised expressions

The form in which solvers print assignments. Between bars a symbol may hold
blanks and parentheses; the bars are part of its text.
-/

set_option autoImplicit false

namespace Consistency

inductive Sexp where
  | atom (text : String)
  | list (items : List Sexp)
  deriving Repr, Inhabited

namespace Sexp

mutual
def render : Sexp → String
  | .atom text => text
  | .list items => parens (renderAll items)

def renderAll : List Sexp → List String
  | [] => []
  | e :: es => render e :: renderAll es
end

inductive Token where
  | opening
  | closing
  | atom (text : List Char)
  deriving DecidableEq, Repr

def flush (current : List Char) (rest : List Token) : List Token :=
  if current.isEmpty then rest else .atom current.reverse :: rest

def scan (quoted : Bool) (current : List Char) : List Char → List Token
  | [] => flush current []
  | c :: cs =>
    if quoted then scan (c != '|') (c :: current) cs
    else if c = '(' then flush current (.opening :: scan false [] cs)
    else if c = ')' then flush current (.closing :: scan false [] cs)
    else if c = '|' then scan true (c :: current) cs
    else if Text.isBlank c then flush current (scan false [] cs)
    else scan false (c :: current) cs

def tokens (text : List Char) : List Token := scan false [] text

/-- `current` holds the items of the innermost open list backwards, `outer` those of the
lists around it. -/
def build (outer : List (List Sexp)) (current : List Sexp) :
    List Token → Except SolverError (List Sexp)
  | [] => if outer.isEmpty then .ok current.reverse else .error .unbalancedOpen
  | .opening :: ts => build (current :: outer) [] ts
  | .closing :: ts => match outer with
    | [] => .error .unbalancedClose
    | parent :: outer => build outer (.list current.reverse :: parent) ts
  | .atom a :: ts => build outer (.atom (String.ofList a) :: current) ts

def read (text : List Char) : Except SolverError (List Sexp) := build [] [] (tokens text)

end Sexp
end Consistency
