import Std.Data.HashMap
import Consistency.Cnf.Clause
import Consistency.Ordered.Distinct
import Consistency.Ordered.Map
import Consistency.Ordered.Set
import Consistency.Solver.Answer
import Consistency.Term.Domain
import Consistency.Term.Eval

/-!
# Clauses for terms

Formulas are named by literals, each gate by clauses in both directions. An
integer constant has one indicator for each value of its domain, of which
exactly one holds; an integer term is expanded into values under guards that
exclude each other. The domain of a constant is read off the first assertion
that equates it to literals.
-/

set_option autoImplicit false

namespace Consistency

inductive OutOfFragment where
  | functionSymbol (name : String)
  | uninterpretedFunction (name : String)
  | unboundedDomain (name : String)
  | undefinedValue (term : Term)
  | tooManyCases (term : Term)
  | notReproduced
  deriving DecidableEq, Repr, Inhabited

def OutOfFragment.message : OutOfFragment → String
  | .functionSymbol name =>
    "function symbol " ++ name ++ " is outside the finite-domain fragment"
  | .uninterpretedFunction name => "uninterpreted function " ++ name
  | .unboundedDomain name => "unbounded integer domain for " ++ name
  | .undefinedValue t => "arithmetic overflow or division by zero in " ++ t.render
  | .tooManyCases t => "too many value combinations in " ++ t.render
  | .notReproduced => "model failed re-evaluation"

inductive Stop where
  | failed (error : SolverError)
  | gaveUp (why : OutOfFragment)
  deriving DecidableEq, Repr, Inhabited

def Stop.answer : Stop → Except SolverError Answer
  | .failed e => .error e
  | .gaveUp why => .ok (.unknown why.message)

abbrev Cases := List (Lit × Int)

inductive Symbol where
  | bool (lit : Lit)
  | int (cases : Cases)
  | unbound
  deriving DecidableEq, Repr, Inhabited

structure Encoder where
  vars : Nat
  /-- What the variables stand for, the latest clause first. -/
  definitions : List Clause
  /-- What the assertions demand, the latest clause first. -/
  asserted : List Clause
  symbols : Std.HashMap String Symbol
  known : Std.HashMap Term Lit

namespace Encoder

def initial : Encoder := ⟨1, [[.top]], [], ∅, ∅⟩

end Encoder

abbrev Encode := StateT Encoder (Except Stop)

namespace Encode

def fail {α : Type} (e : SolverError) : Encode α := throw (.failed e)

def giveUp {α : Type} (why : OutOfFragment) : Encode α := throw (.gaveUp why)

def fresh : Encode Lit := modifyGet fun e => (⟨e.vars, true⟩, { e with vars := e.vars + 1 })

def emit (c : Clause) : Encode Unit :=
  modify fun e => { e with definitions := c :: e.definitions }

def symbol (name : String) : Encode (Option Symbol) := return (← get).symbols[name]?

def conj (ls : List Lit) : Encode Lit :=
  match conjuncts ls with
  | none => return .bottom
  | some [] => return .top
  | some [l] => return l
  | some kept => do
    let v ← fresh
    kept.forM fun l => emit [v.flip, l]
    emit (v :: kept.map Lit.flip)
    return v

def disj (ls : List Lit) : Encode Lit := return (← conj (ls.map Lit.flip)).flip

def equivalence (a b : Lit) : Encode Lit :=
  if a = b then return .top
  else if a = b.flip then return .bottom
  else if a = .top then return b
  else if b = .top then return a
  else if a = .bottom then return b.flip
  else if b = .bottom then return a.flip
  else do
    let v ← fresh
    emit [v.flip, a.flip, b]
    emit [v.flip, a, b.flip]
    emit [v, a, b]
    emit [v, a.flip, b.flip]
    return v

def choice (c yes no : Lit) : Encode Lit := do
  let first ← conj [c, yes]
  let second ← conj [c.flip, no]
  disj [first, second]

def remember (t : Term) (encode : Encode Lit) : Encode Lit := do
  match (← get).known[t]? with
  | some l => return l
  | none =>
    let l ← encode
    modify fun e => { e with known := e.known.insert t l }
    return l

def isFormula (symbols : Std.HashMap String Symbol) : Term → Bool
  | .bool _ | .not _ | .and _ | .or _ | .implies _ _ | .iff _ _ | .eq _ _ | .distinct _
  | .compare _ _ _ => true
  | .const name => match symbols[name]? with
    | some (.bool _) => true
    | _ => false
  | .ite _ yes _ => isFormula symbols yes
  | _ => false

def pairs (xs ys : Cases) : List ((Lit × Int) × (Lit × Int)) :=
  xs.flatMap fun x => ys.map fun y => (x, y)

def relate (rel : Int → Int → Bool) (xs ys : Cases) : Encode Lit := do
  let hits ← ((pairs xs ys).filter fun p => rel p.1.2 p.2.2).mapM fun p => conj [p.1.1, p.2.1]
  disj hits

abbrev Guards := OrderedMap Int (List Lit)

def addGuard (m : Guards) (value : Int) (guard : Lit) : Guards :=
  m.alter value fun gs => guard :: gs.getD []

/-- One case for each value, under any of its guards; a value that is never taken is left out. -/
def merge (m : Guards) : Encode Cases := do
  let cases ← m.entries.mapM fun (value, guards) => return (← disj guards, value)
  return cases.filter fun c => c.1 != .bottom

def guarded (c : Lit) (cases : Cases) (m : Guards) : Encode Guards :=
  cases.foldlM (fun m (g, value) => return addGuard m value (← conj [c, g])) m

def maxCases : Nat := 4096

def combine (whole : Term) (op : Int → Int → Option Int) (xs ys : Cases) : Encode Cases := do
  if xs.length * ys.length > maxCases then giveUp (.tooManyCases whole)
  let merged ← (pairs xs ys).foldlM (fun m (x, y) => do
    match op x.2 y.2 with
    | none => giveUp (.undefinedValue whole)
    | some value => return addGuard m value (← conj [x.1, y.1])) .empty
  merge merged

def negate (whole : Term) (xs : Cases) : Encode Cases :=
  xs.mapM fun (g, value) => match Bounded.neg value with
    | none => giveUp (.undefinedValue whole)
    | some n => return (g, n)

structure Operand where
  term : Term
  formula : Encode Lit
  integer : Encode Cases

def equate (x y : Operand) : Encode Lit := do
  let symbols := (← get).symbols
  if isFormula symbols x.term || isFormula symbols y.term then
    let a ← x.formula
    let b ← y.formula
    equivalence a b
  else
    let a ← x.integer
    let b ← y.integer
    relate (· == ·) a b

def unequalTo (x : Operand) (ys : List Operand) : Encode (List Lit) :=
  ys.mapM fun y => return (← remember (.eq x.term y.term) (equate x y)).flip

def pairwiseUnequal : List Operand → Encode (List Lit)
  | [] => return []
  | x :: xs => do
    let here ← unequalTo x xs
    let later ← pairwiseUnequal xs
    return here ++ later

def constFormula (name : String) : Encode Lit := do
  match ← symbol name with
  | some (.bool l) => return l
  | some _ => fail (.intUsedAsBool name)
  | none => fail (.undefinedSymbol name)

def constCases (name : String) : Encode Cases := do
  match ← symbol name with
  | some (.int cases) => return cases
  | some .unbound => giveUp (.unboundedDomain name)
  | some (.bool _) => fail (.boolUsedAsInt name)
  | none => fail (.undefinedSymbol name)

mutual
def formula (t : Term) : Encode Lit := remember t <| match t with
  | .bool b => return if b then .top else .bottom
  | .const name => constFormula name
  | .not a => return (← formula a).flip
  | .and as => do
    let ls ← formulas as
    conj ls
  | .or as => do
    let ls ← formulas as
    disj ls
  | .implies a b => do
    let p ← formula a
    let q ← formula b
    disj [p.flip, q]
  | .iff a b => do
    let p ← formula a
    let q ← formula b
    equivalence p q
  | .eq a b => equate ⟨a, formula a, integer a⟩ ⟨b, formula b, integer b⟩
  | .distinct as => do
    let ls ← pairwiseUnequal (operands as)
    conj ls
  | .ite c a b => do
    let cond ← formula c
    let yes ← formula a
    let no ← formula b
    choice cond yes no
  | .compare o a b => do
    let xs ← integer a
    let ys ← integer b
    relate o.holds xs ys
  | .app f _ => giveUp (.uninterpretedFunction f)
  | .int n => fail (.intAsFormula (.int n))
  | .arith o a b => fail (.intAsFormula (.arith o a b))
  | .neg a => fail (.intAsFormula (.neg a))

def integer (t : Term) : Encode Cases := match t with
  | .int n => return [(.top, n)]
  | .const name => constCases name
  | .neg a => do
    let xs ← integer a
    negate (.neg a) xs
  | .arith o a b => do
    let xs ← integer a
    let ys ← integer b
    combine (.arith o a b) o.eval xs ys
  | .ite c a b => do
    let cond ← formula c
    let yes ← guarded cond (← integer a) .empty
    let all ← guarded cond.flip (← integer b) yes
    merge all
  | .app f _ => giveUp (.uninterpretedFunction f)
  | t => fail (.formulaAsInt t)

def formulas : List Term → Encode (List Lit)
  | [] => return []
  | t :: ts => do
    let l ← formula t
    let ls ← formulas ts
    return l :: ls

def operands : List Term → List Operand
  | [] => []
  | t :: ts => ⟨t, formula t, integer t⟩ :: operands ts
end

def demand (c : Clause) : Encode Unit :=
  match Clause.simplify c with
  | none => return ()
  | some kept => modify fun e => { e with asserted := kept :: e.asserted }

mutual
def assert (t : Term) : Encode Unit := match t with
  | .and as => assertAll as
  | .or as => do
    let ls ← formulas as
    demand ls
  | .implies a b => do
    let p ← formula a
    let q ← formula b
    demand [p.flip, q]
  | t => do
    let l ← formula t
    demand [l]

def assertAll : List Term → Encode Unit
  | [] => return ()
  | t :: ts => do
    assert t
    assertAll ts
end

def define (name : String) (symbol : Symbol) : Encode Unit :=
  modify fun e => { e with symbols := e.symbols.insert name symbol }

def declare (name : String) : ValueSort → Encode Unit
  | .bool => do define name (.bool (← fresh))
  | .int => define name .unbound
  | .uninterpreted sort => fail (.uninterpretedSort sort)

def declareFrom : Command → Encode Unit
  | .declareConst name sort => declare name sort
  | .declareFun name [] sort => declare name sort
  | .declareFun name (_ :: _) _ => giveUp (.functionSymbol name)
  | .defineFun name _ _ _ => giveUp (.functionSymbol name)
  | .push _ | .pop _ => fail .incremental
  | _ => return ()

abbrev Domains := OrderedMap String (List Int)

def addDomain (symbols : Std.HashMap String Symbol) (m : Domains) (t : Term) : Domains :=
  match t.domain? with
  | some (x, values) =>
    if symbols[x]? = some .unbound ∧ ¬ m.contains x then
      m.insert x (OrderedSet.ofList values).toList
    else m
  | none => m

def requireDomain (domains : Domains) (name : String) : Encode Unit := do
  match ← symbol name with
  | none => fail (.undefinedSymbol name)
  | some .unbound => if domains.contains name then return () else giveUp (.unboundedDomain name)
  | some _ => return ()

def atMostOne : List Lit → List Clause
  | [] => []
  | l :: ls => ls.map (fun m => [l.flip, m.flip]) ++ atMostOne ls

def bindDomain (name : String) (values : List Int) : Encode Unit := do
  let cases ← values.mapM fun v => return (← fresh, v)
  let indicators := cases.map Prod.fst
  emit indicators
  (atMostOne indicators).forM emit
  define name (.int cases)

def bindDomains (assertions : List Term) : Encode Unit := do
  let symbols := (← get).symbols
  let domains := assertions.foldl (addDomain symbols) .empty
  let referenced := OrderedSet.ofList (distinct (assertions.flatMap Term.consts))
  referenced.toList.forM (requireDomain domains)
  domains.entries.forM fun (name, values) => bindDomain name values

def script (s : Script) : Encode Unit := do
  s.commands.forM declareFrom
  bindDomains s.assertions
  assertAll s.assertions

end Encode

def Encoder.ofScript (s : Script) : Except Stop Encoder := do
  let (_, e) ← (Encode.script s).run .initial
  return e

end Consistency
