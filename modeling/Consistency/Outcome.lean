import Consistency.Graph.Execution
import Consistency.Text

/-!
# Outcomes

An outcome asks for final values of registers and shared variables, as in
`0:r0=1 /\ x=2`. The empty outcome, written `true`, asks for nothing.
-/

set_option autoImplicit false

namespace Consistency

inductive Atom where
  | register (thread : Nat) (reg : String) (value : Int)
  | memory (var : String) (value : Int)
  deriving DecidableEq, Repr, Inhabited

def Atom.render : Atom → String
  | .register p reg v => toString p ++ ":" ++ reg ++ "=" ++ toString v
  | .memory var v => var ++ "=" ++ toString v

inductive OutcomeError where
  | unreadable (atom : String)
  | noThread (thread : Nat) (atom : Atom)
  | noRegister (thread : Nat) (name reg : String)
  | noVariable (var : String)
  deriving DecidableEq, Repr, Inhabited

def OutcomeError.message : OutcomeError → String
  | .unreadable atom => "cannot parse atom '" ++ atom ++ "'"
  | .noThread p atom => "no process " ++ toString p ++ " in '" ++ atom.render ++ "'"
  | .noRegister p name reg =>
    "process " ++ toString p ++ " (" ++ name ++ ") has no register '" ++ reg ++ "'"
  | .noVariable var => "no shared variable '" ++ var ++ "'"

namespace Atom

def readTarget (lhs : List Char) (value : Int) : Option Atom :=
  match Text.splitOnce ':' lhs with
  | some (thread, reg) => (Text.readWord (Text.trim thread)).map fun id =>
    .register id (String.ofList (Text.trim reg)) value
  | none => if lhs.isEmpty then none else some (.memory (String.ofList lhs) value)

def read? (s : List Char) : Option Atom := do
  let (lhs, rhs) ← Text.splitOnce '=' s
  let value ← Text.readInt (Text.trim rhs)
  readTarget (Text.trim lhs) value

def parse (s : List Char) : Except OutcomeError Atom :=
  match read? s with
  | some a => .ok a
  | none => .error (.unreadable (String.ofList s))

end Atom

structure Outcome where
  atoms : List Atom
  deriving DecidableEq, Repr, Inhabited

namespace Outcome

def any : Outcome := ⟨[]⟩

def isAny (o : Outcome) : Bool := o.atoms.isEmpty

def withRegister (o : Outcome) (thread : Nat) (reg : String) (value : Int) : Outcome :=
  ⟨o.atoms ++ [.register thread reg value]⟩

def withMemory (o : Outcome) (var : String) (value : Int) : Outcome :=
  ⟨o.atoms ++ [.memory var value]⟩

def render (o : Outcome) : String :=
  if o.atoms.isEmpty then "true" else " /\\ ".intercalate (o.atoms.map Atom.render)

def commas (s : List Char) : List Char :=
  Text.replace ['&', '&'] [','] (Text.replace ['/', '\\'] [','] s)

def parse (text : String) : Except OutcomeError Outcome :=
  let s := Text.trim text.toList
  if s.isEmpty ∨ s = "true".toList then .ok any
  else do
    let atoms ← (Text.split ',' (commas s)).mapM Atom.parse
    return ⟨atoms⟩

def validateAtom (c : Composition) (a : Atom) : Except OutcomeError Unit :=
  match a with
  | .register thread reg _ => match c.threads[thread]? with
    | none => .error (.noThread thread a)
    | some t =>
      if t.automaton.registers.contains reg then .ok ()
      else .error (.noRegister thread t.automaton.name reg)
  | .memory var _ => if c.initialWrites.contains var then .ok () else .error (.noVariable var)

def validate (o : Outcome) (c : Composition) : Except OutcomeError Unit :=
  o.atoms.forM (validateAtom c)

def atomHolds (x : Execution) : Atom → Bool
  | .register thread reg value => match x.finalRegisters[thread]? with
    | some regs => (regs.get? reg).getD 0 == value
    | none => false
  | .memory var value => x.finalMemory.get? var == some value

def holdsIn (o : Outcome) (x : Execution) : Bool := o.atoms.all (atomHolds x)

end Outcome
end Consistency
