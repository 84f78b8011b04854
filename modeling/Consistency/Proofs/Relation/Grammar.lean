import Consistency.Relation.Parser

/-!
# The grammar of relation expressions

A union is made of differences, these of intersections, these of compositions,
these of operands with suffixes; each operation groups to the left. What binds
more tightly stands for an expression of every looser level.
-/

set_option autoImplicit false

namespace Consistency

inductive RelLevel where
  | operation (op : RelOp)
  | suffixed
  | operand
  deriving DecidableEq

namespace RelLevel

abbrev expr : RelLevel := .operation .union

def strength : RelLevel → Nat
  | .operation op => op.strength
  | .suffixed => 5
  | .operand => 6

theorem one_le_strength (l : RelLevel) : 1 ≤ l.strength := by
  rcases l with ⟨_ | _ | _ | _⟩ | _ | _ <;> decide

theorem strength_le_six (l : RelLevel) : l.strength ≤ 6 := by
  rcases l with ⟨_ | _ | _ | _⟩ | _ | _ <;> decide

theorem strength_injective {l l' : RelLevel} (h : l.strength = l'.strength) : l = l' := by
  rcases l with ⟨_ | _ | _ | _⟩ | _ | _ <;> rcases l' with ⟨_ | _ | _ | _⟩ | _ | _ <;>
    first | rfl | exact absurd h (by decide)

end RelLevel

def RelOp.tighter : RelOp → RelLevel
  | .union => .operation .diff
  | .diff => .operation .inter
  | .inter => .operation .seq
  | .seq => .suffixed

theorem RelOp.strength_tighter (op : RelOp) : op.tighter.strength = op.strength + 1 := by
  cases op <;> rfl

/-- Which tokens an expression is read from. An operation repeats its operator, to the left; a
name is none of an event set. -/
inductive RelExpr.Derives : RelLevel → List RelToken → RelExpr → Prop where
  | single {op : RelOp} {ts : List RelToken} {e : RelExpr} :
      Derives op.tighter ts e → Derives (.operation op) ts e
  | binary {op : RelOp} {ts us : List RelToken} {a b : RelExpr} :
      Derives (.operation op) ts a → Derives op.tighter us b →
      Derives (.operation op) (ts ++ .binary op :: us) (.binary op a b)
  | bare {ts : List RelToken} {e : RelExpr} : Derives .operand ts e → Derives .suffixed ts e
  | suffixed {op : RelSuffix} {ts : List RelToken} {e : RelExpr} :
      Derives .suffixed ts e → Derives .suffixed (ts ++ [.suffix op]) (.suffixed op e)
  | name {n : String} : EventSet.ofName? n = none → Derives .operand [.name n] (ofName n)
  | paren {ts : List RelToken} {e : RelExpr} :
      Derives .expr ts e → Derives .operand (.openParen :: ts ++ [.closeParen]) e
  | identity (s : EventSet) :
      Derives .operand [.openSet, .name s.name, .closeSet] (.identity s)
  | product (s t : EventSet) :
      Derives .operand [.name s.name, .suffix .star, .name t.name] (.product s t)

theorem EventSet.ofName?_name (s : EventSet) : ofName? s.name = some s := by
  cases s <;> rfl

theorem EventSet.ofName?_eq_some {n : String} {s : EventSet} :
    ofName? n = some s ↔ n = s.name := by
  constructor
  · intro h
    unfold ofName? at h
    split at h <;> cases h <;> rfl
  · rintro rfl
    exact ofName?_name s

namespace RelExpr
variable {ts : List RelToken} {e : RelExpr} {l l' : RelLevel}

/-- The next level down to operands. -/
theorem exists_tighter (h : l'.strength < l.strength) :
    ∃ l₁ : RelLevel, l₁.strength = l'.strength + 1 ∧
      ∀ {ts e}, Derives l₁ ts e → Derives l' ts e := by
  cases l' with
  | operation op => exact ⟨op.tighter, op.strength_tighter, .single⟩
  | suffixed => exact ⟨.operand, rfl, .bare⟩
  | operand => exact absurd h (Nat.not_lt.2 l.strength_le_six)

/-- What binds more tightly stands for an expression of every level before. -/
theorem derives_of_le (h : Derives l ts e) (hl : l'.strength ≤ l.strength) :
    Derives l' ts e := by
  obtain ⟨d, hd⟩ := Nat.le.dest hl
  induction d generalizing l' with
  | zero =>
    obtain rfl : l' = l := RelLevel.strength_injective hd
    exact h
  | succ d ih =>
    have hlt : l'.strength < l.strength := by omega
    obtain ⟨l₁, hl₁, hdown⟩ := exists_tighter hlt
    exact hdown (ih (by omega) (by omega))

end RelExpr
end Consistency
