import Consistency.Ordered.Set

/-!
# Trying all combinations

A wheel shows one of the values of a name. All wheels start with their first
values; the first wheel turns fastest, and one that has shown its last value
starts again and turns the wheel after it. When every wheel would have to start
again, all combinations have been tried.
-/

set_option autoImplicit false

namespace Consistency.Query

structure Wheel where
  name : String
  values : List Int
  place : Fin values.length
  deriving DecidableEq, Repr

namespace Wheel

def ofValues? (name : String) : List Int → Option Wheel
  | [] => none
  | v :: vs => some ⟨name, v :: vs, ⟨0, Nat.zero_lt_succ _⟩⟩

def value (w : Wheel) : Int := w.values.get w.place

def restart (w : Wheel) : Wheel := { w with place := ⟨0, Nat.zero_lt_of_lt w.place.isLt⟩ }

def turn? (w : Wheel) : Option Wheel :=
  if h : w.place + 1 < w.values.length then some { w with place := ⟨w.place + 1, h⟩ } else none

def combinations : List Wheel → Nat
  | [] => 1
  | w :: ws => w.values.length * combinations ws

def ahead : List Wheel → Nat
  | [] => 0
  | w :: ws => w.values.length - 1 - w.place + w.values.length * ahead ws

end Wheel

/-- Either the combination shown is to be tried, or a wheel is to be turned: those that have been
passed, the nearest first, start again. -/
inductive Stage where
  | trying (wheels : List Wheel)
  | turning (passed wheels : List Wheel)
  deriving DecidableEq, Repr

namespace Stage

def next? : Stage → Option Stage
  | .trying ws => some (.turning [] ws)
  | .turning _ [] => none
  | .turning passed (w :: ws) => match w.turn? with
    | some turned => some (.trying (passed.reverseAux (turned :: ws)))
    | none => some (.turning (w.restart :: passed) ws)

def rank : Stage → Nat × Nat
  | .trying ws => (Wheel.ahead ws, ws.length + 1)
  | .turning passed ws => (Wheel.combinations passed * Wheel.ahead ws, ws.length)

end Stage

theorem Wheel.ahead_succ_le (w : Wheel) (ws : List Wheel) :
    ahead (w :: ws) + 1 ≤ w.values.length * (ahead ws + 1) := by
  have hplace := w.place.isLt
  rw [ahead, Nat.mul_succ]
  omega

/-- Whatever the passed wheels show, they are ahead of less than one turn of the next wheel. -/
theorem Wheel.ahead_reverseAux_lt (passed ws : List Wheel) :
    ahead (passed.reverseAux ws) < combinations passed * (ahead ws + 1) := by
  induction passed generalizing ws with
  | nil => simp [combinations]
  | cons w passed ih =>
    calc ahead (passed.reverseAux (w :: ws))
      _ < combinations passed * (ahead (w :: ws) + 1) := ih (w :: ws)
      _ ≤ combinations passed * (w.values.length * (ahead ws + 1)) :=
        Nat.mul_le_mul_left _ (ahead_succ_le w ws)
      _ = combinations (w :: passed) * (ahead ws + 1) := by
        rw [combinations, ← Nat.mul_assoc, Nat.mul_comm w.values.length]

theorem Wheel.ahead_turn {w turned : Wheel} (h : w.turn? = some turned) (ws : List Wheel) :
    ahead (turned :: ws) + 1 = ahead (w :: ws) := by
  unfold turn? at h
  split at h
  · next hplace =>
    obtain rfl := Option.some.inj h
    simp only [ahead]
    omega
  · exact absurd h (by simp)

theorem Wheel.ahead_of_last {w : Wheel} (h : w.turn? = none) (ws : List Wheel) :
    ahead (w :: ws) = w.values.length * ahead ws := by
  unfold turn? at h
  split at h
  · exact absurd h (by simp)
  · rw [ahead]
    omega

theorem Stage.next?_of_turn {w turned : Wheel} (h : w.turn? = some turned)
    (passed ws : List Wheel) :
    (turning passed (w :: ws)).next? = some (.trying (passed.reverseAux (turned :: ws))) := by
  simp only [next?, h]

theorem Stage.next?_of_last {w : Wheel} (h : w.turn? = none) (passed ws : List Wheel) :
    (turning passed (w :: ws)).next? = some (.turning (w.restart :: passed) ws) := by
  simp only [next?, h]

/-- With each step either a combination is left behind or a wheel is passed. -/
theorem Stage.rank_next {s t : Stage} (h : s.next? = some t) :
    Prod.Lex (· < ·) (· < ·) t.rank s.rank := by
  cases s with
  | trying ws =>
    obtain rfl := Option.some.inj h
    rw [rank, rank, Wheel.combinations, Nat.one_mul]
    exact .right _ (Nat.lt_succ_self _)
  | turning passed ws =>
    cases ws with
    | nil => exact absurd h (by simp [next?])
    | cons w ws =>
      cases hturn : w.turn? with
      | some turned =>
        obtain rfl := Option.some.inj ((next?_of_turn hturn passed ws).symm.trans h)
        apply Prod.Lex.left
        rw [← Wheel.ahead_turn hturn]
        exact Wheel.ahead_reverseAux_lt passed (turned :: ws)
      | none =>
        obtain rfl := Option.some.inj ((next?_of_last hturn passed ws).symm.trans h)
        have hsame : Wheel.combinations (w.restart :: passed) * Wheel.ahead ws =
            Wheel.combinations passed * Wheel.ahead (w :: ws) := by
          rw [Wheel.ahead_of_last hturn, Wheel.combinations, Wheel.restart,
            Nat.mul_comm w.values.length, Nat.mul_assoc]
        rw [rank, rank, hsame]
        exact .right _ (Nat.lt_succ_self _)

namespace Stage

def record (f : List Wheel → Option Int) (found : OrderedSet Int) : Stage → OrderedSet Int
  | .trying ws => match f ws with
    | some n => found.insert n
    | none => found
  | .turning _ _ => found

def gather (f : List Wheel → Option Int) (found : OrderedSet Int) (s : Stage) : OrderedSet Int :=
  match _h : s.next? with
  | none => s.record f found
  | some t => gather f (s.record f found) t
termination_by s.rank
decreasing_by exact rank_next _h

end Stage
end Consistency.Query
