import Consistency.Cnf.Problem

/-!
# Derived clauses

A derived clause comes with the proof that it follows from a problem. Clauses of
the problem are derived, and so is what resolution makes of derived clauses; the
empty clause refutes the problem.

Literals are numbers here, twice the variable and one more for a positive one,
and clauses are ordered lists of them.
-/

set_option autoImplicit false

namespace Consistency

namespace Lit

def code (l : Lit) : Nat := 2 * l.var + l.sign.toNat

end Lit

namespace Code

def var (n : Nat) : Nat := n / 2

def sign (n : Nat) : Bool := n % 2 == 1

def opposite (n : Nat) : Nat := if n % 2 = 0 then n + 1 else n - 1

def holds (τ : Nat → Bool) (n : Nat) : Bool := τ (var n) == sign n

theorem holds_code (τ : Nat → Bool) (l : Lit) : holds τ l.code = l.holds τ := by
  obtain ⟨v, b⟩ := l
  have hv : (2 * v + b.toNat) / 2 = v := by
    have hb : b.toNat ≤ 1 := Bool.toNat_le b
    omega
  have hb : ((2 * v + b.toNat) % 2 == 1) = b := by cases b <;> simp [Nat.add_mod]
  simp only [holds, Lit.holds, Lit.code, var, sign, hv, hb]

theorem holds_opposite (τ : Nat → Bool) (n : Nat) : holds τ (opposite n) = !holds τ n := by
  unfold opposite holds var sign
  by_cases h : n % 2 = 0
  · have hv : (n + 1) / 2 = n / 2 := by omega
    have hb : (n + 1) % 2 = 1 := by omega
    cases hτ : τ (n / 2) <;> simp [h, hv, hb, hτ]
  · have hv : (n - 1) / 2 = n / 2 := by omega
    have hb : (n - 1) % 2 = 0 := by omega
    have hn : n % 2 = 1 := by omega
    cases hτ : τ (n / 2) <;> simp [hv, hb, hn, hτ]

/-- The literals of two ordered lists, in order, except `l` from the first and `k` from the second.
The order is lost after `fuel` steps. -/
def resolvent (l k : Nat) : Nat → List Nat → List Nat → List Nat
  | 0, xs, ys => xs.filter (· != l) ++ ys.filter (· != k)
  | _ + 1, [], ys => ys.filter (· != k)
  | _ + 1, xs, [] => xs.filter (· != l)
  | fuel + 1, x :: xs, y :: ys =>
    if x = l then resolvent l k fuel xs (y :: ys)
    else if y = k then resolvent l k fuel (x :: xs) ys
    else if x < y then x :: resolvent l k fuel xs (y :: ys)
    else if y < x then y :: resolvent l k fuel (x :: xs) ys
    else x :: resolvent l k fuel xs ys

theorem mem_resolvent {l k z : Nat} (fuel : Nat) (xs ys : List Nat)
    (h : (z ∈ xs ∧ z ≠ l) ∨ (z ∈ ys ∧ z ≠ k)) : z ∈ resolvent l k fuel xs ys := by
  fun_induction resolvent l k fuel xs ys <;> grind

end Code

structure Derived (p : Problem) where
  lits : List Nat
  /-- The lower, the more useful the clause is expected to be; 0 if it has to be kept. -/
  rank : Nat
  follows : ∀ τ, p.holds τ = true → lits.any (Code.holds τ) = true

namespace Derived

variable {p : Problem}

def ofMem (c : Clause) (h : c ∈ p.clauses) : Derived p where
  lits := (c.map Lit.code).mergeSort
  rank := 0
  follows := by
    intro τ hp
    have hc : c.holds τ = true := List.all_eq_true.1 hp c h
    obtain ⟨l, hl, hτ⟩ := List.any_eq_true.1 hc
    refine List.any_eq_true.2 ⟨l.code, ?_, by rw [Code.holds_code, hτ]⟩
    exact List.mem_mergeSort.2 (List.mem_map_of_mem hl)

def given (p : Problem) : List (Derived p) := p.clauses.attach.map fun c => ofMem c.1 c.2

def patience : Nat := Nat.pow 2 40

def resolve (a b : Derived p) (l : Nat) : Derived p where
  lits := Code.resolvent l (Code.opposite l) patience a.lits b.lits
  rank := a.rank
  follows := by
    intro τ hp
    obtain ⟨x, hx, hτx⟩ := List.any_eq_true.1 (a.follows τ hp)
    obtain ⟨y, hy, hτy⟩ := List.any_eq_true.1 (b.follows τ hp)
    by_cases hl : x = l
    · refine List.any_eq_true.2 ⟨y, Code.mem_resolvent _ _ _ (.inr ⟨hy, ?_⟩), hτy⟩
      intro h
      rw [h, Code.holds_opposite, ← hl, hτx] at hτy
      exact Bool.noConfusion hτy
    · exact List.any_eq_true.2 ⟨x, Code.mem_resolvent _ _ _ (.inl ⟨hx, hl⟩), hτx⟩

theorem refutes (a : Derived p) (h : a.lits = []) (τ : Nat → Bool) : p.holds τ = false := by
  cases hp : p.holds τ with
  | false => rfl
  | true =>
    have := a.follows τ hp
    rw [h] at this
    exact Bool.noConfusion this

end Derived
end Consistency
