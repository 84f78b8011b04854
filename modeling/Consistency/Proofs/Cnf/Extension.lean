import Consistency.Cnf.Encoder
import Consistency.Proofs.Cnf.Clause
import Consistency.Proofs.Run

/-!
# Definitional extension

Encoding adds variables together with clauses that define them. Every
valuation of the variables before extends to the new ones so that the clauses
hold, in one way only. A gate does this for one variable, and runs of the
encoder put gates together.
-/

set_option autoImplicit false

namespace Consistency

/-- What an encoding is read against: values for the constants `names`, which settle the
variables `inputs`. Variables from `floor` on are defined by clauses. -/
structure Reading where
  env : Environment
  names : String → Prop
  inputs : Nat → Prop
  floor : Nat

/-- `b` is the value of the formula if it has one. The sides of an equation need not have values
of one sort for it to be compared. -/
structure Judges (env : Environment) (t : Term) (b : Bool) : Prop where
  value : ∀ v, t.eval env = some v → v = .bool b
  equation : ∀ x y, t = .eq x y → ∀ u w, x.eval env = some u → y.eval env = some w →
    b = decide (u = w)

def Picks (τ : Nat → Bool) (cases : Cases) (n : Int) : Prop :=
  (∃ g, (g, n) ∈ cases ∧ g.holds τ = true) ∧
    ∀ g m, (g, m) ∈ cases → g.holds τ = true → m = n

namespace Symbol

def lits : Symbol → List Lit
  | .bool l => [l]
  | .int cases => cases.map Prod.fst
  | .unbound => []

def Shows (τ : Nat → Bool) (v : Option Value) : Symbol → Prop
  | .bool l => v = some (.bool (l.holds τ))
  | .int cases => ∃ n, v = some (.int n) ∧ Picks τ cases n
  | .unbound => True

end Symbol

def Reading.Fits (c : Reading) (e : Encoder) (τ : Nat → Bool) : Prop :=
  ∀ x s, c.names x → e.symbols[x]? = some s → s.Shows τ (c.env x)

namespace Encoder

def Satisfies (e : Encoder) (τ : Nat → Bool) : Prop := ∀ d ∈ e.definitions, d.holds τ = true

def Live (c : Reading) (e : Encoder) (v : Nat) : Prop :=
  c.inputs v ∨ (c.floor ≤ v ∧ v < e.vars)

structure Names (c : Reading) (e : Encoder) (t : Term) (l : Lit) : Prop where
  live : e.Live c l.var
  judges : ∀ τ, e.Satisfies τ → c.Fits e τ → Judges c.env t (l.holds τ)

structure Sound (c : Reading) (e : Encoder) : Prop where
  zero : c.inputs 0
  floor_le : c.floor ≤ e.vars
  inputs_lt : ∀ v, c.inputs v → v < e.vars
  top : [.top] ∈ e.definitions
  closed : ∀ d ∈ e.definitions, ∀ l ∈ d, l.var < e.vars
  symbols : ∀ x s, c.names x → e.symbols[x]? = some s → ∀ l ∈ s.lits, e.Live c l.var
  known : ∀ t l, e.known[t]? = some l → e.Names c t l

structure Grows (c : Reading) (e f : Encoder) : Prop where
  sound : f.Sound c
  vars : e.vars ≤ f.vars
  symbols : f.symbols = e.symbols
  asserted : f.asserted = e.asserted
  definitions : e.definitions ⊆ f.definitions
  extend : ∀ τ, e.Satisfies τ → ∃ υ, (∀ v < e.vars, υ v = τ v) ∧ f.Satisfies υ
  unique : ∀ τ υ, f.Satisfies τ → f.Satisfies υ → (∀ v, e.Live c v → τ v = υ v) →
    ∀ v, f.Live c v → τ v = υ v

variable {c : Reading} {e f g : Encoder}

namespace Sound

theorem zero_true (h : e.Sound c) {τ : Nat → Bool} (hτ : e.Satisfies τ) : τ 0 = true := by
  simpa [Clause.holds, Lit.holds, Lit.top] using hτ _ h.top

theorem live_lt (h : e.Sound c) {v : Nat} (hv : e.Live c v) : v < e.vars := by
  rcases hv with hi | ⟨_, hv⟩
  · exact h.inputs_lt v hi
  · exact hv

theorem live_top (h : e.Sound c) : e.Live c Lit.top.var := .inl h.zero

theorem live_bottom (h : e.Sound c) : e.Live c Lit.bottom.var := .inl h.zero

end Sound

namespace Grows

theorem refl (h : e.Sound c) : Grows c e e where
  sound := h
  vars := le_refl _
  symbols := rfl
  asserted := rfl
  definitions := fun _ hd => hd
  extend := fun τ hτ => ⟨τ, fun _ _ => rfl, hτ⟩
  unique := fun _ _ _ _ h => h

theorem satisfies (h : Grows c e f) {τ : Nat → Bool} (hτ : f.Satisfies τ) : e.Satisfies τ :=
  fun d hd => hτ d (h.definitions hd)

theorem trans (h : Grows c e f) (k : Grows c f g) : Grows c e g where
  sound := k.sound
  vars := h.vars.trans k.vars
  symbols := k.symbols.trans h.symbols
  asserted := k.asserted.trans h.asserted
  definitions := fun _ hd => k.definitions (h.definitions hd)
  extend := by
    intro τ hτ
    obtain ⟨υ, hυ, hf⟩ := h.extend τ hτ
    obtain ⟨ω, hω, hg⟩ := k.extend υ hf
    exact ⟨ω, fun v hv => (hω v (hv.trans_le h.vars)).trans (hυ v hv), hg⟩
  unique := fun τ υ hτ hυ ha =>
    k.unique τ υ hτ hυ (h.unique τ υ (k.satisfies hτ) (k.satisfies hυ) ha)

theorem live (h : Grows c e f) {v : Nat} (hv : e.Live c v) : f.Live c v := by
  rcases hv with hi | ⟨hf, hv⟩
  · exact .inl hi
  · exact .inr ⟨hf, hv.trans_le h.vars⟩

theorem fits (h : Grows c e f) {τ : Nat → Bool} : c.Fits f τ ↔ c.Fits e τ := by
  unfold Reading.Fits
  rw [h.symbols]

theorem names (h : Grows c e f) {t : Term} {l : Lit} (hn : e.Names c t l) : f.Names c t l where
  live := h.live hn.live
  judges := fun τ hτ hf => hn.judges τ (h.satisfies hτ) (h.fits.1 hf)

end Grows

def withGate (e : Encoder) (ds : List Clause) : Encoder :=
  { e with vars := e.vars + 1, definitions := ds ++ e.definitions }

theorem holds_below {τ υ : Nat → Bool} {n : Nat} {d : Clause} (hd : ∀ l ∈ d, l.var < n)
    (h : ∀ v < n, τ v = υ v) : d.holds τ = d.holds υ :=
  Clause.holds_congr fun l hl => h l.var (hd l hl)

/-- Clauses that demand `f` of the new variable, where `f` looks at settled variables only,
are a definitional extension. -/
theorem grows_gate (h : e.Sound c) (ds : List Clause) (f : (Nat → Bool) → Bool)
    (hf : ∀ τ υ, (∀ v, e.Live c v → τ v = υ v) → f τ = f υ)
    (hv : ∀ d ∈ ds, ∀ l ∈ d, l.var = e.vars ∨ e.Live c l.var)
    (hd : ∀ τ, (∀ d ∈ ds, d.holds τ = true) ↔ τ e.vars = f τ) : Grows c e (e.withGate ds) := by
  have hlive : ∀ {v}, e.Live c v → (e.withGate ds).Live c v := fun hv =>
    hv.imp_right fun hv => ⟨hv.1, Nat.lt_succ_of_lt hv.2⟩
  have hsat : ∀ {τ}, (e.withGate ds).Satisfies τ ↔ τ e.vars = f τ ∧ e.Satisfies τ := by
    intro τ
    rw [← hd τ]
    simp only [Satisfies, withGate, List.mem_append]
    constructor
    · exact fun h => ⟨fun d hd => h d (.inl hd), fun d hd => h d (.inr hd)⟩
    · rintro ⟨hn, ho⟩ d (hd | hd)
      · exact hn d hd
      · exact ho d hd
  refine {
    sound := {
      zero := h.zero
      floor_le := h.floor_le.trans (Nat.le_succ _)
      inputs_lt := fun v hi => (h.inputs_lt v hi).trans (Nat.lt_succ_self _)
      top := List.mem_append_right _ h.top
      closed := ?_
      symbols := fun x s hx hs l hl => hlive (h.symbols x s hx hs l hl)
      known := ?_ }
    vars := Nat.le_succ _
    symbols := rfl
    asserted := rfl
    definitions := List.subset_append_right _ _
    extend := ?_
    unique := ?_ }
  · intro d hd' l hl
    rcases List.mem_append.1 hd' with hn | ho
    · rcases hv d hn l hl with he | hlv
      · exact he ▸ Nat.lt_succ_self _
      · exact (h.live_lt hlv).trans (Nat.lt_succ_self _)
    · exact (h.closed d ho l hl).trans (Nat.lt_succ_self _)
  · intro t l hl
    obtain ⟨hlv, hval⟩ := h.known t l hl
    exact ⟨hlive hlv, fun τ hτ hfit => hval τ (hsat.1 hτ).2 hfit⟩
  · intro τ hτ
    have ha : ∀ v < e.vars, Function.update τ e.vars (f τ) v = τ v := fun v hv =>
      Function.update_of_ne hv.ne _ _
    refine ⟨Function.update τ e.vars (f τ), ha, hsat.2 ⟨?_, fun d hd' => ?_⟩⟩
    · rw [Function.update_self]
      exact hf _ _ fun v hv => (ha v (h.live_lt hv)).symm
    · rw [holds_below (h.closed d hd') ha]
      exact hτ d hd'
  · intro τ υ hτ hυ ha v hv
    rcases hv with hi | ⟨hfl, hlt⟩
    · exact ha v (.inl hi)
    · rcases Nat.lt_succ_iff_lt_or_eq.1 hlt with hlt | rfl
      · exact ha v (.inr ⟨hfl, hlt⟩)
      · rw [(hsat.1 hτ).1, (hsat.1 hυ).1]
        exact hf _ _ ha

end Encoder
end Consistency
