import Consistency.Proofs.Cnf.Formula

/-!
# Clauses that assertions demand

Besides definitions an assertion leaves clauses that hold exactly if it is
true. A conjunction leaves those of its parts; a disjunction and an implication
become one clause, which is left out if it holds always.
-/

set_option autoImplicit false

namespace Consistency
variable {c : Reading} {e f g : Encoder}

namespace Encoder

/-- What is demanded is no part of what is defined. -/
theorem Grows.reassert (h : Grows c e f) (ds : List Clause) :
    Grows c { e with asserted := ds } { f with asserted := ds } where
  sound := {
    zero := h.sound.zero
    floor_le := h.sound.floor_le
    inputs_lt := h.sound.inputs_lt
    top := h.sound.top
    closed := h.sound.closed
    symbols := h.sound.symbols
    known := fun t l hl => ⟨(h.sound.known t l hl).live, (h.sound.known t l hl).judges⟩ }
  vars := h.vars
  symbols := h.symbols
  asserted := rfl
  definitions := h.definitions
  extend := h.extend
  unique := h.unique

theorem Sound.reassert (h : e.Sound c) (ds : List Clause) : ({ e with asserted := ds }).Sound c :=
  ((Grows.refl h).reassert ds).sound

/-- The encoder went on from `e` to `f` and demands the truth of `ts`: none of them is false if
the clauses hold, which do so if all are true. -/
structure Demands (c : Reading) (e f : Encoder) (ts : List Term) : Prop where
  grows : Grows c e { f with asserted := e.asserted }
  clauses : ∃ ds, f.asserted = ds ++ e.asserted ∧ ∀ τ, f.Satisfies τ → c.Fits f τ →
    ((∀ d ∈ ds, Clause.holds τ d = true) →
      ∀ t ∈ ts, ∀ v, t.eval c.env = some v → v = .bool true) ∧
    ((∀ t ∈ ts, t.Decides c.env true) → ∀ d ∈ ds, Clause.holds τ d = true)

namespace Demands
variable {ts us : List Term}

theorem sound (h : Demands c e f ts) : f.Sound c := h.grows.sound.reassert f.asserted

theorem symbols (h : Demands c e f ts) : f.symbols = e.symbols := h.grows.symbols

theorem nil (h : e.Sound c) : Demands c e e [] where
  grows := .refl h
  clauses := ⟨[], rfl, by simp⟩

theorem append (h : Demands c e f ts) (k : Demands c f g us) : Demands c e g (ts ++ us) where
  grows := h.grows.trans (k.grows.reassert e.asserted)
  clauses := by
    obtain ⟨ds, hds, hts⟩ := h.clauses
    obtain ⟨bs, hbs, hus⟩ := k.clauses
    refine ⟨bs ++ ds, by rw [hbs, hds, List.append_assoc], fun τ hτ hf => ?_⟩
    obtain ⟨htrue, hall⟩ := hts τ (k.grows.satisfies hτ) (k.grows.fits.1 hf)
    obtain ⟨htrue', hall'⟩ := hus τ hτ hf
    simp only [List.forall_mem_append]
    exact ⟨fun h => ⟨htrue h.2, htrue' h.1⟩, fun h => ⟨hall' h.2, hall h.1⟩⟩

/-- The parts of a conjunction say what it says. -/
theorem conjunction (h : Demands c e f ts) : Demands c e f [.and ts] where
  grows := h.grows
  clauses := by
    obtain ⟨ds, hds, hts⟩ := h.clauses
    refine ⟨ds, hds, fun τ hτ hf => ?_⟩
    obtain ⟨htrue, hall⟩ := hts τ hτ hf
    simp only [List.forall_mem_singleton]
    constructor
    · intro hholds v hv
      obtain ⟨bs, hbs, rfl⟩ := Term.eval_and.1 hv
      refine congrArg Value.bool (List.all_eq_true.2 fun b hb => ?_)
      obtain ⟨t, ht, htb⟩ := forall₂_mem_right hbs hb
      exact Value.bool.inj (htrue hholds t ht _ htb)
    · intro hand
      obtain ⟨bs, hbs, hv⟩ := Term.eval_and.1 hand
      refine hall fun t ht => ?_
      obtain ⟨b, hb, htb⟩ := forall₂_mem_left hbs ht
      exact List.all_eq_true.1 (Value.bool.inj hv).symm b hb ▸ htb

end Demands
end Encoder

namespace Encode
open Encoder

theorem runs_demand {d : Clause} {u : Unit} (h : Runs (demand d) e u f) : ∃ ds,
    f = { e with asserted := ds ++ e.asserted } ∧
      ∀ τ, τ 0 = true → ((∀ k ∈ ds, Clause.holds τ k = true) ↔ d.holds τ = true) := by
  unfold demand at h
  split at h
  · next hk =>
    obtain ⟨_, rfl⟩ := Runs.pure_iff.1 h
    refine ⟨[], rfl, fun τ h0 => ?_⟩
    simp [Clause.holds_of_simplify_none h0 hk]
  · next k hk =>
    obtain rfl := Runs.modify_iff.1 h
    refine ⟨[k], rfl, fun τ h0 => ?_⟩
    simp [Clause.holds_of_simplify_some h0 hk]

/-- A clause that holds exactly if the term is true demands it. -/
theorem demands_clause (hg : Grows c e f) {t : Term} {d : Clause} {u : Unit}
    (hd : ∀ τ, f.Satisfies τ → c.Fits f τ → ∀ v, t.eval c.env = some v →
      (d.holds τ = true ↔ t.Decides c.env true))
    (h : Runs (demand d) f u g) : Demands c e g [t] := by
  obtain ⟨ds, rfl, hds⟩ := runs_demand h
  refine ⟨hg.reassert e.asserted, ds, by rw [hg.asserted], fun τ hτ hf => ?_⟩
  simp only [List.forall_mem_singleton]
  rw [hds τ (hg.sound.zero_true hτ)]
  refine ⟨fun h v hv => ?_, fun h => (hd τ hτ hf _ h).2 h⟩
  exact Option.some.inj (hv.symm.trans ((hd τ hτ hf v hv).1 h))

theorem demands_formula (t : Term) (ht : ∀ x ∈ t.consts, c.names x) (hs : e.Sound c) {u : Unit}
    (h : Runs (do demand [← formula t]) e u f) : Demands c e f [t] := by
  obtain ⟨l, e₁, hl, hd⟩ := Runs.bind_iff.1 h
  obtain ⟨hg, hn⟩ := formula_names t ht hs hl
  refine demands_clause hg (fun τ hτ hf v hv => ?_) hd
  obtain rfl := (hn.judges τ hτ hf).value v hv
  simp [Clause.holds, Term.Decides, hv]

theorem demands_or {as : List Term} (ht : ∀ x ∈ Term.constsOf as, c.names x) (hs : e.Sound c)
    {u : Unit} (h : Runs (do demand (← formulas as)) e u f) : Demands c e f [.or as] := by
  obtain ⟨ls, e₁, hls, hd⟩ := Runs.bind_iff.1 h
  obtain ⟨hg, hn⟩ := formulas_names as ht hs hls
  refine demands_clause hg (fun τ hτ hf v hv => ?_) hd
  obtain ⟨bs, hbs, rfl⟩ := Term.eval_or.1 hv
  have hmap := decides_of_names hn hτ hf hbs
  rw [Term.Decides, hv, ← hmap]
  simp [Clause.holds, List.any_map]

theorem demands_implies {a b : Term} (ht : ∀ x ∈ a.consts ++ b.consts, c.names x)
    (hs : e.Sound c) {u : Unit}
    (h : Runs (do let p ← formula a; let q ← formula b; demand [p.flip, q]) e u f) :
    Demands c e f [.implies a b] := by
  simp only [Runs.bind_iff] at h
  obtain ⟨p, e₁, hp, q, e₂, hq, hd⟩ := h
  obtain ⟨ha, hb⟩ := List.forall_mem_append.1 ht
  obtain ⟨g₁, n₁⟩ := formula_names a ha hs hp
  obtain ⟨g₂, n₂⟩ := formula_names b hb g₁.sound hq
  refine demands_clause (g₁.trans g₂) (fun τ hτ hf v hv => ?_) hd
  rcases Term.eval_implies.1 hv with ⟨hp, rfl⟩ | ⟨hp, r, hr, rfl⟩
  · have hpτ := (g₂.names n₁).decides hτ hf hp
    simp [Clause.holds, Lit.holds_flip, Term.Decides, hv, hpτ]
  · have hpτ := (g₂.names n₁).decides hτ hf hp
    have hqτ := n₂.decides hτ hf hr
    simp [Clause.holds, Lit.holds_flip, Term.Decides, hv, hpτ, hqτ]

mutual
theorem assert_demands (t : Term) (ht : ∀ x ∈ t.consts, c.names x) {e f : Encoder}
    (hs : e.Sound c) {u : Unit} (h : Runs (assert t) e u f) : Demands c e f [t] := by
  cases t with
  | and as =>
    rw [assert] at h
    exact (assertAll_demands as ht hs h).conjunction
  | or as =>
    rw [assert] at h
    exact demands_or ht hs h
  | implies a b =>
    rw [assert] at h
    exact demands_implies ht hs h
  | _ =>
    rw [assert] at h
    · exact demands_formula _ ht hs h
    all_goals simp

theorem assertAll_demands (ts : List Term) (ht : ∀ x ∈ Term.constsOf ts, c.names x)
    {e f : Encoder} (hs : e.Sound c) {u : Unit} (h : Runs (assertAll ts) e u f) :
    Demands c e f ts := by
  cases ts with
  | nil =>
    rw [assertAll] at h
    obtain ⟨_, rfl⟩ := Runs.pure_iff.1 h
    exact .nil hs
  | cons t ts =>
    rw [assertAll] at h
    obtain ⟨_, e₁, ht₁, hts⟩ := Runs.bind_iff.1 h
    obtain ⟨ha, hb⟩ := List.forall_mem_append.1 ht
    have h₁ := assert_demands t ha hs ht₁
    exact h₁.append (assertAll_demands ts hb h₁.sound hts)
end

end Encode
end Consistency
