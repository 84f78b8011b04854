import Consistency.Proofs.Cnf.Assertion
import Consistency.Proofs.Cnf.Script
import Consistency.Solver.FiniteDomain

/-!
# Exactness of the clauses

An assignment of values within the domains fixes the auxiliary variables, and
with these the clauses hold exactly if the assertions are true.
-/

set_option autoImplicit false

namespace Consistency
variable {s : Script} {e f : Encoder} {a : Environment} {τ υ : Nat → Bool}

def Script.Sorts (s : Script) (a : Environment) : Prop :=
  ∀ x sort, s.Mentions x → s.sort? x = some sort → ∃ v, a x = some v ∧ v.sort = sort

theorem Script.sorts_of_lookup
    (h : ∀ x ∈ s.assertions.flatMap Term.consts, (a x).map Value.sort = s.sort? x) : s.Sorts a :=
  fun x _ hx hsort => Option.map_eq_some_iff.1 ((h x hx).trans hsort)

namespace Encoder

def Within (s : Script) (e : Encoder) (a : Environment) : Prop :=
  ∀ (x : String) (cases : Cases) (n : Int), s.Mentions x → e.symbols[x]? = some (.int cases) →
    a x = some (.int n) → n ∈ cases.map Prod.snd

def Carries (s : Script) (e : Encoder) (a : Environment) (τ : Nat → Bool) : Prop :=
  ∀ (x : String) (sym : Symbol), s.Mentions x → e.symbols[x]? = some sym → sym.Follows τ (a x)

def Auxiliary (s : Script) (e : Encoder) (v : Nat) : Prop :=
  v = 0 ∨ (1 + s.declared.countP (fun d => d.2 = .bool) ≤ v ∧ v < e.vars)

def reading (s : Script) (e : Encoder) (a : Environment) : Reading where
  env := a
  names := s.Mentions
  inputs := fun v => v = 0 ∨ ∃ (x : String) (sym : Symbol), s.Mentions x ∧
    e.symbols[x]? = some sym ∧ ∃ l ∈ sym.lits, l.var = v
  floor := e.vars

namespace Prepared

theorem sound (h : e.Prepared s) (a : Environment) : e.Sound (e.reading s a) where
  zero := .inl rfl
  floor_le := le_refl _
  inputs_lt := by
    rintro v (rfl | ⟨x, sym, -, hsym, l, hl, rfl⟩)
    · exact h.bound.pos
    · exact h.bound.lits x sym hsym l hl
  top := h.bound.top
  closed := h.bound.closed
  symbols := fun x sym hx hsym l hl => .inl (.inr ⟨x, sym, hx, hsym, l, hl, rfl⟩)
  known := by simp [h.known]

theorem admits (h : e.Prepared s) (hs : s.Sorts a) (hw : e.Within s a) {x : String} {sym : Symbol}
    (hx : s.Mentions x) (hsym : e.symbols[x]? = some sym) : sym.Admits (a x) := by
  obtain ⟨sym', sort, hsym', hsort, hof⟩ := h.sorts x hx
  obtain rfl := Option.some.inj (hsym.symm.trans hsym')
  obtain ⟨v, hv, rfl⟩ := hs x _ hx hsort
  cases sym with
  | bool l =>
    cases v with
    | bool b => exact ⟨b, hv⟩
    | int n => exact hof.elim
  | int cases =>
    cases v with
    | bool b => exact hof.elim
    | int n => exact ⟨n, hw x cases n hx hsym hv, hv⟩
  | unbound => cases v <;> exact hof.elim

theorem fits (h : e.Prepared s) (hs : s.Sorts a) (hw : e.Within s a) (hτ : e.Satisfies τ)
    (hc : e.Carries s a τ) : (e.reading s a).Fits e τ :=
  fun x sym hx hsym => h.bound.shows hτ hsym (h.admits hs hw hx hsym) (hc x sym hx hsym)

theorem realize (h : e.Prepared s) (hs : s.Sorts a) (hw : e.Within s a) :
    ∃ τ, e.Satisfies τ ∧ e.Carries s a τ := by
  obtain ⟨τ, hτ, hf⟩ := h.bound.realize a fun x cases hx =>
    h.admits hs hw (h.domain x cases hx).1 hx
  exact ⟨τ, hτ, fun x sym _ hsym => hf x sym hsym⟩

/-- The assignment settles the literals of its constants. -/
theorem lits_agree (h : e.Prepared s) (hs : s.Sorts a) (hw : e.Within s a)
    (hτ : e.Satisfies τ) (hcτ : e.Carries s a τ) (hυ : e.Satisfies υ) (hcυ : e.Carries s a υ)
    {x : String} {sym : Symbol} (hx : s.Mentions x) (hsym : e.symbols[x]? = some sym) {l : Lit}
    (hl : l ∈ sym.lits) : l.holds τ = l.holds υ := by
  have hadm := h.admits hs hw hx hsym
  have hshow := h.fits hs hw hτ hcτ x sym hx hsym
  have hshow' := h.fits hs hw hυ hcυ x sym hx hsym
  cases sym with
  | bool k =>
    obtain rfl := List.mem_singleton.1 hl
    exact Value.bool.inj (Option.some.inj (hshow.symm.trans hshow'))
  | int cases =>
    obtain ⟨⟨g, m⟩, hg, rfl⟩ := List.mem_map.1 hl
    -- An indicator is true exactly if it is that of the value.
    have key : ∀ {ω : Nat → Bool}, (Symbol.int cases).Shows ω (a x) →
        (Symbol.int cases).Follows ω (a x) → (g.holds ω = true ↔ a x = some (.int m)) := by
      rintro ω ⟨n, hn, hp⟩ hfol
      refine ⟨fun hgt => ?_, fun hm => hfol g m hg hm⟩
      obtain rfl := hp.2 g m hg hgt
      exact hn
    rw [Bool.eq_iff_iff, key hshow (hcτ x _ hx hsym), key hshow' (hcυ x _ hx hsym)]
  | unbound => exact absurd hl (by simp [Symbol.lits])

end Prepared

/-- What the clauses say of an assignment. -/
structure Exact (s : Script) (e : Encoder) (a : Environment) : Prop where
  extension : ∃ τ, e.Satisfies τ ∧ e.Carries s a τ
  unique : ∀ τ υ, e.Satisfies τ → e.Carries s a τ → e.Satisfies υ → e.Carries s a υ →
    ∀ v, e.Auxiliary s v → τ v = υ v
  known : ∀ τ, e.Satisfies τ → e.Carries s a τ → ∀ (t : Term) (l : Lit), e.known[t]? = some l →
    ∀ v, t.eval a = some v → v = .bool (l.holds τ)
  literal : ∀ t l g, (∀ x ∈ t.consts, s.Mentions x) → Runs (Encode.formula t) e l g →
    ∀ τ, g.Satisfies τ → e.Carries s a τ → ∀ v, t.eval a = some v → v = .bool (l.holds τ)
  clauses : ∀ τ, e.Satisfies τ → e.Carries s a τ →
    (∀ t ∈ s.assertions, ∃ v, t.eval a = some v) →
      (e.problem.holds τ = true ↔ ∀ t ∈ s.assertions, t.Decides a true)

theorem constsOf_mentions {x : String} (h : x ∈ Term.constsOf s.assertions) : s.Mentions x := by
  have key : ∀ ts : List Term, Term.constsOf ts = ts.flatMap Term.consts := by
    intro ts
    induction ts with
    | nil => rfl
    | cons t ts ih => rw [Term.constsOf, ih, List.flatMap_cons]
  rwa [Script.Mentions, ← key]

/-- An encoding that ends well reads the declarations, then the domains, then the assertions. -/
theorem runs_of_script (h : Encoder.ofScript s = .ok f) : ∃ e₀ e : Encoder,
    e₀.Declared s.declared ∧ Runs (Encode.bindDomains s.assertions) e₀ () e ∧
      Runs (Encode.assertAll s.assertions) e () f := by
  have hr : Runs (Encode.script s) .initial () f := by
    unfold Encoder.ofScript at h
    unfold Runs
    cases hm : (Encode.script s).run .initial with
    | error stop => simp [hm, bind, Except.bind] at h
    | ok p =>
      rw [hm] at h
      obtain rfl := Except.ok.inj h
      rfl
  simp only [Encode.script, Runs.bind_iff] at hr
  obtain ⟨_, e₀, hdecl, _, e, hbind, hassert⟩ := hr
  refine ⟨e₀, e, ?_, hbind, hassert⟩
  simpa [Script.declared] using Encode.declarations_declared initial_declared hdecl

/-- It demands the assertions after the constants have been prepared. -/
theorem demands_of_script (h : Encoder.ofScript s = .ok f) :
    ∃ e : Encoder, e.Prepared s ∧ ∀ a, Demands (e.reading s a) e f s.assertions := by
  obtain ⟨e₀, e, hd, hbind, hassert⟩ := runs_of_script h
  have hp := Encode.bindDomains_prepared hd hbind
  exact ⟨e, hp, fun a => Encode.assertAll_demands s.assertions
    (fun x hx => constsOf_mentions hx) (hp.sound a) hassert⟩

namespace Prepared
variable (h : e.Prepared s) (hd : Demands (e.reading s a) e f s.assertions) (hs : s.Sorts a)
  (hw : e.Within s a)
include h hd hs hw

omit h hs hw in
theorem carries_iff : f.Carries s a τ ↔ e.Carries s a τ := by
  unfold Carries
  rw [hd.symbols]

theorem fits_after (hτ : f.Satisfies τ) (hc : f.Carries s a τ) : (e.reading s a).Fits f τ :=
  hd.grows.fits.2 (h.fits hs hw (hd.grows.satisfies hτ) ((carries_iff hd).1 hc))

theorem extension : ∃ τ, f.Satisfies τ ∧ f.Carries s a τ := by
  obtain ⟨τ, hτ, hc⟩ := h.realize hs hw
  obtain ⟨υ, hυ, hf⟩ := hd.grows.extend τ hτ
  refine ⟨υ, hf, (carries_iff hd).2 fun x sym hx hsx => ?_⟩
  have hfol := hc x sym hx hsx
  have hsame : ∀ l ∈ sym.lits, l.holds υ = l.holds τ := fun l hl =>
    Lit.holds_congr (hυ _ (h.bound.lits x sym hsx l hl))
  cases sym with
  | bool l => exact fun b hb => (hsame l (by simp [Symbol.lits])).trans (hfol b hb)
  | int cases =>
    exact fun g n hg hn => (hsame g (List.mem_map_of_mem hg)).trans (hfol g n hg hn)
  | unbound => trivial

theorem unique (hτ : f.Satisfies τ) (hcτ : f.Carries s a τ) (hυ : f.Satisfies υ)
    (hcυ : f.Carries s a υ) {v : Nat} (hv : f.Auxiliary s v) : τ v = υ v := by
  have h0 : τ 0 = υ 0 := by rw [hd.sound.zero_true hτ, hd.sound.zero_true hυ]
  have hin : ∀ v, (e.reading s a).inputs v → τ v = υ v := by
    rintro v (rfl | ⟨x, sym, hx, hsx, l, hl, rfl⟩)
    · exact h0
    · exact Lit.holds_inj (h.lits_agree hs hw (hd.grows.satisfies hτ) ((carries_iff hd).1 hcτ)
        (hd.grows.satisfies hυ) ((carries_iff hd).1 hcυ) hx hsx hl)
  rcases hv with rfl | ⟨hge, hlt⟩
  · exact h0
  · by_cases hv : v < e.vars
    · obtain ⟨x, cases, hx, z, hz, rfl⟩ := h.cover v hge hv
      exact hin _ (.inr ⟨x, _, (h.domain x cases hx).1, hx, z.1, List.mem_map_of_mem hz, rfl⟩)
    · refine hd.grows.unique τ υ hτ hυ (fun v hv => ?_) v (.inr ⟨not_lt.1 hv, hlt⟩)
      rcases hv with hi | ⟨hge, hlt⟩
      · exact hin v hi
      · exact absurd (hge.trans_lt hlt) (lt_irrefl _)

theorem clauses_iff (hτ : f.Satisfies τ) (hc : f.Carries s a τ)
    (hv : ∀ t ∈ s.assertions, ∃ v, t.eval a = some v) :
    f.problem.holds τ = true ↔ ∀ t ∈ s.assertions, t.Decides a true := by
  obtain ⟨ds, hds, hall⟩ := hd.clauses
  obtain ⟨htrue, hclauses⟩ := hall τ hτ (h.fits_after hd hs hw hτ hc)
  rw [Encoder.problem, Problem.holds, List.all_eq_true, List.forall_mem_append, hds, h.asserted,
    List.append_nil]
  refine ⟨fun hholds t ht => ?_, fun hts => ⟨hclauses hts, hτ⟩⟩
  obtain ⟨v, hv⟩ := hv t ht
  rw [Term.Decides, hv, htrue hholds.1 t ht v hv]

theorem exact : f.Exact s a where
  extension := h.extension hd hs hw
  unique := fun _ _ hτ hcτ hυ hcυ _ hv => h.unique hd hs hw hτ hcτ hυ hcυ hv
  known := fun τ hτ hc t l hl =>
    ((hd.sound.known t l hl).judges τ hτ (h.fits_after hd hs hw hτ hc)).value
  literal := by
    intro t l g ht hr τ hτ hc
    obtain ⟨hg, hn⟩ := Encode.formula_names (c := e.reading s a) t ht hd.sound hr
    exact (hn.judges τ hτ (hg.fits.2 (h.fits_after hd hs hw (hg.satisfies hτ) hc))).value
  clauses := fun _ hτ hc hv => h.clauses_iff hd hs hw hτ hc hv

end Prepared
end Encoder
end Consistency
