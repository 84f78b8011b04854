import Consistency.Proofs.Cnf.Exactness
import Consistency.Proofs.Term.Decided
import Consistency.Proofs.Term.WellFormed

/-!
# Encoded terms have values

The encoder goes on only as long as every operation has a value in all cases
that its domains leave. So whatever it has encoded has a value under each
assignment within the domains.
-/

set_option autoImplicit false

namespace Consistency

namespace Encode
variable {e f : Encoder}

def Quiet {α : Type} (m : Encode α) : Prop := ∀ ⦃e a f⦄, Runs m e a f → f.known = e.known

section Quiet
variable {α β : Type} {m : Encode α} {k : α → Encode β}

theorem quiet_pure (a : α) : Quiet (pure a : Encode α) := by
  intro e b f h
  rw [(Runs.pure_iff.1 h).2]

theorem Quiet.bind (hm : Quiet m) (hk : ∀ a, Quiet (k a)) : Quiet (m >>= k) := by
  intro e b f h
  obtain ⟨a, g, ha, hb⟩ := Runs.bind_iff.1 h
  exact (hk a hb).trans (hm ha)

theorem quiet_mapM {xs : List α} {k : α → Encode β} (hk : ∀ a ∈ xs, Quiet (k a)) :
    Quiet (xs.mapM k) := by
  induction xs with
  | nil => exact quiet_pure []
  | cons x xs ih =>
    rw [List.mapM_cons]
    exact (hk x (by simp)).bind fun _ =>
      (ih fun a ha => hk a (List.mem_cons_of_mem _ ha)).bind fun _ => quiet_pure _

theorem quiet_foldlM {xs : List α} {k : β → α → Encode β} (hk : ∀ b, ∀ a ∈ xs, Quiet (k b a))
    (b : β) : Quiet (xs.foldlM k b) := by
  induction xs generalizing b with
  | nil => exact quiet_pure b
  | cons x xs ih =>
    rw [List.foldlM_cons]
    exact (hk b x (by simp)).bind fun d => ih (fun b a ha => hk b a (List.mem_cons_of_mem _ ha)) d

theorem quiet_fresh : Quiet fresh := by
  intro e l f h
  rw [(runs_fresh.1 h).2]

theorem quiet_emit (d : Clause) : Quiet (emit d) := by
  intro e u f h
  rw [runs_emit.1 h]

theorem quiet_giveUp (why : OutOfFragment) : Quiet (giveUp why : Encode α) := by
  intro e a f h
  exact absurd h runs_giveUp

/-- Nothing runs after the encoder has given up. -/
theorem quiet_giveUp_bind (why : OutOfFragment) (k : α → Encode β) :
    Quiet (giveUp why >>= k) := by
  intro e b f h
  obtain ⟨_, _, ha, -⟩ := Runs.bind_iff.1 h
  exact absurd ha runs_giveUp

theorem quiet_conj (ls : List Lit) : Quiet (conj ls) := by
  unfold conj
  split
  · exact quiet_pure _
  · exact quiet_pure _
  · exact quiet_pure _
  · refine quiet_fresh.bind fun v => Quiet.bind ?_ fun _ => (quiet_emit _).bind fun _ => quiet_pure _
    intro e u f h
    rw [runs_forM_emit _ h]

theorem quiet_disj (ls : List Lit) : Quiet (disj ls) := (quiet_conj _).bind fun _ => quiet_pure _

theorem quiet_equivalence (a b : Lit) : Quiet (equivalence a b) := by
  unfold equivalence
  split_ifs
  · exact quiet_pure _
  · exact quiet_pure _
  · exact quiet_pure _
  · exact quiet_pure _
  · exact quiet_pure _
  · exact quiet_pure _
  · exact quiet_fresh.bind fun v => (quiet_emit _).bind fun _ => (quiet_emit _).bind fun _ =>
      (quiet_emit _).bind fun _ => (quiet_emit _).bind fun _ => quiet_pure v

theorem quiet_choice (a b d : Lit) : Quiet (choice a b d) :=
  (quiet_conj _).bind fun _ => (quiet_conj _).bind fun _ => quiet_disj _

theorem quiet_relate (rel : Int → Int → Bool) (xs ys : Cases) : Quiet (relate rel xs ys) :=
  (quiet_mapM fun _ _ => quiet_conj _).bind fun _ => quiet_disj _

theorem quiet_merge (m : Guards) : Quiet (merge m) :=
  (quiet_mapM fun _ _ => (quiet_disj _).bind fun _ => quiet_pure _).bind fun _ => quiet_pure _

theorem quiet_guarded (a : Lit) (cases : Cases) (m : Guards) : Quiet (guarded a cases m) :=
  quiet_foldlM (fun _ _ _ => (quiet_conj _).bind fun _ => quiet_pure _) m

theorem quiet_combine (whole : Term) (op : Int → Int → Option Int) (xs ys : Cases) :
    Quiet (combine whole op xs ys) := by
  unfold combine
  split
  · exact quiet_giveUp_bind _ _
  · refine (quiet_foldlM (fun m p _ => ?_) _).bind fun _ => quiet_merge _
    dsimp only
    split
    · exact quiet_giveUp _
    · exact (quiet_conj _).bind fun _ => quiet_pure _

end Quiet
end Encode

variable {q : Int → Prop} {c : Reading} {e f g : Encoder} {τ : Nat → Bool} {t : Term}

def Encoder.Recalls (q : Int → Prop) (c : Reading) (e : Encoder) : Prop :=
  ∀ (t : Term) (l : Lit), e.known[t]? = some l → t.WellFormed q → t.Decided c.env

theorem Encoder.Recalls.quiet (h : e.Recalls q c) (hk : f.known = e.known) : f.Recalls q c := by
  intro t l hl
  rw [hk] at hl
  exact h t l hl

structure Encoder.Reads (c : Reading) (e : Encoder) (τ : Nat → Bool) : Prop where
  satisfies : e.Satisfies τ
  fits : c.Fits e τ

theorem Encoder.Grows.reads (h : Encoder.Grows c e f) (hf : f.Reads c τ) : e.Reads c τ :=
  ⟨h.satisfies hf.satisfies, h.fits.1 hf.fits⟩

namespace Encode
open Encoder

/-- The case taken is that of the value, once there is one. -/
theorem picks_of_computes {cases : Cases} (h : e.Counts c t cases) (hτ : e.Reads c τ) {n : Int}
    (ht : t.Computes c.env n) : Picks τ cases n := by
  obtain ⟨k, hk, hvalue⟩ := h.picks τ hτ.satisfies hτ.fits
  obtain rfl := Value.int.inj (hvalue _ ht)
  exact hk

theorem remember_decided {m : Encode Lit}
    (hm : ∀ {e f l}, e.Sound c → e.Recalls q c → Runs m e l f → f.Reads c τ →
      f.Recalls q c ∧ (t.WellFormed q → t.Decided c.env))
    (hs : e.Sound c) (hk : e.Recalls q c) {l : Lit} (h : Runs (remember t m) e l f)
    (hτ : f.Reads c τ) : f.Recalls q c ∧ (t.WellFormed q → t.Decided c.env) := by
  unfold remember at h
  simp only [Runs.bind_iff, Runs.get_iff] at h
  obtain ⟨_, _, ⟨rfl, rfl⟩, h⟩ := h
  split at h
  · next k hl =>
    obtain ⟨rfl, rfl⟩ := Runs.pure_iff.1 h
    exact ⟨hk, hk t _ hl⟩
  · simp only [Runs.bind_iff, Runs.pure_iff, Runs.modify_iff] at h
    obtain ⟨k, g, hrun, _, _, rfl, rfl, rfl⟩ := h
    obtain ⟨hrecall, hdecided⟩ := hm hs hk hrun ⟨hτ.satisfies, hτ.fits⟩
    refine ⟨fun u l hl => ?_, hdecided⟩
    rw [Std.HashMap.getElem?_insert] at hl
    split at hl
    · next heq =>
      obtain rfl := eq_of_beq heq
      exact hdecided
    · exact hrecall u l hl

structure Operand.Valued (q : Int → Prop) (c : Reading) (τ : Nat → Bool) (x : Operand) :
    Prop where
  faithful : x.Faithful c
  formula : ∀ {e f l}, e.Sound c → e.Recalls q c → Runs x.formula e l f → f.Reads c τ →
    f.Recalls q c ∧ (x.term.WellFormed q → x.term.Decided c.env)
  integer : ∀ {e f zs}, e.Sound c → e.Recalls q c → Runs x.integer e zs f → f.Reads c τ →
    f.Recalls q c ∧ (x.term.WellFormed q → x.term.Computed c.env)

theorem equate_decided {x y : Operand} (hx : x.Valued q c τ) (hy : y.Valued q c τ)
    (hs : e.Sound c) (hk : e.Recalls q c) {l : Lit} (h : Runs (equate x y) e l f)
    (hτ : f.Reads c τ) :
    f.Recalls q c ∧ ((Term.eq x.term y.term).WellFormed q → (Term.eq x.term y.term).Decided c.env) := by
  unfold equate at h
  simp only [Runs.bind_iff, Runs.get_iff] at h
  obtain ⟨_, _, ⟨rfl, rfl⟩, h⟩ := h
  split at h
  · obtain ⟨a, e₁, ha, h⟩ := Runs.bind_iff.1 h
    obtain ⟨b, e₂, hb, hl⟩ := Runs.bind_iff.1 h
    obtain ⟨g₁, n₁⟩ := hx.faithful.formula hs ha
    obtain ⟨g₂, n₂⟩ := hy.faithful.formula g₁.sound hb
    obtain ⟨g₃, -⟩ := equivalence_grows g₂.sound (g₂.live n₁.live) n₂.live hl
    obtain ⟨k₁, d₁⟩ := hx.formula hs hk ha ((g₂.trans g₃).reads hτ)
    obtain ⟨k₂, d₂⟩ := hy.formula g₁.sound k₁ hb (g₃.reads hτ)
    exact ⟨k₂.quiet (quiet_equivalence _ _ hl), fun hw => (d₁ hw.1).eq (d₂ hw.2)⟩
  · obtain ⟨a, e₁, ha, h⟩ := Runs.bind_iff.1 h
    obtain ⟨b, e₂, hb, hl⟩ := Runs.bind_iff.1 h
    obtain ⟨g₁, n₁⟩ := hx.faithful.integer hs ha
    obtain ⟨g₂, n₂⟩ := hy.faithful.integer g₁.sound hb
    obtain ⟨g₃, -⟩ := relate_grows g₂.sound (g₂.counts n₁).live n₂.live hl
    obtain ⟨k₁, d₁⟩ := hx.integer hs hk ha ((g₂.trans g₃).reads hτ)
    obtain ⟨k₂, d₂⟩ := hy.integer g₁.sound k₁ hb (g₃.reads hτ)
    exact ⟨k₂.quiet (quiet_relate _ _ _ hl), fun hw => (d₁ hw.1).eq (d₂ hw.2)⟩

/-- By induction on the operands that are compared with the first. -/
theorem unequalTo_decided {x : Operand} {ys : List Operand} (hx : x.Valued q c τ)
    (hy : ∀ y ∈ ys, y.Valued q c τ) (hs : e.Sound c) (hk : e.Recalls q c) {ls : List Lit}
    (h : Runs (unequalTo x ys) e ls f) (hτ : f.Reads c τ) :
    f.Recalls q c ∧ (x.term.WellFormed q → ∀ y ∈ ys, y.term.WellFormed q →
      (Term.eq x.term y.term).Decided c.env) := by
  induction ys generalizing e ls with
  | nil =>
    obtain ⟨-, rfl⟩ := Runs.mapM_nil.1 h
    exact ⟨hk, by simp⟩
  | cons y ys ih =>
    obtain ⟨l, ls', e₁, -, hl, hls⟩ := Runs.mapM_cons.1 h
    simp only [Runs.bind_iff, Runs.pure_iff] at hl
    obtain ⟨k, _, hremember, -, rfl⟩ := hl
    have hyv := hy y (by simp)
    have hrest : ∀ z ∈ ys, z.Valued q c τ := fun z hz => hy z (List.mem_cons_of_mem _ hz)
    obtain ⟨g₁, -⟩ := remember_names (fun hs h => equate_names hs hx.faithful hyv.faithful h) hs
      hremember
    obtain ⟨g₂, -⟩ := unequalTo_names g₁.sound hx.faithful (fun z hz => (hrest z hz).faithful) hls
    obtain ⟨k₁, d₁⟩ := remember_decided (fun hs hk h hτ => equate_decided hx hyv hs hk h hτ) hs hk
      hremember (g₂.reads hτ)
    obtain ⟨k₂, d₂⟩ := ih hrest g₁.sound k₁ hls
    refine ⟨k₂, fun hxw => List.forall_mem_cons.2 ⟨fun hyw => d₁ ⟨hxw, hyw⟩, d₂ hxw⟩⟩

/-- Each of two or more operands is compared with another one. -/
theorem pairwiseUnequal_decided {xs : List Operand} (hx : ∀ x ∈ xs, x.Valued q c τ)
    (hs : e.Sound c) (hk : e.Recalls q c) {ls : List Lit}
    (h : Runs (pairwiseUnequal xs) e ls f) (hτ : f.Reads c τ) :
    f.Recalls q c ∧ (2 ≤ xs.length → (∀ x ∈ xs, x.term.WellFormed q) →
      ∀ x ∈ xs, ∃ v, x.term.eval c.env = some v) := by
  induction xs generalizing e ls with
  | nil =>
    obtain ⟨-, rfl⟩ := Runs.pure_iff.1 h
    exact ⟨hk, by simp⟩
  | cons x xs ih =>
    rw [pairwiseUnequal] at h
    simp only [Runs.bind_iff, Runs.pure_iff] at h
    obtain ⟨here, e₁, hhere, later, e₂, hlater, rfl, rfl⟩ := h
    obtain ⟨hxv, hrest⟩ := List.forall_mem_cons.1 hx
    obtain ⟨g₁, -⟩ := unequalTo_names hs hxv.faithful (fun y hy => (hrest y hy).faithful) hhere
    obtain ⟨g₂, -⟩ := pairwiseUnequal_grows g₁.sound (fun y hy => (hrest y hy).faithful) hlater
    obtain ⟨k₁, d₁⟩ := unequalTo_decided hxv hrest hs hk hhere (g₂.reads hτ)
    obtain ⟨k₂, -⟩ := ih hrest g₁.sound k₁ hlater
    refine ⟨k₂, fun hlength hw => ?_⟩
    obtain ⟨hxw, hws⟩ := List.forall_mem_cons.1 hw
    have hsides : ∀ y ∈ xs, (Term.eq x.term y.term).Decided c.env := fun y hy =>
      d₁ hxw y hy (hws y hy)
    have hne : xs ≠ [] := by
      rintro rfl
      exact absurd hlength (by simp)
    obtain ⟨y, hy⟩ := List.exists_mem_of_ne_nil xs hne
    exact List.forall_mem_cons.2 ⟨(hsides y hy).sides.1, fun z hz => (hsides z hz).sides.2⟩

theorem mem_of_mem_operands {as : List Term} {x : Operand} (hx : x ∈ operands as) :
    x.term ∈ as := by
  have hterm := List.mem_map_of_mem (f := Operand.term) hx
  rwa [operands_terms] at hterm

theorem distinct_decided {as : List Term} (hx : ∀ x ∈ operands as, x.Valued q c τ)
    (hs : e.Sound c) (hk : e.Recalls q c) {ls : List Lit} {l : Lit}
    (hls : Runs (pairwiseUnequal (operands as)) e ls f) (hl : Runs (conj ls) f l g)
    (hτ : g.Reads c τ) :
    g.Recalls q c ∧ ((Term.distinct as).WellFormed q → (Term.distinct as).Decided c.env) := by
  obtain ⟨g₁, hlive, -⟩ := pairwiseUnequal_grows hs (fun x hm => (hx x hm).faithful) hls
  obtain ⟨g₂, -⟩ := conj_grows g₁.sound hlive hl
  obtain ⟨k₁, d₁⟩ := pairwiseUnequal_decided hx hs hk hls (g₂.reads hτ)
  refine ⟨k₁.quiet (quiet_conj _ hl), fun hw => Term.decided_distinct fun u hu => ?_⟩
  have hlength : (operands as).length = as.length := by
    conv_rhs => rw [← operands_terms as, List.length_map]
  rw [← operands_terms as] at hu
  obtain ⟨x, hx, rfl⟩ := List.mem_map.1 hu
  -- A well-formed distinction is not of one operand, so there is another one to compare with.
  have htwo : 2 ≤ (operands as).length := by
    have hpos := List.length_pos_of_mem hx
    have hone := hw.1
    omega
  exact d₁ htwo (fun y hy => Term.wellFormedAll_iff.1 hw.2 _ (mem_of_mem_operands hy)) x hx

theorem constFormula_decided {x : String} (hk : e.Recalls q c) (hx : c.names x) {l : Lit}
    (h : Runs (constFormula x) e l f) (hτ : f.Reads c τ) :
    f.Recalls q c ∧ ((Term.const x).WellFormed q → (Term.const x).Decided c.env) := by
  obtain ⟨hsymbol, rfl⟩ := runs_constFormula.1 h
  exact ⟨hk, fun _ => ⟨_, hτ.fits x _ hx hsymbol⟩⟩

theorem constCases_computed {x : String} (hk : e.Recalls q c) (hx : c.names x) {zs : Cases}
    (h : Runs (constCases x) e zs f) (hτ : f.Reads c τ) :
    f.Recalls q c ∧ ((Term.const x).WellFormed q → (Term.const x).Computed c.env) := by
  obtain ⟨hsymbol, rfl⟩ := runs_constCases.1 h
  obtain ⟨n, hn, -⟩ := hτ.fits x _ hx hsymbol
  exact ⟨hk, fun _ => ⟨n, hn⟩⟩

theorem negate_computed {a whole : Term} {xs zs : Cases} (hx : e.Counts c a xs)
    (hτ : e.Reads c τ) (hz : Runs (negate whole xs) e zs f) (ha : a.Computed c.env) :
    (Term.neg a).Computed c.env := by
  obtain ⟨-, hcases⟩ := runs_negate hz
  obtain ⟨n, hn⟩ := ha
  obtain ⟨m, hm, -⟩ := picks_negate hcases (picks_of_computes hx hτ hn)
  exact ⟨m, Term.eval_neg.2 ⟨n, m, hn, hm, rfl⟩⟩

/-- The cases of both operands are taken together, so the operation has a value there. -/
theorem combine_computed {o : ArithOp} {a b whole : Term} {xs ys zs : Cases} (hs : e.Sound c)
    (hx : e.Counts c a xs) (hy : e.Counts c b ys)
    (hz : Runs (combine whole o.eval xs ys) e zs f) (hτ : f.Reads c τ)
    (ha : a.Computed c.env) (hb : b.Computed c.env) : (Term.arith o a b).Computed c.env := by
  obtain ⟨hg, -, hpick⟩ := combine_grows hs hx.live hy.live hz
  obtain ⟨m, hm⟩ := ha
  obtain ⟨n, hn⟩ := hb
  obtain ⟨k, hvalue, -⟩ := hpick τ hτ.satisfies m n (picks_of_computes (hg.counts hx) hτ hm)
    (picks_of_computes (hg.counts hy) hτ hn)
  exact ⟨k, Term.eval_arith.2 ⟨m, n, k, hm, hn, hvalue, rfl⟩⟩

mutual
theorem formula_decided (t : Term) (ht : ∀ x ∈ t.consts, c.names x) {e f : Encoder} {l : Lit}
    (hs : e.Sound c) (hk : e.Recalls q c) (h : Runs (formula t) e l f) (hτ : f.Reads c τ) :
    f.Recalls q c ∧ (t.WellFormed q → t.Decided c.env) := by
  cases t with
  | bool b =>
    rw [formula] at h
    refine remember_decided (fun _ hk hr _ => ?_) hs hk h hτ
    obtain ⟨-, rfl⟩ := Runs.pure_iff.1 hr
    exact ⟨hk, fun _ => ⟨b, rfl⟩⟩
  | int n =>
    rw [formula] at h
    exact remember_decided (fun _ _ hr _ => absurd hr runs_fail) hs hk h hτ
  | const x =>
    rw [formula] at h
    exact remember_decided (fun _ hk hr hτ => constFormula_decided hk (ht x (by simp [Term.consts]))
      hr hτ) hs hk h hτ
  | not a =>
    rw [formula] at h
    refine remember_decided (fun hs hk hr hτ => ?_) hs hk h hτ
    simp only [Runs.bind_iff, Runs.pure_iff] at hr
    obtain ⟨k, _, hr, -, rfl⟩ := hr
    exact (formula_decided a ht hs hk hr hτ).imp_right fun d hw => (d hw).not
  | and as =>
    rw [formula] at h
    refine remember_decided (fun hs hk hr hτ => ?_) hs hk h hτ
    obtain ⟨ls, e₁, hls, hl⟩ := Runs.bind_iff.1 hr
    obtain ⟨g₁, n₁⟩ := formulas_names as ht hs hls
    obtain ⟨g₂, -⟩ := conj_names g₁.sound n₁ hl
    obtain ⟨k₁, d₁⟩ := formulas_decided as ht hs hk hls (g₂.reads hτ)
    exact ⟨k₁.quiet (quiet_conj _ hl), fun hw => Term.decided_and (d₁ hw)⟩
  | or as =>
    rw [formula] at h
    refine remember_decided (fun hs hk hr hτ => ?_) hs hk h hτ
    obtain ⟨ls, e₁, hls, hl⟩ := Runs.bind_iff.1 hr
    obtain ⟨g₁, n₁⟩ := formulas_names as ht hs hls
    obtain ⟨g₂, -⟩ := disj_names g₁.sound n₁ hl
    obtain ⟨k₁, d₁⟩ := formulas_decided as ht hs hk hls (g₂.reads hτ)
    exact ⟨k₁.quiet (quiet_disj _ hl), fun hw => Term.decided_or (d₁ hw)⟩
  | implies a b =>
    rw [formula] at h
    refine remember_decided (fun hs hk hr hτ => ?_) hs hk h hτ
    simp only [Runs.bind_iff] at hr
    obtain ⟨x, e₁, hx, y, e₂, hy, hl⟩ := hr
    obtain ⟨ha, hb⟩ := List.forall_mem_append.1 ht
    obtain ⟨g₁, n₁⟩ := formula_names a ha hs hx
    obtain ⟨g₂, n₂⟩ := formula_names b hb g₁.sound hy
    obtain ⟨g₃, -⟩ := implies_names g₂.sound (g₂.names n₁) n₂ hl
    obtain ⟨k₁, d₁⟩ := formula_decided a ha hs hk hx ((g₂.trans g₃).reads hτ)
    obtain ⟨k₂, d₂⟩ := formula_decided b hb g₁.sound k₁ hy (g₃.reads hτ)
    exact ⟨k₂.quiet (quiet_disj _ hl), fun hw => (d₁ hw.1).implies (d₂ hw.2)⟩
  | iff a b =>
    rw [formula] at h
    refine remember_decided (fun hs hk hr hτ => ?_) hs hk h hτ
    simp only [Runs.bind_iff] at hr
    obtain ⟨x, e₁, hx, y, e₂, hy, hl⟩ := hr
    obtain ⟨ha, hb⟩ := List.forall_mem_append.1 ht
    obtain ⟨g₁, n₁⟩ := formula_names a ha hs hx
    obtain ⟨g₂, n₂⟩ := formula_names b hb g₁.sound hy
    obtain ⟨g₃, -⟩ := iff_names g₂.sound (g₂.names n₁) n₂ hl
    obtain ⟨k₁, d₁⟩ := formula_decided a ha hs hk hx ((g₂.trans g₃).reads hτ)
    obtain ⟨k₂, d₂⟩ := formula_decided b hb g₁.sound k₁ hy (g₃.reads hτ)
    exact ⟨k₂.quiet (quiet_equivalence _ _ hl), fun hw => (d₁ hw.1).iff (d₂ hw.2)⟩
  | eq a b =>
    rw [formula] at h
    obtain ⟨ha, hb⟩ := List.forall_mem_append.1 ht
    have hx : (⟨a, formula a, integer a⟩ : Operand).Valued q c τ :=
      ⟨⟨fun hs h => formula_names a ha hs h, fun hs h => integer_counts a ha hs h⟩,
        fun hs hk h hτ => formula_decided a ha hs hk h hτ,
        fun hs hk h hτ => integer_computed a ha hs hk h hτ⟩
    have hy : (⟨b, formula b, integer b⟩ : Operand).Valued q c τ :=
      ⟨⟨fun hs h => formula_names b hb hs h, fun hs h => integer_counts b hb hs h⟩,
        fun hs hk h hτ => formula_decided b hb hs hk h hτ,
        fun hs hk h hτ => integer_computed b hb hs hk h hτ⟩
    exact remember_decided (fun hs hk hr hτ => equate_decided hx hy hs hk hr hτ) hs hk h hτ
  | distinct as =>
    rw [formula] at h
    refine remember_decided (fun hs hk hr hτ => ?_) hs hk h hτ
    obtain ⟨ls, e₁, hls, hl⟩ := Runs.bind_iff.1 hr
    exact distinct_decided (operands_valued as ht) hs hk hls hl hτ
  | ite a b d =>
    rw [formula] at h
    refine remember_decided (fun hs hk hr hτ => ?_) hs hk h hτ
    simp only [Runs.bind_iff] at hr
    obtain ⟨x, e₁, hx, y, e₂, hy, z, e₃, hz, hl⟩ := hr
    obtain ⟨ha, hbd⟩ := List.forall_mem_append.1 ht
    obtain ⟨hb, hd⟩ := List.forall_mem_append.1 hbd
    obtain ⟨g₁, n₁⟩ := formula_names a ha hs hx
    obtain ⟨g₂, n₂⟩ := formula_names b hb g₁.sound hy
    obtain ⟨g₃, n₃⟩ := formula_names d hd g₂.sound hz
    obtain ⟨g₄, -⟩ := ite_names g₃.sound (g₃.names (g₂.names n₁)) (g₃.names n₂) n₃ hl
    obtain ⟨k₁, d₁⟩ := formula_decided a ha hs hk hx ((g₂.trans (g₃.trans g₄)).reads hτ)
    obtain ⟨k₂, d₂⟩ := formula_decided b hb g₁.sound k₁ hy ((g₃.trans g₄).reads hτ)
    obtain ⟨k₃, d₃⟩ := formula_decided d hd g₂.sound k₂ hz (g₄.reads hτ)
    exact ⟨k₃.quiet (quiet_choice _ _ _ hl), fun hw => (d₁ hw.1).ite (d₂ hw.2.1) (d₃ hw.2.2)⟩
  | arith o a b =>
    rw [formula] at h
    exact remember_decided (fun _ _ hr _ => absurd hr runs_fail) hs hk h hτ
  | neg a =>
    rw [formula] at h
    exact remember_decided (fun _ _ hr _ => absurd hr runs_fail) hs hk h hτ
  | compare o a b =>
    rw [formula] at h
    refine remember_decided (fun hs hk hr hτ => ?_) hs hk h hτ
    simp only [Runs.bind_iff] at hr
    obtain ⟨xs, e₁, hx, ys, e₂, hy, hl⟩ := hr
    obtain ⟨ha, hb⟩ := List.forall_mem_append.1 ht
    obtain ⟨g₁, c₁⟩ := integer_counts a ha hs hx
    obtain ⟨g₂, c₂⟩ := integer_counts b hb g₁.sound hy
    obtain ⟨g₃, -⟩ := compare_names g₂.sound (g₂.counts c₁) c₂ hl
    obtain ⟨k₁, d₁⟩ := integer_computed a ha hs hk hx ((g₂.trans g₃).reads hτ)
    obtain ⟨k₂, d₂⟩ := integer_computed b hb g₁.sound k₁ hy (g₃.reads hτ)
    exact ⟨k₂.quiet (quiet_relate _ _ _ hl), fun hw => (d₁ hw.1).compare o (d₂ hw.2)⟩
  | app g as =>
    rw [formula] at h
    exact remember_decided (fun _ _ hr _ => absurd hr runs_giveUp) hs hk h hτ

theorem integer_computed (t : Term) (ht : ∀ x ∈ t.consts, c.names x) {e f : Encoder} {zs : Cases}
    (hs : e.Sound c) (hk : e.Recalls q c) (h : Runs (integer t) e zs f) (hτ : f.Reads c τ) :
    f.Recalls q c ∧ (t.WellFormed q → t.Computed c.env) := by
  cases t with
  | int n =>
    rw [integer] at h
    obtain ⟨-, rfl⟩ := Runs.pure_iff.1 h
    exact ⟨hk, fun _ => ⟨n, rfl⟩⟩
  | const x =>
    rw [integer] at h
    exact constCases_computed hk (ht x (by simp [Term.consts])) h hτ
  | neg a =>
    rw [integer] at h
    obtain ⟨xs, e₁, hx, hz⟩ := Runs.bind_iff.1 h
    obtain ⟨g₁, c₁⟩ := integer_counts a ht hs hx
    obtain ⟨rfl, -⟩ := runs_negate hz
    obtain ⟨k₁, d₁⟩ := integer_computed a ht hs hk hx hτ
    exact ⟨k₁, fun hw => negate_computed c₁ hτ hz (d₁ hw)⟩
  | arith o a b =>
    rw [integer] at h
    simp only [Runs.bind_iff] at h
    obtain ⟨xs, e₁, hx, ys, e₂, hy, hz⟩ := h
    obtain ⟨ha, hb⟩ := List.forall_mem_append.1 ht
    obtain ⟨g₁, c₁⟩ := integer_counts a ha hs hx
    obtain ⟨g₂, c₂⟩ := integer_counts b hb g₁.sound hy
    obtain ⟨g₃, -⟩ := combine_grows g₂.sound (g₂.counts c₁).live c₂.live hz
    obtain ⟨k₁, d₁⟩ := integer_computed a ha hs hk hx ((g₂.trans g₃).reads hτ)
    obtain ⟨k₂, d₂⟩ := integer_computed b hb g₁.sound k₁ hy (g₃.reads hτ)
    exact ⟨k₂.quiet (quiet_combine _ _ _ _ hz), fun hw =>
      combine_computed g₂.sound (g₂.counts c₁) c₂ hz hτ (d₁ hw.1) (d₂ hw.2)⟩
  | ite a b d =>
    rw [integer] at h
    simp only [Runs.bind_iff] at h
    obtain ⟨p, e₁, hp, xs, e₂, hx, m, e₃, hm, ys, e₄, hy, n, e₅, hn, hz⟩ := h
    obtain ⟨ha, hbd⟩ := List.forall_mem_append.1 ht
    obtain ⟨hb, hd⟩ := List.forall_mem_append.1 hbd
    obtain ⟨g₁, n₁⟩ := formula_names a ha hs hp
    obtain ⟨g₂, c₂⟩ := integer_counts b hb g₁.sound hx
    obtain ⟨g₃, c₃⟩ := guarded_grows g₂.sound (g₂.names n₁).live c₂.live collects_nil hm
    obtain ⟨g₄, c₄⟩ := integer_counts d hd g₃.sound hy
    have hlive : e₄.Live c p.flip.var := g₄.live (g₃.live (g₂.names n₁).live)
    obtain ⟨g₅, c₅⟩ := guarded_grows g₄.sound hlive c₄.live (c₃.grows g₄) hn
    obtain ⟨g₆, -⟩ := merge_conditional g₅.sound c₅ hz
    have hlast : e₄.Reads c τ := (g₅.trans g₆).reads hτ
    have hmid : e₂.Reads c τ := (g₃.trans g₄).reads hlast
    obtain ⟨k₁, d₁⟩ := formula_decided a ha hs hk hp (g₂.reads hmid)
    obtain ⟨k₂, d₂⟩ := integer_computed b hb g₁.sound k₁ hx hmid
    obtain ⟨k₃, d₃⟩ := integer_computed d hd g₃.sound (k₂.quiet (quiet_guarded _ _ _ hm)) hy hlast
    exact ⟨(k₃.quiet (quiet_guarded _ _ _ hn)).quiet (quiet_merge _ hz), fun hw =>
      (d₁ hw.1).computed_ite (d₂ hw.2.1) (d₃ hw.2.2)⟩
  | app g as =>
    rw [integer] at h
    exact absurd h runs_giveUp
  | bool _ | not _ | and _ | or _ | implies _ _ | iff _ _ | eq _ _ | distinct _ | compare _ _ _ =>
    simp [integer, fail] at h

theorem formulas_decided (ts : List Term) (ht : ∀ x ∈ Term.constsOf ts, c.names x)
    {e f : Encoder} {ls : List Lit} (hs : e.Sound c) (hk : e.Recalls q c)
    (h : Runs (formulas ts) e ls f) (hτ : f.Reads c τ) :
    f.Recalls q c ∧ (Term.WellFormedAll q ts → ∀ t ∈ ts, t.Decided c.env) := by
  cases ts with
  | nil =>
    rw [formulas] at h
    obtain ⟨-, rfl⟩ := Runs.pure_iff.1 h
    exact ⟨hk, by simp⟩
  | cons t ts =>
    rw [formulas] at h
    simp only [Runs.bind_iff, Runs.pure_iff] at h
    obtain ⟨l, e₁, hl, ls, e₂, hls, rfl, rfl⟩ := h
    obtain ⟨ha, hb⟩ := List.forall_mem_append.1 ht
    obtain ⟨g₁, -⟩ := formula_names t ha hs hl
    obtain ⟨g₂, -⟩ := formulas_names ts hb g₁.sound hls
    obtain ⟨k₁, d₁⟩ := formula_decided t ha hs hk hl (g₂.reads hτ)
    obtain ⟨k₂, d₂⟩ := formulas_decided ts hb g₁.sound k₁ hls hτ
    exact ⟨k₂, fun hw => List.forall_mem_cons.2 ⟨d₁ hw.1, d₂ hw.2⟩⟩

theorem operands_valued (ts : List Term) (ht : ∀ x ∈ Term.constsOf ts, c.names x) :
    ∀ x ∈ operands ts, x.Valued q c τ := by
  cases ts with
  | nil => simp [operands]
  | cons t ts =>
    obtain ⟨ha, hb⟩ := List.forall_mem_append.1 ht
    rw [operands]
    exact List.forall_mem_cons.2
      ⟨⟨⟨fun hs h => formula_names t ha hs h, fun hs h => integer_counts t ha hs h⟩,
        fun hs hk h hτ => formula_decided t ha hs hk h hτ,
        fun hs hk h hτ => integer_computed t ha hs hk h hτ⟩, operands_valued ts hb⟩
end

theorem quiet_demand (d : Clause) : Quiet (demand d) := by
  intro e u f h
  obtain ⟨ds, rfl, -⟩ := runs_demand h
  rfl

theorem reads_demand {d : Clause} {u : Unit} (h : Runs (demand d) e u f) (hτ : f.Reads c τ) :
    e.Reads c τ := by
  obtain ⟨ds, rfl, -⟩ := runs_demand h
  exact ⟨hτ.satisfies, hτ.fits⟩

theorem reads_demands {ts : List Term} (h : Demands c e f ts) (hτ : f.Reads c τ) : e.Reads c τ :=
  h.grows.reads ⟨hτ.satisfies, hτ.fits⟩

structure Settled (env : Environment) (t : Term) : Prop where
  decided : t.Decided env
  conclusion : ∀ a b, t = .implies a b → b.Decided env

theorem formula_settled (hne : ∀ a b, t ≠ .implies a b) (ht : ∀ x ∈ t.consts, c.names x)
    (hs : e.Sound c) (hk : e.Recalls q c) {u : Unit}
    (h : Runs (do demand [← formula t]) e u f) (hτ : f.Reads c τ) :
    f.Recalls q c ∧ (t.WellFormed q → Settled c.env t) := by
  obtain ⟨l, e₁, hl, hd⟩ := Runs.bind_iff.1 h
  obtain ⟨k₁, d₁⟩ := formula_decided t ht hs hk hl (reads_demand hd hτ)
  exact ⟨k₁.quiet (quiet_demand _ hd), fun hw => ⟨d₁ hw, fun a b hab => absurd hab (hne a b)⟩⟩

mutual
theorem assert_settled (t : Term) (ht : ∀ x ∈ t.consts, c.names x) {e f : Encoder}
    (hs : e.Sound c) (hk : e.Recalls q c) {u : Unit} (h : Runs (assert t) e u f)
    (hτ : f.Reads c τ) : f.Recalls q c ∧ (t.WellFormed q → Settled c.env t) := by
  cases t with
  | and as =>
    rw [assert] at h
    obtain ⟨k₁, d₁⟩ := assertAll_settled as ht hs hk h hτ
    exact ⟨k₁, fun hw => ⟨Term.decided_and fun t ht => (d₁ t ht (Term.wellFormedAll_iff.1 hw t ht)).1,
      by simp⟩⟩
  | or as =>
    rw [assert] at h
    obtain ⟨ls, e₁, hls, hd⟩ := Runs.bind_iff.1 h
    obtain ⟨k₁, d₁⟩ := formulas_decided as ht hs hk hls (reads_demand hd hτ)
    exact ⟨k₁.quiet (quiet_demand _ hd), fun hw => ⟨Term.decided_or (d₁ hw), by simp⟩⟩
  | implies a b =>
    rw [assert] at h
    simp only [Runs.bind_iff] at h
    obtain ⟨x, e₁, hx, y, e₂, hy, hd⟩ := h
    obtain ⟨ha, hb⟩ := List.forall_mem_append.1 ht
    obtain ⟨g₁, -⟩ := formula_names a ha hs hx
    obtain ⟨g₂, -⟩ := formula_names b hb g₁.sound hy
    have hlast := reads_demand hd hτ
    obtain ⟨k₁, d₁⟩ := formula_decided a ha hs hk hx (g₂.reads hlast)
    obtain ⟨k₂, d₂⟩ := formula_decided b hb g₁.sound k₁ hy hlast
    refine ⟨k₂.quiet (quiet_demand _ hd), fun hw => ⟨(d₁ hw.1).implies (d₂ hw.2), ?_⟩⟩
    intro a' b' hab
    obtain ⟨-, rfl⟩ := Term.implies.inj hab
    exact d₂ hw.2
  | _ =>
    rw [assert] at h
    · exact formula_settled (by simp) ht hs hk h hτ
    all_goals simp

theorem assertAll_settled (ts : List Term) (ht : ∀ x ∈ Term.constsOf ts, c.names x)
    {e f : Encoder} (hs : e.Sound c) (hk : e.Recalls q c) {u : Unit}
    (h : Runs (assertAll ts) e u f) (hτ : f.Reads c τ) :
    f.Recalls q c ∧ ∀ t ∈ ts, t.WellFormed q → Settled c.env t := by
  cases ts with
  | nil =>
    rw [assertAll] at h
    obtain ⟨-, rfl⟩ := Runs.pure_iff.1 h
    exact ⟨hk, by simp⟩
  | cons t ts =>
    rw [assertAll] at h
    obtain ⟨_, e₁, ht₁, hts⟩ := Runs.bind_iff.1 h
    obtain ⟨ha, hb⟩ := List.forall_mem_append.1 ht
    have h₁ := assert_demands t ha hs ht₁
    have h₂ := assertAll_demands ts hb h₁.sound hts
    obtain ⟨k₁, d₁⟩ := assert_settled t ha hs hk ht₁ (reads_demands h₂ hτ)
    obtain ⟨k₂, d₂⟩ := assertAll_settled ts hb h₁.sound k₁ hts hτ
    exact ⟨k₂, List.forall_mem_cons.2 ⟨d₁, d₂⟩⟩
end

end Encode

namespace Encoder

/-- A script that is encoded has assertions with values, whatever the assignment within the
domains. -/
theorem settled_of_script {s : Script} {a : Environment} (h : Encoder.ofScript s = .ok f)
    (hs : s.Sorts a) (hw : f.Within s a) :
    ∀ t ∈ s.assertions, t.WellFormed q → Encode.Settled a t := by
  obtain ⟨e₀, e, hd, hbind, hassert⟩ := runs_of_script h
  have hp := Encode.bindDomains_prepared hd hbind
  have hdemands := Encode.assertAll_demands s.assertions (c := e.reading s a)
    (fun x hx => constsOf_mentions hx) (hp.sound a) hassert
  have hwithin : e.Within s a := by
    intro x cases n hx hsymbol
    rw [← hdemands.symbols] at hsymbol
    exact hw x cases n hx hsymbol
  obtain ⟨τ, hτ, hc⟩ := hp.extension hdemands hs hwithin
  have hreads : f.Reads (e.reading s a) τ :=
    ⟨hτ, hp.fits_after hdemands hs hwithin hτ hc⟩
  have hempty : e.Recalls q (e.reading s a) := by
    intro t l hl
    simp [hp.known] at hl
  exact (Encode.assertAll_settled s.assertions (fun x hx => constsOf_mentions hx) (hp.sound a)
    hempty hassert hreads).2

end Encoder
end Consistency
