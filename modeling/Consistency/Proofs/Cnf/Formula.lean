import Consistency.Proofs.Cnf.Cases
import Consistency.Proofs.Term.Eval

/-!
# Literals and cases of terms

The encoder names each formula by a literal that has the formula's value, and
splits each integer term into cases of which those of its value are taken. One
lemma for each operator says so when its operands have been encoded; the
induction over terms puts them together.
-/

set_option autoImplicit false

namespace Consistency
variable {c : Reading} {e f : Encoder}

theorem Judges.of_value {env : Environment} {t : Term} {b : Bool} (hne : ∀ x y, t ≠ .eq x y)
    (h : ∀ v, t.eval env = some v → v = .bool b) : Judges env t b :=
  ⟨h, fun x y ht => absurd ht (hne x y)⟩

theorem Judges.of_equal {env : Environment} {x y : Term} {b : Bool}
    (h : ∀ u w, x.eval env = some u → y.eval env = some w → u.equal w = some b) :
    Judges env (.eq x y) b := by
  refine ⟨fun v hv => ?_, fun a d hab u w hu hw => ?_⟩
  · obtain ⟨u, w, d, hu, hw, hd, rfl⟩ := Term.eval_eq.1 hv
    rw [h u w hu hw] at hd
    rw [Option.some.inj hd]
  · obtain ⟨rfl, rfl⟩ := Term.eq.inj hab
    exact Value.eq_of_equal (h u w hu hw)

namespace Encoder

def Counts (c : Reading) (e : Encoder) (t : Term) (cases : Cases) : Prop :=
  e.Splits c cases fun n => ∀ v, t.eval c.env = some v → v = .int n

theorem Names.decides {t : Term} {l : Lit} (h : e.Names c t l) {τ : Nat → Bool}
    (hτ : e.Satisfies τ) (hf : c.Fits e τ) {b : Bool} (ht : t.Decides c.env b) :
    l.holds τ = b := by
  have := (h.judges τ hτ hf).value _ ht
  exact (Value.bool.inj this).symm

theorem decides_of_names {ts : List Term} {ls : List Lit} (h : List.Forall₂ (e.Names c) ts ls)
    {τ : Nat → Bool} (hτ : e.Satisfies τ) (hf : c.Fits e τ) {bs : List Bool}
    (ht : List.Forall₂ (Term.Decides c.env) ts bs) : ls.map (Lit.holds τ) = bs := by
  induction h generalizing bs with
  | nil =>
    cases ht
    rfl
  | cons hn _ ih =>
    rcases ht with _ | ⟨hb, ht⟩
    rw [List.map_cons, ih ht, hn.decides hτ hf hb]

theorem Grows.counts (h : Grows c e f) {t : Term} {cases : Cases} (hc : e.Counts c t cases) :
    f.Counts c t cases := h.splits hc

theorem Grows.namesAll (h : Grows c e f) {ts : List Term} {ls : List Lit}
    (hn : List.Forall₂ (e.Names c) ts ls) : List.Forall₂ (f.Names c) ts ls :=
  hn.imp fun _ _ => h.names

/-- Memory of literals is no part of what they mean. -/
theorem Sound.remember (h : e.Sound c) {t : Term} {l : Lit} (hn : e.Names c t l) :
    Grows c e { e with known := e.known.insert t l } where
  sound := {
    zero := h.zero
    floor_le := h.floor_le
    inputs_lt := h.inputs_lt
    top := h.top
    closed := h.closed
    symbols := h.symbols
    known := by
      intro t' l' hl
      rw [Std.HashMap.getElem?_insert] at hl
      split at hl
      · next heq =>
        obtain rfl := eq_of_beq heq
        obtain rfl := Option.some.inj hl
        exact ⟨hn.live, hn.judges⟩
      · exact ⟨(h.known t' l' hl).live, (h.known t' l' hl).judges⟩ }
  vars := le_refl _
  symbols := rfl
  asserted := rfl
  definitions := fun _ hd => hd
  extend := fun τ hτ => ⟨τ, fun _ _ => rfl, hτ⟩
  unique := fun _ _ _ _ ha => ha

end Encoder

namespace Encode
open Encoder

structure Operand.Faithful (c : Reading) (x : Operand) : Prop where
  formula : ∀ {e f l}, e.Sound c → Runs x.formula e l f → Grows c e f ∧ f.Names c x.term l
  integer : ∀ {e f zs}, e.Sound c → Runs x.integer e zs f → Grows c e f ∧ f.Counts c x.term zs

theorem remember_names {t : Term} {m : Encode Lit}
    (hm : ∀ {e f l}, e.Sound c → Runs m e l f → Grows c e f ∧ f.Names c t l) (hs : e.Sound c)
    {l : Lit} (h : Runs (remember t m) e l f) : Grows c e f ∧ f.Names c t l := by
  unfold remember at h
  simp only [Runs.bind_iff, Runs.get_iff] at h
  obtain ⟨_, _, ⟨rfl, rfl⟩, h⟩ := h
  split at h
  · next k hk =>
    obtain ⟨rfl, rfl⟩ := Runs.pure_iff.1 h
    exact ⟨.refl hs, hs.known t _ hk⟩
  · simp only [Runs.bind_iff, Runs.pure_iff, Runs.modify_iff] at h
    obtain ⟨k, g, hk, _, _, rfl, rfl, rfl⟩ := h
    obtain ⟨hg, hn⟩ := hm hs hk
    have hr := hg.sound.remember hn
    exact ⟨hg.trans hr, hr.names hn⟩

theorem names_flip {t : Term} {l : Lit} (h : e.Names c t l) : e.Names c (.not t) l.flip where
  live := h.live
  judges := fun τ hτ hf => .of_value (by simp) fun v hv => by
    obtain ⟨b, hb, rfl⟩ := Term.eval_not.1 hv
    rw [Lit.holds_flip, h.decides hτ hf hb]

theorem all_names {ts : List Term} {ls : List Lit} (h : List.Forall₂ (e.Names c) ts ls) :
    ∀ l ∈ ls, e.Live c l.var := live_of_forall₂ h fun _ _ hn => hn.live

theorem conj_names (hs : e.Sound c) {ts : List Term} {ls : List Lit} {l : Lit}
    (hl : List.Forall₂ (e.Names c) ts ls) (h : Runs (conj ls) e l f) :
    Grows c e f ∧ f.Names c (.and ts) l := by
  obtain ⟨hg, hst⟩ := conj_grows hs (all_names hl) h
  refine ⟨hg, hst.live, fun τ hτ hf => .of_value (by simp) fun v hv => ?_⟩
  obtain ⟨bs, hbs, rfl⟩ := Term.eval_and.1 hv
  rw [hst.holds τ hτ, ← decides_of_names (hg.namesAll hl) hτ hf hbs, List.all_map]
  rfl

theorem disj_names (hs : e.Sound c) {ts : List Term} {ls : List Lit} {l : Lit}
    (hl : List.Forall₂ (e.Names c) ts ls) (h : Runs (disj ls) e l f) :
    Grows c e f ∧ f.Names c (.or ts) l := by
  obtain ⟨hg, hst⟩ := disj_grows hs (all_names hl) h
  refine ⟨hg, hst.live, fun τ hτ hf => .of_value (by simp) fun v hv => ?_⟩
  obtain ⟨bs, hbs, rfl⟩ := Term.eval_or.1 hv
  rw [hst.holds τ hτ, ← decides_of_names (hg.namesAll hl) hτ hf hbs, List.any_map]
  rfl

theorem implies_names (hs : e.Sound c) {a b : Term} {p q l : Lit} (ha : e.Names c a p)
    (hb : e.Names c b q) (h : Runs (disj [p.flip, q]) e l f) :
    Grows c e f ∧ f.Names c (.implies a b) l := by
  obtain ⟨hg, hst⟩ := disj_grows hs (by simp [ha.live, hb.live]) h
  refine ⟨hg, hst.live, fun τ hτ hf => .of_value (by simp) fun v hv => ?_⟩
  rw [hst.holds τ hτ]
  rcases Term.eval_implies.1 hv with ⟨hda, rfl⟩ | ⟨hda, d, hdb, rfl⟩
  · simp [(hg.names ha).decides hτ hf hda]
  · simp [(hg.names ha).decides hτ hf hda, (hg.names hb).decides hτ hf hdb]

theorem iff_names (hs : e.Sound c) {a b : Term} {p q l : Lit} (ha : e.Names c a p)
    (hb : e.Names c b q) (h : Runs (equivalence p q) e l f) :
    Grows c e f ∧ f.Names c (.iff a b) l := by
  obtain ⟨hg, hst⟩ := equivalence_grows hs ha.live hb.live h
  refine ⟨hg, hst.live, fun τ hτ hf => .of_value (by simp) fun v hv => ?_⟩
  obtain ⟨x, y, hx, hy, rfl⟩ := Term.eval_iff.1 hv
  rw [hst.holds τ hτ, (hg.names ha).decides hτ hf hx, (hg.names hb).decides hτ hf hy]

theorem ite_names (hs : e.Sound c) {a b d : Term} {p q r l : Lit} (ha : e.Names c a p)
    (hb : e.Names c b q) (hd : e.Names c d r) (h : Runs (choice p q r) e l f) :
    Grows c e f ∧ f.Names c (.ite a b d) l := by
  obtain ⟨hg, hst⟩ := choice_grows hs ha.live hb.live hd.live h
  refine ⟨hg, hst.live, fun τ hτ hf => .of_value (by simp) fun v hv => ?_⟩
  rw [hst.holds τ hτ]
  rcases Term.eval_ite.1 hv with ⟨hc, hv⟩ | ⟨hc, hv⟩
  · rw [(hg.names ha).decides hτ hf hc, if_pos rfl]
    exact ((hg.names hb).judges τ hτ hf).value v hv
  · rw [(hg.names ha).decides hτ hf hc]
    exact ((hg.names hd).judges τ hτ hf).value v hv

theorem compare_names (hs : e.Sound c) {o : CompareOp} {a b : Term} {xs ys : Cases} {l : Lit}
    (ha : e.Counts c a xs) (hb : e.Counts c b ys) (h : Runs (relate o.holds xs ys) e l f) :
    Grows c e f ∧ f.Names c (.compare o a b) l := by
  obtain ⟨hg, hlive, hrel⟩ := relate_grows hs ha.live hb.live h
  refine ⟨hg, hlive, fun τ hτ hf => .of_value (by simp) fun v hv => ?_⟩
  obtain ⟨m, hm, hma⟩ := (hg.counts ha).picks τ hτ hf
  obtain ⟨n, hn, hnb⟩ := (hg.counts hb).picks τ hτ hf
  obtain ⟨i, j, hi, hj, rfl⟩ := Term.eval_compare.1 hv
  rw [hrel τ hτ m n hm hn, ← Value.int.inj (hma _ hi), ← Value.int.inj (hnb _ hj)]

theorem equate_names (hs : e.Sound c) {x y : Operand} (hx : x.Faithful c) (hy : y.Faithful c)
    {l : Lit} (h : Runs (equate x y) e l f) : Grows c e f ∧ f.Names c (.eq x.term y.term) l := by
  unfold equate at h
  simp only [Runs.bind_iff, Runs.get_iff] at h
  obtain ⟨_, _, ⟨rfl, rfl⟩, h⟩ := h
  split at h
  · simp only [Runs.bind_iff] at h
    obtain ⟨p, e₁, hp, q, e₂, hq, hl⟩ := h
    obtain ⟨g₁, n₁⟩ := hx.formula hs hp
    obtain ⟨g₂, n₂⟩ := hy.formula g₁.sound hq
    obtain ⟨g₃, hst⟩ := equivalence_grows g₂.sound (g₂.live n₁.live) n₂.live hl
    refine ⟨(g₁.trans g₂).trans g₃, hst.live, fun τ hτ hf => ?_⟩
    refine .of_equal fun u w hu hw => ?_
    obtain rfl := ((g₃.names (g₂.names n₁)).judges τ hτ hf).value u hu
    obtain rfl := ((g₃.names n₂).judges τ hτ hf).value w hw
    rw [hst.holds τ hτ]
    rfl
  · simp only [Runs.bind_iff] at h
    obtain ⟨p, e₁, hp, q, e₂, hq, hl⟩ := h
    obtain ⟨g₁, n₁⟩ := hx.integer hs hp
    obtain ⟨g₂, n₂⟩ := hy.integer g₁.sound hq
    obtain ⟨g₃, hlive, hrel⟩ := relate_grows g₂.sound (g₂.counts n₁).live n₂.live hl
    refine ⟨(g₁.trans g₂).trans g₃, hlive, fun τ hτ hf => ?_⟩
    refine .of_equal fun u w hu hw => ?_
    obtain ⟨m, hm, hmu⟩ := (g₃.counts (g₂.counts n₁)).picks τ hτ hf
    obtain ⟨n, hn, hnw⟩ := (g₃.counts n₂).picks τ hτ hf
    rw [hrel τ hτ m n hm hn, hmu u hu, hnw w hw]
    rfl

/-- Literals for the inequality of one operand with each of the others. -/
theorem unequalTo_names (hs : e.Sound c) {x : Operand} {ys : List Operand} {ls : List Lit}
    (hx : x.Faithful c) (hy : ∀ y ∈ ys, y.Faithful c) (h : Runs (unequalTo x ys) e ls f) :
    Grows c e f ∧
      List.Forall₂ (fun y l => f.Names c (.eq x.term y.term) (Lit.flip l)) ys ls := by
  refine Runs.mapM (I := Grows c e) (R := Grows c)
    (Q := fun (y : Operand) (l : Lit) s => s.Names c (.eq x.term y.term) l.flip)
    (fun _ _ _ _ hg hn => hg.names hn) ?_
    (.refl hs) h
  intro y hym s t l hI hr
  simp only [Runs.bind_iff, Runs.pure_iff] at hr
  obtain ⟨k, _, hk, rfl, rfl⟩ := hr
  obtain ⟨hg, hn⟩ := remember_names (fun hs hr => equate_names hs hx (hy y hym) hr) hI.sound hk
  exact ⟨hI.trans hg, hg, by rwa [Lit.flip_flip]⟩

theorem all_unequalTo {x : Operand} {ys : List Operand} {ls : List Lit}
    (h : List.Forall₂ (fun y l => e.Names c (.eq x.term y.term) (Lit.flip l)) ys ls)
    {τ : Nat → Bool} (hτ : e.Satisfies τ) (hf : c.Fits e τ) {u : Value} {vs : List Value}
    (hu : x.term.eval c.env = some u)
    (hv : List.Forall₂ (fun y v => y.term.eval c.env = some v) ys vs) :
    ls.all (Lit.holds τ) = decide (u ∉ vs) := by
  induction h generalizing vs with
  | nil =>
    cases hv
    rfl
  | @cons y l _ _ hn _ ih =>
    rcases hv with _ | ⟨hw, hv⟩
    have hl := (hn.judges τ hτ hf).equation _ _ rfl u _ hu hw
    rw [Lit.holds_flip] at hl
    rw [List.all_cons, ih hv, Bool.eq_iff_iff, Bool.and_eq_true, decide_eq_true_iff,
      decide_eq_true_iff, List.mem_cons, not_or]
    refine and_congr_left fun _ => ?_
    cases hb : l.holds τ <;> simp_all

theorem pairwiseUnequal_grows (hs : e.Sound c) {xs : List Operand} {ls : List Lit}
    (hx : ∀ x ∈ xs, x.Faithful c) (h : Runs (pairwiseUnequal xs) e ls f) :
    Grows c e f ∧ (∀ l ∈ ls, f.Live c l.var) ∧ ∀ τ, f.Satisfies τ → c.Fits f τ → ∀ vs,
      List.Forall₂ (fun x v => x.term.eval c.env = some v) xs vs →
        ls.all (Lit.holds τ) = decide vs.Nodup := by
  induction xs generalizing e ls with
  | nil =>
    obtain ⟨rfl, rfl⟩ := Runs.pure_iff.1 h
    refine ⟨.refl hs, by simp, fun τ _ _ vs hv => ?_⟩
    cases hv
    rfl
  | cons x xs ih =>
    rw [pairwiseUnequal] at h
    simp only [Runs.bind_iff, Runs.pure_iff] at h
    obtain ⟨here, e₁, hh, later, e₂, hl, rfl, rfl⟩ := h
    obtain ⟨g₁, n₁⟩ := unequalTo_names hs (hx x (by simp))
      (fun y hy => hx y (List.mem_cons_of_mem _ hy)) hh
    obtain ⟨g₂, hlive, hall⟩ := ih g₁.sound (fun y hy => hx y (List.mem_cons_of_mem _ hy)) hl
    have n₂ : List.Forall₂ (fun y l => f.Names c (.eq x.term y.term) (Lit.flip l)) xs here :=
      n₁.imp fun _ _ => g₂.names
    refine ⟨g₁.trans g₂, ?_, fun τ hτ hf vs hv => ?_⟩
    · intro l hl
      rcases List.mem_append.1 hl with hl | hl
      · exact live_of_forall₂ n₂ (fun _ l hn => by simpa using hn.live) l hl
      · exact hlive l hl
    · rcases hv with _ | ⟨hu, hv⟩
      rw [List.all_append, all_unequalTo n₂ hτ hf hu hv, hall τ hτ hf _ hv, Bool.eq_iff_iff,
        Bool.and_eq_true, decide_eq_true_iff, decide_eq_true_iff, decide_eq_true_iff,
        List.nodup_cons]

theorem distinct_names (hs : e.Sound c) {xs : List Operand} {ls : List Lit} {l : Lit}
    {g : Encoder} (hx : ∀ x ∈ xs, x.Faithful c) (hp : Runs (pairwiseUnequal xs) e ls g)
    (h : Runs (conj ls) g l f) :
    Grows c e f ∧ f.Names c (.distinct (xs.map Operand.term)) l := by
  obtain ⟨g₁, hlive, hall⟩ := pairwiseUnequal_grows hs hx hp
  obtain ⟨g₂, hst⟩ := conj_grows g₁.sound hlive h
  refine ⟨g₁.trans g₂, hst.live, fun τ hτ hf => .of_value (by simp) fun v hv => ?_⟩
  obtain ⟨vs, hvs, rfl⟩ := Term.eval_distinct.1 hv
  rw [hst.holds τ hτ, hall τ (g₂.satisfies hτ) (g₂.fits.1 hf) vs
    (List.forall₂_map_left_iff.1 hvs)]

theorem constFormula_names (hs : e.Sound c) {x : String} (hx : c.names x) {l : Lit}
    (h : Runs (constFormula x) e l f) : Grows c e f ∧ f.Names c (.const x) l := by
  obtain ⟨hk, rfl⟩ := runs_constFormula.1 h
  refine ⟨.refl hs, hs.symbols x _ hx hk _ (by simp [Symbol.lits]), fun τ _ hf =>
    .of_value (by simp) fun v hv => ?_⟩
  have hsh : c.env x = some (.bool (l.holds τ)) := hf x _ hx hk
  exact Option.some.inj (hv.symm.trans hsh)

theorem constCases_counts (hs : e.Sound c) {x : String} (hx : c.names x) {zs : Cases}
    (h : Runs (constCases x) e zs f) : Grows c e f ∧ f.Counts c (.const x) zs := by
  obtain ⟨hk, rfl⟩ := runs_constCases.1 h
  refine ⟨.refl hs, fun z hz => hs.symbols x _ hx hk _ (List.mem_map_of_mem hz),
    fun τ _ hf => ?_⟩
  obtain ⟨n, hn, hp⟩ : ∃ n, c.env x = some (.int n) ∧ Picks τ zs n := hf x _ hx hk
  exact ⟨n, hp, fun v hv => Option.some.inj (hv.symm.trans hn)⟩

theorem literal_counts (hs : e.Sound c) (n : Int) : e.Counts c (.int n) [(.top, n)] where
  live := by simp [hs.live_top]
  picks := fun τ hτ _ => ⟨n, ⟨⟨.top, by simp, hs.stands_top.holds τ hτ⟩, by simp⟩,
    fun v hv => (Option.some.inj hv).symm⟩

theorem negate_counts {a whole : Term} {xs zs : Cases} (ha : e.Counts c a xs)
    (h : Runs (negate whole xs) e zs f) : f = e ∧ e.Counts c (.neg a) zs := by
  obtain ⟨rfl, hf⟩ := runs_negate h
  refine ⟨rfl, fun z hz => ?_, fun τ hτ hfit => ?_⟩
  · obtain ⟨x, hx, hl, _⟩ := forall₂_mem_right hf hz
    rw [hl]
    exact ha.live x hx
  · obtain ⟨n, hn, hna⟩ := ha.picks τ hτ hfit
    obtain ⟨k, hk, hp⟩ := picks_negate hf hn
    refine ⟨k, hp, fun v hv => ?_⟩
    obtain ⟨m, j, hm, hj, rfl⟩ := Term.eval_neg.1 hv
    rw [Value.int.inj (hna _ hm), hk] at hj
    rw [Option.some.inj hj]

theorem combine_counts (hs : e.Sound c) {o : ArithOp} {a b whole : Term} {xs ys zs : Cases}
    (ha : e.Counts c a xs) (hb : e.Counts c b ys) (h : Runs (combine whole o.eval xs ys) e zs f) :
    Grows c e f ∧ f.Counts c (.arith o a b) zs := by
  obtain ⟨hg, hlive, hpick⟩ := combine_grows hs ha.live hb.live h
  refine ⟨hg, hlive, fun τ hτ hf => ?_⟩
  obtain ⟨m, hm, hma⟩ := (hg.counts ha).picks τ hτ hf
  obtain ⟨n, hn, hnb⟩ := (hg.counts hb).picks τ hτ hf
  obtain ⟨k, hk, hp⟩ := hpick τ hτ m n hm hn
  refine ⟨k, hp, fun v hv => ?_⟩
  obtain ⟨i, j, l, hi, hj, hl, rfl⟩ := Term.eval_arith.1 hv
  rw [Value.int.inj (hma _ hi), Value.int.inj (hnb _ hj), hk] at hl
  rw [Option.some.inj hl]

theorem conditional_counts {e₁ e₂ e₃ : Encoder} (hs : e.Sound c) {a b d : Term} {p : Lit}
    {xs ys zs : Cases} {m n : Guards} (ha : e.Names c a p) (hb : e.Counts c b xs)
    (h₁ : Runs (guarded p xs .empty) e m e₁)
    (hd : e₁.Sound c → Grows c e₁ e₂ ∧ e₂.Counts c d ys)
    (h₂ : Runs (guarded p.flip ys m) e₂ n e₃) (h₃ : Runs (merge n) e₃ zs f) :
    Grows c e f ∧ f.Counts c (.ite a b d) zs := by
  obtain ⟨g₁, c₁⟩ := guarded_grows hs ha.live hb.live collects_nil h₁
  obtain ⟨g₂, hd⟩ := hd g₁.sound
  have hp : e₂.Live c p.flip.var := g₂.live (g₁.live ha.live)
  obtain ⟨g₃, c₃⟩ := guarded_grows g₂.sound hp hd.live (c₁.grows g₂) h₂
  obtain ⟨g₄, hlive, hpick⟩ := merge_conditional g₃.sound c₃ h₃
  have hg : Grows c e₂ f := g₃.trans g₄
  have hall : Grows c e f := (g₁.trans g₂).trans hg
  refine ⟨hall, hlive, fun τ hτ hf => ?_⟩
  obtain ⟨i, hi, hib⟩ := (hall.counts hb).picks τ hτ hf
  obtain ⟨j, hj, hjd⟩ := (hg.counts hd).picks τ hτ hf
  refine ⟨_, hpick τ hτ i j hi hj, fun v hv => ?_⟩
  rcases Term.eval_ite.1 hv with ⟨hc, hv⟩ | ⟨hc, hv⟩
  · rw [(hall.names ha).decides hτ hf hc, if_pos rfl]
    exact hib v hv
  · rw [(hall.names ha).decides hτ hf hc]
    exact hjd v hv

theorem operands_terms (ts : List Term) : (operands ts).map Operand.term = ts := by
  induction ts with
  | nil => rfl
  | cons t ts ih => rw [operands, List.map_cons, ih]

mutual
theorem formula_names (t : Term) (ht : ∀ x ∈ t.consts, c.names x) {e f : Encoder} {l : Lit}
    (hs : e.Sound c) (h : Runs (formula t) e l f) : Grows c e f ∧ f.Names c t l := by
  cases t with
  | bool b =>
    rw [formula] at h
    refine remember_names (fun hs hr => ?_) hs h
    obtain ⟨rfl, rfl⟩ := Runs.pure_iff.1 hr
    refine ⟨.refl hs, ?_, fun τ hτ _ => .of_value (by simp) fun v hv => ?_⟩
    · cases b
      · exact hs.live_bottom
      · exact hs.live_top
    · obtain rfl := Option.some.inj hv
      cases b
      · exact congrArg Value.bool (hs.stands_bottom.holds τ hτ).symm
      · exact congrArg Value.bool (hs.stands_top.holds τ hτ).symm
  | int n =>
    rw [formula] at h
    exact remember_names (fun _ hr => absurd hr runs_fail) hs h
  | const x =>
    rw [formula] at h
    exact remember_names (fun hs hr => constFormula_names hs (ht x (by simp [Term.consts])) hr) hs h
  | not a =>
    rw [formula] at h
    refine remember_names (fun hs hr => ?_) hs h
    simp only [Runs.bind_iff, Runs.pure_iff] at hr
    obtain ⟨k, _, hk, rfl, rfl⟩ := hr
    exact (formula_names a ht hs hk).imp_right names_flip
  | and as =>
    rw [formula] at h
    refine remember_names (fun hs hr => ?_) hs h
    obtain ⟨ls, e₁, hls, hl⟩ := Runs.bind_iff.1 hr
    obtain ⟨g₁, n₁⟩ := formulas_names as ht hs hls
    exact (conj_names g₁.sound n₁ hl).imp_left g₁.trans
  | or as =>
    rw [formula] at h
    refine remember_names (fun hs hr => ?_) hs h
    obtain ⟨ls, e₁, hls, hl⟩ := Runs.bind_iff.1 hr
    obtain ⟨g₁, n₁⟩ := formulas_names as ht hs hls
    exact (disj_names g₁.sound n₁ hl).imp_left g₁.trans
  | implies a b =>
    rw [formula] at h
    refine remember_names (fun hs hr => ?_) hs h
    simp only [Runs.bind_iff] at hr
    obtain ⟨p, e₁, hp, q, e₂, hq, hl⟩ := hr
    obtain ⟨ha, hb⟩ := List.forall_mem_append.1 ht
    obtain ⟨g₁, n₁⟩ := formula_names a ha hs hp
    obtain ⟨g₂, n₂⟩ := formula_names b hb g₁.sound hq
    exact (implies_names g₂.sound (g₂.names n₁) n₂ hl).imp_left (g₁.trans g₂).trans
  | iff a b =>
    rw [formula] at h
    refine remember_names (fun hs hr => ?_) hs h
    simp only [Runs.bind_iff] at hr
    obtain ⟨p, e₁, hp, q, e₂, hq, hl⟩ := hr
    obtain ⟨ha, hb⟩ := List.forall_mem_append.1 ht
    obtain ⟨g₁, n₁⟩ := formula_names a ha hs hp
    obtain ⟨g₂, n₂⟩ := formula_names b hb g₁.sound hq
    exact (iff_names g₂.sound (g₂.names n₁) n₂ hl).imp_left (g₁.trans g₂).trans
  | eq a b =>
    rw [formula] at h
    obtain ⟨ha, hb⟩ := List.forall_mem_append.1 ht
    have hx : (⟨a, formula a, integer a⟩ : Operand).Faithful c :=
      ⟨fun hs h => formula_names a ha hs h, fun hs h => integer_counts a ha hs h⟩
    have hy : (⟨b, formula b, integer b⟩ : Operand).Faithful c :=
      ⟨fun hs h => formula_names b hb hs h, fun hs h => integer_counts b hb hs h⟩
    exact remember_names (fun hs hr => equate_names hs hx hy hr) hs h
  | distinct as =>
    rw [formula] at h
    refine remember_names (fun hs hr => ?_) hs h
    obtain ⟨ls, e₁, hls, hl⟩ := Runs.bind_iff.1 hr
    have := distinct_names hs (operands_faithful as ht) hls hl
    rwa [operands_terms] at this
  | ite a b d =>
    rw [formula] at h
    refine remember_names (fun hs hr => ?_) hs h
    simp only [Runs.bind_iff] at hr
    obtain ⟨p, e₁, hp, q, e₂, hq, r, e₃, hr, hl⟩ := hr
    obtain ⟨ha, hbd⟩ := List.forall_mem_append.1 ht
    obtain ⟨hb, hd⟩ := List.forall_mem_append.1 hbd
    obtain ⟨g₁, n₁⟩ := formula_names a ha hs hp
    obtain ⟨g₂, n₂⟩ := formula_names b hb g₁.sound hq
    obtain ⟨g₃, n₃⟩ := formula_names d hd g₂.sound hr
    exact (ite_names g₃.sound (g₃.names (g₂.names n₁)) (g₃.names n₂) n₃ hl).imp_left
      ((g₁.trans g₂).trans g₃).trans
  | arith o a b =>
    rw [formula] at h
    exact remember_names (fun _ hr => absurd hr runs_fail) hs h
  | neg a =>
    rw [formula] at h
    exact remember_names (fun _ hr => absurd hr runs_fail) hs h
  | compare o a b =>
    rw [formula] at h
    refine remember_names (fun hs hr => ?_) hs h
    simp only [Runs.bind_iff] at hr
    obtain ⟨xs, e₁, hx, ys, e₂, hy, hl⟩ := hr
    obtain ⟨ha, hb⟩ := List.forall_mem_append.1 ht
    obtain ⟨g₁, c₁⟩ := integer_counts a ha hs hx
    obtain ⟨g₂, c₂⟩ := integer_counts b hb g₁.sound hy
    exact (compare_names g₂.sound (g₂.counts c₁) c₂ hl).imp_left (g₁.trans g₂).trans
  | app g as =>
    rw [formula] at h
    exact remember_names (fun _ hr => absurd hr runs_giveUp) hs h

theorem integer_counts (t : Term) (ht : ∀ x ∈ t.consts, c.names x) {e f : Encoder} {zs : Cases}
    (hs : e.Sound c) (h : Runs (integer t) e zs f) : Grows c e f ∧ f.Counts c t zs := by
  cases t with
  | int n =>
    rw [integer] at h
    obtain ⟨rfl, rfl⟩ := Runs.pure_iff.1 h
    exact ⟨.refl hs, literal_counts hs n⟩
  | const x =>
    rw [integer] at h
    exact constCases_counts hs (ht x (by simp [Term.consts])) h
  | neg a =>
    rw [integer] at h
    obtain ⟨xs, e₁, hx, hz⟩ := Runs.bind_iff.1 h
    obtain ⟨g₁, c₁⟩ := integer_counts a ht hs hx
    obtain ⟨rfl, c₂⟩ := negate_counts c₁ hz
    exact ⟨g₁, c₂⟩
  | arith o a b =>
    rw [integer] at h
    simp only [Runs.bind_iff] at h
    obtain ⟨xs, e₁, hx, ys, e₂, hy, hz⟩ := h
    obtain ⟨ha, hb⟩ := List.forall_mem_append.1 ht
    obtain ⟨g₁, c₁⟩ := integer_counts a ha hs hx
    obtain ⟨g₂, c₂⟩ := integer_counts b hb g₁.sound hy
    exact (combine_counts g₂.sound (g₂.counts c₁) c₂ hz).imp_left (g₁.trans g₂).trans
  | ite a b d =>
    rw [integer] at h
    simp only [Runs.bind_iff] at h
    obtain ⟨p, e₁, hp, xs, e₂, hx, m, e₃, hm, ys, e₄, hy, n, e₅, hn, hz⟩ := h
    obtain ⟨ha, hbd⟩ := List.forall_mem_append.1 ht
    obtain ⟨hb, hd⟩ := List.forall_mem_append.1 hbd
    obtain ⟨g₁, n₁⟩ := formula_names a ha hs hp
    obtain ⟨g₂, c₂⟩ := integer_counts b hb g₁.sound hx
    exact (conditional_counts g₂.sound (g₂.names n₁) c₂ hm
      (fun hs => integer_counts d hd hs hy) hn hz).imp_left (g₁.trans g₂).trans
  | app g as =>
    rw [integer] at h
    exact absurd h runs_giveUp
  | bool _ | not _ | and _ | or _ | implies _ _ | iff _ _ | eq _ _ | distinct _ | compare _ _ _ =>
    simp [integer, fail] at h

theorem formulas_names (ts : List Term) (ht : ∀ x ∈ Term.constsOf ts, c.names x)
    {e f : Encoder} {ls : List Lit} (hs : e.Sound c) (h : Runs (formulas ts) e ls f) :
    Grows c e f ∧ List.Forall₂ (f.Names c) ts ls := by
  cases ts with
  | nil =>
    rw [formulas] at h
    obtain ⟨rfl, rfl⟩ := Runs.pure_iff.1 h
    exact ⟨.refl hs, .nil⟩
  | cons t ts =>
    rw [formulas] at h
    simp only [Runs.bind_iff, Runs.pure_iff] at h
    obtain ⟨l, e₁, hl, ls, e₂, hls, rfl, rfl⟩ := h
    obtain ⟨ha, hb⟩ := List.forall_mem_append.1 ht
    obtain ⟨g₁, n₁⟩ := formula_names t ha hs hl
    obtain ⟨g₂, n₂⟩ := formulas_names ts hb g₁.sound hls
    exact ⟨g₁.trans g₂, .cons (g₂.names n₁) n₂⟩

theorem operands_faithful (ts : List Term) (ht : ∀ x ∈ Term.constsOf ts, c.names x) :
    ∀ x ∈ operands ts, x.Faithful c := by
  cases ts with
  | nil => simp [operands]
  | cons t ts =>
    obtain ⟨ha, hb⟩ := List.forall_mem_append.1 ht
    rw [operands]
    exact List.forall_mem_cons.2
      ⟨⟨fun hs h => formula_names t ha hs h, fun hs h => integer_counts t ha hs h⟩,
        operands_faithful ts hb⟩
end

end Encode
end Consistency
