import Consistency.Proofs.Cnf.Gates
import Consistency.Proofs.Ordered.Map

/-!
# Cases of integers

An integer term has cases of which exactly those of one value are taken. The
operations on cases keep it so, and a relation between two integers has a
literal.
-/

set_option autoImplicit false

namespace Consistency
variable {c : Reading} {e f : Encoder}

namespace Encoder

/-- Wherever the definitions hold and the constants have their values, the cases of one value are
taken, of which `p` holds. -/
structure Splits (c : Reading) (e : Encoder) (cases : Cases) (p : Int → Prop) : Prop where
  live : ∀ x ∈ cases, e.Live c x.1.var
  picks : ∀ τ, e.Satisfies τ → c.Fits e τ → ∃ n, Picks τ cases n ∧ p n

theorem Grows.splits (h : Grows c e f) {cases : Cases} {p : Int → Prop}
    (hs : e.Splits c cases p) : f.Splits c cases p where
  live := fun x hx => h.live (hs.live x hx)
  picks := fun τ hτ hf => hs.picks τ (h.satisfies hτ) (h.fits.1 hf)

theorem any_of_stands {α : Type} {p : α → (Nat → Bool) → Bool} {xs : List α} {ls : List Lit}
    (h : List.Forall₂ (fun x l => e.Stands c l (p x)) xs ls) {τ : Nat → Bool}
    (hτ : e.Satisfies τ) : ls.any (Lit.holds τ) = xs.any fun x => p x τ := by
  induction h with
  | nil => rfl
  | cons hx _ ih => rw [List.any_cons, List.any_cons, ih, hx.holds τ hτ]

theorem live_of_forall₂ {α : Type} {P : α → Lit → Prop} {xs : List α} {ls : List Lit}
    (h : List.Forall₂ P xs ls) (hp : ∀ x l, P x l → e.Live c l.var) :
    ∀ l ∈ ls, e.Live c l.var := by
  induction h with
  | nil => simp
  | cons hx _ ih => exact List.forall_mem_cons.2 ⟨hp _ _ hx, ih⟩

end Encoder

namespace Encode
open Encoder

theorem mem_pairs {xs ys : Cases} {p : (Lit × Int) × (Lit × Int)} :
    p ∈ pairs xs ys ↔ p.1 ∈ xs ∧ p.2 ∈ ys := by
  obtain ⟨x, y⟩ := p
  simp only [pairs, List.mem_flatMap, List.mem_map, Prod.mk.injEq]
  constructor
  · rintro ⟨x', hx, y', hy, rfl, rfl⟩
    exact ⟨hx, hy⟩
  · rintro ⟨hx, hy⟩
    exact ⟨x, hx, y, hy, rfl, rfl⟩

/-- The conjunctions of pairs of literals, one after the other. -/
theorem mapM_conj (hs : e.Sound c) {α : Type} (a b : α → Lit) {xs : List α} {ls : List Lit}
    (ha : ∀ x ∈ xs, e.Live c (a x).var ∧ e.Live c (b x).var)
    (h : Runs (xs.mapM fun x => conj [a x, b x]) e ls f) :
    Grows c e f ∧
      List.Forall₂ (fun x l => f.Stands c l fun τ => (a x).holds τ && (b x).holds τ) xs ls := by
  refine Runs.mapM (Q := fun x l s => s.Stands c l fun τ => (a x).holds τ && (b x).holds τ)
    (I := Grows c e) (R := Grows c) (fun _ _ _ _ hg hq => hg.stands hq) ?_ (.refl hs) h
  intro x hx s t l hI hr
  obtain ⟨ha, hb⟩ := ha x hx
  obtain ⟨hg, hst⟩ := conj_grows hI.sound (by simp [hI.live ha, hI.live hb]) hr
  exact ⟨hI.trans hg, hg, hst.live, fun τ hτ => by simp [hst.holds τ hτ]⟩

theorem relate_grows (hs : e.Sound c) {rel : Int → Int → Bool} {xs ys : Cases}
    (hx : ∀ x ∈ xs, e.Live c x.1.var) (hy : ∀ y ∈ ys, e.Live c y.1.var) {l : Lit}
    (h : Runs (relate rel xs ys) e l f) :
    Grows c e f ∧ f.Live c l.var ∧ ∀ τ, f.Satisfies τ → ∀ m n, Picks τ xs m → Picks τ ys n →
      l.holds τ = rel m n := by
  unfold relate at h
  rw [Runs.bind_iff] at h
  obtain ⟨hits, g, hh, hl⟩ := h
  obtain ⟨g₁, hf⟩ := mapM_conj hs (fun p : (Lit × Int) × (Lit × Int) => p.1.1) (fun p => p.2.1)
    (fun p hp => by
      have hm := mem_pairs.1 (List.mem_filter.1 hp).1
      exact ⟨hx _ hm.1, hy _ hm.2⟩) hh
  obtain ⟨g₂, hd⟩ := disj_grows g₁.sound (live_of_forall₂ hf fun _ _ hst => hst.live) hl
  refine ⟨g₁.trans g₂, hd.live, fun τ hτ m n hm hn => ?_⟩
  rw [hd.holds τ hτ, any_of_stands hf (g₂.satisfies hτ), Bool.eq_iff_iff, List.any_eq_true]
  constructor
  · rintro ⟨p, hp, ht⟩
    obtain ⟨hmem, hr⟩ := List.mem_filter.1 hp
    obtain ⟨hpx, hpy⟩ := mem_pairs.1 hmem
    obtain ⟨h₁, h₂⟩ := Bool.and_eq_true_iff.1 ht
    rw [← hm.2 _ _ hpx h₁, ← hn.2 _ _ hpy h₂]
    exact hr
  · intro hr
    obtain ⟨a, ha, hta⟩ := hm.1
    obtain ⟨b, hb, htb⟩ := hn.1
    exact ⟨((a, m), (b, n)), List.mem_filter.2 ⟨mem_pairs.2 ⟨ha, hb⟩, hr⟩, by simp [hta, htb]⟩

def Offers (m : Guards) (n : Int) (g : Lit) : Prop := ∃ gs, (n, gs) ∈ m.entries ∧ g ∈ gs

theorem not_offers_empty {n : Int} {g : Lit} : ¬ Offers .empty n g := by
  rintro ⟨gs, h, _⟩
  exact absurd h (by simp [OrderedMap.empty])

theorem offers_addGuard {m : Guards} {v n : Int} {g h : Lit} :
    Offers (addGuard m v g) n h ↔ (n = v ∧ h = g) ∨ Offers m n h := by
  constructor
  · rintro ⟨gs, hm, hg⟩
    rcases OrderedMap.mem_insertList hm with he | he
    · obtain ⟨rfl, rfl⟩ := Prod.mk.inj he
      rcases List.mem_cons.1 hg with rfl | hg
      · exact .inl ⟨rfl, rfl⟩
      · cases hl : m.get? n with
        | none => exact absurd hg (by simp [hl])
        | some old => exact .inr ⟨old, mem_of_lookup hl, by simpa [hl] using hg⟩
    · exact .inr ⟨gs, he, hg⟩
  · rintro (⟨rfl, rfl⟩ | ⟨gs, hm, hg⟩)
    · exact ⟨_, OrderedMap.mem_insertList_self _ _ _, by simp⟩
    · rcases OrderedMap.mem_insertList_of_mem (k := v) (v := g :: (m.get? v).getD []) hm with
        he | ⟨rfl, hl⟩
      · exact ⟨gs, he, hg⟩
      · refine ⟨_, OrderedMap.mem_insertList_self _ _ _, ?_⟩
        have hl : m.get? n = some gs := hl
        simp [hl, hg]

structure Collects {α : Type} (c : Reading) (e : Encoder) (P : α → Int → Prop)
    (G : α → (Nat → Bool) → Bool) (xs : List α) (m : Guards) : Prop where
  covers : ∀ x ∈ xs, ∃ n g, P x n ∧ Offers m n g ∧ e.Stands c g (G x)
  sources : ∀ n g, Offers m n g → ∃ x ∈ xs, P x n ∧ e.Stands c g (G x)

section
variable {α : Type} {P : α → Int → Prop} {G : α → (Nat → Bool) → Bool} {xs ys : List α}
  {m : Guards}

theorem collects_nil : Collects c e P G [] .empty where
  covers := by simp
  sources := fun _ _ h => absurd h not_offers_empty

theorem Collects.grows (h : Collects c e P G xs m) (hg : Grows c e f) :
    Collects c f P G xs m where
  covers := fun x hx => by
    obtain ⟨n, g, hv, ho, hst⟩ := h.covers x hx
    exact ⟨n, g, hv, ho, hg.stands hst⟩
  sources := fun n g ho => by
    obtain ⟨x, hx, hv, hst⟩ := h.sources n g ho
    exact ⟨x, hx, hv, hg.stands hst⟩

theorem Collects.add (h : Collects c e P G xs m) {x : α} {n : Int} {g : Lit}
    (hv : P x n) (hst : e.Stands c g (G x)) :
    Collects c e P G (xs ++ [x]) (addGuard m n g) where
  covers := by
    intro y hy
    rcases List.mem_append.1 hy with hy | hy
    · obtain ⟨k, d, hk, ho, hd⟩ := h.covers y hy
      exact ⟨k, d, hk, offers_addGuard.2 (.inr ho), hd⟩
    · obtain rfl := List.mem_singleton.1 hy
      exact ⟨n, g, hv, offers_addGuard.2 (.inl ⟨rfl, rfl⟩), hst⟩
  sources := by
    intro k d ho
    rcases offers_addGuard.1 ho with ⟨rfl, rfl⟩ | ho
    · exact ⟨x, by simp, hv, hst⟩
    · obtain ⟨y, hy, hk, hd⟩ := h.sources k d ho
      exact ⟨y, List.mem_append_left _ hy, hk, hd⟩

/-- A fold that adds one guard for each member. -/
theorem collects_foldlM {β : Type} (tag : β → α) {bs : List β} {step : Guards → β → Encode Guards}
    (hstep : ∀ b ∈ bs, ∀ {m m' s t}, Grows c e s → Runs (step m b) s m' t →
      Grows c s t ∧ ∃ n g, P (tag b) n ∧ m' = addGuard m n g ∧ t.Stands c g (G (tag b)))
    (hs : e.Sound c) (hm : Collects c e P G ys m) {m' : Guards}
    (h : Runs (bs.foldlM step m) e m' f) :
    Grows c e f ∧ Collects c f P G (ys ++ bs.map tag) m' := by
  suffices hgo : ∀ {s m ys}, Grows c e s → Collects c s P G ys m →
      Runs (bs.foldlM step m) s m' f →
        Grows c e f ∧ Collects c f P G (ys ++ bs.map tag) m' from hgo (.refl hs) hm h
  clear h
  induction bs with
  | nil =>
    intro s m ys hg hm h
    rw [List.foldlM_nil, Runs.pure_iff] at h
    obtain ⟨rfl, rfl⟩ := h
    exact ⟨hg, by simpa using hm⟩
  | cons b bs ih =>
    intro s m ys hg hm h
    rw [List.foldlM_cons, Runs.bind_iff] at h
    obtain ⟨m₁, t, hx, hxs⟩ := h
    obtain ⟨hgt, n, g, hv, rfl, hst⟩ := hstep b (by simp) hg hx
    have := ih (fun y hy => hstep y (List.mem_cons_of_mem _ hy)) (hg.trans hgt)
      ((hm.grows hgt).add hv hst) hxs
    simpa using this

/-- Where all members whose guard holds have the value `n`, that is the value taken. -/
theorem merge_grows (hs : e.Sound c) (hm : Collects c e P G xs m) {zs : Cases}
    (h : Runs (merge m) e zs f) :
    Grows c e f ∧ (∀ z ∈ zs, f.Live c z.1.var) ∧ ∀ τ, f.Satisfies τ → ∀ n,
      (∃ x ∈ xs, G x τ = true) →
      (∀ x ∈ xs, G x τ = true → ∀ k, P x k → k = n) → Picks τ zs n := by
  unfold merge at h
  simp only [Runs.bind_iff, Runs.pure_iff] at h
  obtain ⟨cases, _, hc, rfl, rfl⟩ := h
  have hmap : Grows c e f ∧ List.Forall₂
      (fun (d : Int × List Lit) (z : Lit × Int) =>
        z.2 = d.1 ∧ f.Stands c z.1 fun τ => d.2.any (Lit.holds τ)) m.entries cases := by
    refine Runs.mapM (I := Grows c e) (R := Grows c)
      (Q := fun (d : Int × List Lit) (z : Lit × Int) s =>
        z.2 = d.1 ∧ s.Stands c z.1 fun τ => d.2.any (Lit.holds τ))
      (fun _ _ _ _ hg hq => ⟨hq.1, hg.stands hq.2⟩) ?_ (.refl hs) hc
    rintro ⟨k, gs⟩ hd s t z hI hr
    simp only [Runs.bind_iff, Runs.pure_iff] at hr
    obtain ⟨l, _, hl, rfl, rfl⟩ := hr
    have hgs : ∀ g ∈ gs, s.Live c g.var := fun g hg => by
      obtain ⟨x, _, _, hst⟩ := hm.sources k g ⟨gs, hd, hg⟩
      exact hI.live hst.live
    obtain ⟨hg, hst⟩ := disj_grows hI.sound hgs hl
    exact ⟨hI.trans hg, hg, rfl, hst⟩
  obtain ⟨hg, hf⟩ := hmap
  refine ⟨hg, ?_, fun τ hτ n hex hall => ?_⟩
  · intro z hz
    obtain ⟨d, _, -, hst⟩ := forall₂_mem_right hf (List.mem_filter.1 hz).1
    exact hst.live
  constructor
  · obtain ⟨x, hx, hgx⟩ := hex
    obtain ⟨k, g, hv, ⟨gs, hgs, hgm⟩, hst⟩ := hm.covers x hx
    obtain rfl := hall x hx hgx k hv
    obtain ⟨⟨l, j⟩, hz, rfl, hl⟩ := forall₂_mem_left hf hgs
    have hτl : l.holds τ = true := by
      rw [hl.holds τ hτ, List.any_eq_true]
      exact ⟨g, hgm, by rw [hst.holds τ (hg.satisfies hτ), hgx]⟩
    refine ⟨l, List.mem_filter.2 ⟨hz, ?_⟩, hτl⟩
    rw [bne_iff_ne]
    rintro rfl
    rw [hg.sound.stands_bottom.holds τ hτ] at hτl
    exact Bool.noConfusion hτl
  · intro l k hz hτl
    obtain ⟨⟨j, gs⟩, hgs, rfl, hl⟩ := forall₂_mem_right hf (List.mem_filter.1 hz).1
    rw [hl.holds τ hτ] at hτl
    obtain ⟨g, hgm, hgt⟩ := List.any_eq_true.1 hτl
    obtain ⟨x, hx, hv, hst⟩ := hm.sources _ g ⟨gs, hgs, hgm⟩
    rw [hst.holds τ (hg.satisfies hτ)] at hgt
    exact hall x hx hgt _ hv

end

def underValue (x : Lit × Lit × Int) (n : Int) : Prop := x.2.2 = n

def underGuard (x : Lit × Lit × Int) (τ : Nat → Bool) : Bool := x.1.holds τ && x.2.1.holds τ

theorem guarded_grows (hs : e.Sound c) {a : Lit} (ha : e.Live c a.var) {cases : Cases}
    (hc : ∀ x ∈ cases, e.Live c x.1.var) {ys : List (Lit × Lit × Int)} {m m' : Guards}
    (hm : Collects c e underValue underGuard ys m) (h : Runs (guarded a cases m) e m' f) :
    Grows c e f ∧ Collects c f underValue underGuard (ys ++ cases.map (a, ·)) m' := by
  refine collects_foldlM (a, ·) ?_ hs hm h
  rintro ⟨g, n⟩ hx m m' s t hg hr
  simp only [Runs.bind_iff, Runs.pure_iff] at hr
  obtain ⟨l, _, hl, rfl, rfl⟩ := hr
  obtain ⟨hgt, hst⟩ := conj_grows hg.sound (by simp [hg.live ha, hg.live (hc _ hx)]) hl
  exact ⟨hgt, n, l, rfl, rfl, hst.live, fun τ hτ => by simp [hst.holds τ hτ, underGuard]⟩

/-- The cases of a conditional are those of the branch taken. -/
theorem merge_conditional (hs : e.Sound c) {a : Lit} {xs ys : Cases} {m : Guards}
    (hm : Collects c e underValue underGuard (xs.map (a, ·) ++ ys.map (a.flip, ·)) m)
    {zs : Cases} (h : Runs (merge m) e zs f) :
    Grows c e f ∧ (∀ z ∈ zs, f.Live c z.1.var) ∧ ∀ τ, f.Satisfies τ → ∀ m n,
      Picks τ xs m → Picks τ ys n → Picks τ zs (if a.holds τ then m else n) := by
  obtain ⟨hg, hlive, hpick⟩ := merge_grows hs hm h
  refine ⟨hg, hlive, fun τ hτ m n hm hn => hpick τ hτ _ ?_ ?_⟩
  · obtain ⟨g, hgm, hgt⟩ := hm.1
    obtain ⟨d, hdm, hdt⟩ := hn.1
    cases ha : a.holds τ with
    | true => exact ⟨(a, g, m), by simp [hgm], by simp [underGuard, ha, hgt]⟩
    | false => exact ⟨(a.flip, d, n), by simp [hdm], by simp [underGuard, ha, hdt]⟩
  · rintro ⟨b, g, j⟩ hx hgx k rfl
    obtain ⟨hb, hgt⟩ := Bool.and_eq_true_iff.1 hgx
    simp only [List.mem_append, List.mem_map, Prod.mk.injEq, Prod.exists] at hx
    rcases hx with ⟨g', j', hmem, rfl, rfl, rfl⟩ | ⟨g', j', hmem, rfl, rfl, rfl⟩
    · rw [if_pos hb]
      exact hm.2 g' j' hmem hgt
    · rw [Lit.holds_flip, Bool.not_eq_true'] at hb
      rw [hb]
      exact hn.2 g' j' hmem hgt

/-- An operation takes the values of its operands to its own. -/
theorem combine_grows (hs : e.Sound c) {whole : Term} {op : Int → Int → Option Int}
    {xs ys zs : Cases} (hx : ∀ x ∈ xs, e.Live c x.1.var) (hy : ∀ y ∈ ys, e.Live c y.1.var)
    (h : Runs (combine whole op xs ys) e zs f) :
    Grows c e f ∧ (∀ z ∈ zs, f.Live c z.1.var) ∧ ∀ τ, f.Satisfies τ → ∀ m n,
      Picks τ xs m → Picks τ ys n → ∃ k, op m n = some k ∧ Picks τ zs k := by
  unfold combine at h
  split at h
  · exact absurd h runs_giveUp
  rw [Runs.bind_iff] at h
  obtain ⟨m, g, hfold, hmerge⟩ := h
  have hcol := collects_foldlM (c := c) (P := fun p n => op p.1.2 p.2.2 = some n)
    (G := fun p τ => p.1.1.holds τ && p.2.1.holds τ) id (by
      rintro ⟨x, y⟩ hp m m' s t hg hr
      obtain ⟨hpx, hpy⟩ := mem_pairs.1 hp
      dsimp only at hr
      split at hr
      · exact absurd hr runs_giveUp
      · next value hv =>
        simp only [Runs.bind_iff, Runs.pure_iff] at hr
        obtain ⟨l, _, hl, rfl, rfl⟩ := hr
        obtain ⟨hgt, hst⟩ := conj_grows hg.sound
          (by simp [hg.live (hx _ hpx), hg.live (hy _ hpy)]) hl
        exact ⟨hgt, value, l, hv, rfl, hst.live, fun τ hτ => by simp [hst.holds τ hτ]⟩)
    hs collects_nil hfold
  obtain ⟨hg, hm⟩ := hcol
  obtain ⟨hg', hlive, hpick⟩ := merge_grows hg.sound hm hmerge
  refine ⟨hg.trans hg', hlive, fun τ hτ i j hi hj => ?_⟩
  obtain ⟨a, ha, hat⟩ := hi.1
  obtain ⟨b, hb, hbt⟩ := hj.1
  have hab : ((a, i), (b, j)) ∈ pairs xs ys := mem_pairs.2 ⟨ha, hb⟩
  obtain ⟨k, _, hk, _, _⟩ := hm.covers ((a, i), (b, j)) (by simpa using hab)
  refine ⟨k, hk, hpick τ hτ k ⟨((a, i), (b, j)), by simpa using hab, by simp [hat, hbt]⟩ ?_⟩
  rintro ⟨x, y⟩ hp ht l hl
  simp only [List.map_id, List.nil_append] at hp
  obtain ⟨hpx, hpy⟩ := mem_pairs.1 hp
  obtain ⟨htx, hty⟩ := Bool.and_eq_true_iff.1 ht
  have hl : op x.2 y.2 = some l := hl
  rw [hi.2 x.1 x.2 hpx htx, hj.2 y.1 y.2 hpy hty] at hl
  exact Option.some.inj (hl.symm.trans hk)

theorem runs_negate {whole : Term} {xs zs : Cases} (h : Runs (negate whole xs) e zs f) :
    f = e ∧ List.Forall₂ (fun x z => z.1 = x.1 ∧ Bounded.neg x.2 = some z.2) xs zs := by
  unfold negate at h
  have hm := Runs.mapM (I := fun s => s = e) (R := fun _ _ => True)
    (Q := fun (x z : Lit × Int) _ => z.1 = x.1 ∧ Bounded.neg x.2 = some z.2)
    (fun _ _ _ _ _ hq => hq) (by
      rintro ⟨g, n⟩ hx s t z rfl hr
      dsimp only at hr
      split at hr
      · exact absurd hr runs_giveUp
      · next hn =>
        obtain ⟨rfl, rfl⟩ := Runs.pure_iff.1 hr
        exact ⟨rfl, trivial, rfl, hn⟩) rfl h
  exact hm

theorem picks_negate {τ : Nat → Bool} {xs zs : Cases} {n : Int}
    (h : List.Forall₂ (fun x z => z.1 = x.1 ∧ Bounded.neg x.2 = some z.2) xs zs)
    (hp : Picks τ xs n) : ∃ k, Bounded.neg n = some k ∧ Picks τ zs k := by
  obtain ⟨g, hg, ht⟩ := hp.1
  obtain ⟨⟨d, k⟩, hz, rfl, hk⟩ := forall₂_mem_left h hg
  refine ⟨k, hk, ⟨d, hz, ht⟩, fun b j hb hbt => ?_⟩
  obtain ⟨⟨a, i⟩, hx, rfl, hi⟩ := forall₂_mem_right h hb
  rw [hp.2 b i hx hbt] at hi
  exact Option.some.inj (hi.symm.trans hk)

end Encode
end Consistency
