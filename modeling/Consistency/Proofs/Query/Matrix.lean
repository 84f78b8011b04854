import Mathlib.Logic.Relation
import Consistency.Proofs.Term.Connectives
import Consistency.Query.Matrix

/-!
# What matrices stand for

A matrix represents a relation under an environment if each of its formulas
tells whether the two nodes are related. The operations on matrices represent
the operations on relations.
-/

set_option autoImplicit false

namespace Consistency.Matrix
variable {env : Environment} {n a b : Nat} {x y : Matrix} {r q : Nat → Nat → Prop}

structure Square (x : Matrix) (n : Nat) : Prop where
  size : x.size = n
  rows : ∀ row ∈ x.rows, row.size = n

theorem build_square (n : Nat) (f : Nat → Nat → Term) : (build n f).Square n where
  size := by simp [size, build]
  rows := by
    intro row h
    obtain ⟨i, rfl⟩ := Array.mem_ofFn.1 h
    exact Array.size_ofFn

theorem entry_build {f : Nat → Nat → Term} (ha : a < n) (hb : b < n) :
    (build n f).entry a b = f a b := by
  simp [entry, build, ha, hb]

theorem mem_entries (h : x.Square n) {t : Term} :
    t ∈ x.entries ↔ ∃ a < n, ∃ b < n, x.entry a b = t := by
  have hsize : x.rows.size = n := h.size
  rw [entries, List.mem_flatMap]
  constructor
  · rintro ⟨row, hrow, ht⟩
    obtain ⟨a, ha, rfl⟩ := Array.mem_iff_getElem.1 (Array.mem_toList_iff.1 hrow)
    obtain ⟨b, hb, rfl⟩ := Array.mem_iff_getElem.1 (Array.mem_toList_iff.1 ht)
    have hr := h.rows x.rows[a] (Array.getElem_mem ha)
    exact ⟨a, hsize ▸ ha, b, hr ▸ hb, by simp [entry, ha, hb]⟩
  · rintro ⟨a, ha, b, hb, rfl⟩
    have ha' : a < x.rows.size := hsize.symm ▸ ha
    have hr := h.rows x.rows[a] (Array.getElem_mem ha')
    have hb' : b < x.rows[a].size := hr.symm ▸ hb
    refine ⟨x.rows[a], Array.mem_toList_iff.2 (Array.getElem_mem ha'), ?_⟩
    simp [entry, ha', hb']

structure Represents (env : Environment) (x : Matrix) (n : Nat) (r : Nat → Nat → Prop) : Prop where
  square : x.Square n
  inside : ∀ a b, r a b → a < n ∧ b < n
  tells : ∀ a b, a < n → b < n → (x.entry a b).Tells env (r a b)

theorem represents_build {f : Nat → Nat → Term} (hr : ∀ a b, r a b → a < n ∧ b < n)
    (h : ∀ a b, a < n → b < n → (f a b).Tells env (r a b)) : (build n f).Represents env n r where
  square := build_square n f
  inside := hr
  tells := by
    intro a b ha hb
    rw [entry_build ha hb]
    exact h a b ha hb

theorem Represents.union (hx : x.Represents env n r) (hy : y.Represents env n q) :
    (x.union y).Represents env n fun a b => r a b ∨ q a b := by
  rw [Matrix.union, hx.square.size]
  exact represents_build (fun a b h => h.elim (hx.inside a b) (hy.inside a b))
    fun a b ha hb => (hx.tells a b ha hb).mkOr (hy.tells a b ha hb)

theorem Represents.inter (hx : x.Represents env n r) (hy : y.Represents env n q) :
    (x.inter y).Represents env n fun a b => r a b ∧ q a b := by
  rw [Matrix.inter, hx.square.size]
  exact represents_build (fun a b h => hx.inside a b h.1)
    fun a b ha hb => (hx.tells a b ha hb).mkAnd (hy.tells a b ha hb)

theorem Represents.diff (hx : x.Represents env n r) (hy : y.Represents env n q) :
    (x.diff y).Represents env n fun a b => r a b ∧ ¬ q a b := by
  rw [Matrix.diff, hx.square.size]
  exact represents_build (fun a b h => hx.inside a b h.1)
    fun a b ha hb => (hx.tells a b ha hb).mkAnd (hy.tells a b ha hb).mkNot

theorem Represents.inverse (hx : x.Represents env n r) :
    x.inverse.Represents env n fun a b => r b a := by
  rw [Matrix.inverse, hx.square.size]
  exact represents_build (fun a b h => (hx.inside b a h).symm) fun a b ha hb => hx.tells b a hb ha

theorem isFalse_iff {t : Term} : isFalse t = true ↔ t = .bool false := by
  unfold isFalse
  split <;> simp_all

/-- An entry that is plainly false cannot be on a path. -/
theorem mem_between (hx : x.Represents env n r) (hy : y.Represents env n q) (ha : a < n)
    {c : Nat} (hc : c < n) (hab : r a b) (hbc : q b c) : b ∈ between x y a c := by
  have hb : b < n := (hx.inside a b hab).2
  have hne : ∀ {t : Term} {p : Prop}, t.Tells env p → p → isFalse t = false := by
    intro t p ht hp
    rw [Bool.eq_false_iff, ne_eq, isFalse_iff]
    rintro rfl
    exact absurd (Term.decides_bool.1 (ht.decides_true.2 hp)) (by decide)
  rw [between, List.mem_filter, List.mem_range, hx.square.size]
  exact ⟨hb, by rw [hne (hx.tells a b ha hb) hab, hne (hy.tells b c hb hc) hbc]; rfl⟩

theorem Represents.seq (hx : x.Represents env n r) (hy : y.Represents env n q) :
    (x.seq y).Represents env n fun a c => ∃ b, r a b ∧ q b c := by
  rw [Matrix.seq, hx.square.size]
  refine represents_build ?_ fun a c ha hc => ?_
  · rintro a c ⟨b, hab, hbc⟩
    exact ⟨(hx.inside a b hab).1, (hy.inside b c hbc).2⟩
  · have hlt : ∀ b ∈ between x y a c, b < n := by
      intro b hb
      rw [between, List.mem_filter, List.mem_range, hx.square.size] at hb
      exact hb.1
    refine (Term.tells_mkOr fun b hb =>
      (hx.tells a b ha (hlt b hb)).mkAnd (hy.tells b c (hlt b hb) hc)).congr ?_
    constructor
    · rintro ⟨b, -, h⟩
      exact ⟨b, h⟩
    · rintro ⟨b, hab, hbc⟩
      exact ⟨b, mem_between hx hy ha hc hab hbc, hab, hbc⟩

theorem Represents.congr (hx : x.Represents env n r) (h : ∀ a b, r a b ↔ q a b) :
    x.Represents env n q where
  square := hx.square
  inside := fun a b hq => hx.inside a b ((h a b).2 hq)
  tells := fun a b ha hb => (hx.tells a b ha hb).congr (h a b)

theorem represents_ofPredicate {p : Nat → Nat → Bool} (hr : ∀ a b, r a b → a < n ∧ b < n)
    (h : ∀ a b, a < n → b < n → (p a b = true ↔ r a b)) : (ofPredicate n p).Represents env n r :=
  represents_build hr fun a b ha hb => (Term.tells_bool env (p a b)).congr (h a b ha hb)

end Consistency.Matrix
