import Consistency.Proofs.Query.Definition

/-!
# Names for formulas

A compound formula is given a name by a definition. Where the definitions hold,
the name tells what the formula tells; so a matrix may be replaced by names for
its entries.
-/

set_option autoImplicit false

namespace Consistency.Query
variable {S : String → Prop} {q q₁ q₂ : QueryState} {t u : Term} {n : Nat} {m : Matrix}

theorem runs_add {c : Command} :
    Runs (add c) q ⟨⟩ { q with commands := c :: q.commands } := Runs.modify_iff.2 rfl

structure Defines (S : String → Prop) (q q₁ : QueryState) : Prop where
  grown : Extends S q q₁
  named : q₁.named = q.named

theorem Defines.refl (S : String → Prop) (q : QueryState) : Defines S q q := ⟨.refl S q, rfl⟩

theorem Defines.trans (h : Defines S q q₁) (k : Defines S q₁ q₂) : Defines S q q₂ where
  grown := h.grown.trans k.grown
  named := k.named.trans h.named

structure Renames (S : String → Prop) (t u : Term) (q : QueryState) : Prop where
  formula : u.Formula (Upto S q.definitions)
  tells : ∀ env p, Settles env q → t.Tells env p → u.Tells env p

theorem Renames.mono (h : Renames S t u q) (hq : Extends S q q₁) : Renames S t u q₁ where
  formula := hq.formula h.formula
  tells := fun env p hs ht => h.tells env p (hq.settles hs) ht

def defined (q : QueryState) (t : Term) : QueryState where
  commands := .assert (.iff (.const (definitionSymbol q.definitions)) t) ::
    .declareConst (definitionSymbol q.definitions) .bool :: q.commands
  named := q.named
  definitions := q.definitions + 1

theorem grows_defined (ht : t.Formula (Upto S q.definitions)) :
    Grows S q [t] [] (defined q t) where
  definitions := rfl
  asserted := by
    intro s
    simp [QueryState.asserted, defined, definitionsFrom, Command.assertion, or_comm]
  declared := by
    intro d
    have hlast : ∀ k, q.definitions ≤ k ∧ k < q.definitions + 1 ↔ k = q.definitions := by omega
    simp only [QueryState.declared, defined, ← and_assoc, hlast, exists_eq_left]
    simp [Command.declared, or_comm, eq_comm]
  formulas := by
    intro i d hd
    obtain ⟨hi, rfl⟩ := List.getElem?_eq_some_iff.1 hd
    obtain rfl : i = 0 := by simpa using hi
    exact ht

theorem renames_defined (S : String → Prop) (q : QueryState) (t : Term) :
    Renames S t (.const (definitionSymbol q.definitions)) (defined q t) where
  formula := formula_const (.inr ⟨q.definitions, Nat.lt_succ_self _, rfl⟩)
  tells := by
    intro env p hs ⟨b, hb, hp⟩
    have hdef := hs q.definitions t (by simp [QueryState.asserted, defined, Command.assertion])
    obtain ⟨c, d, hc, hd, hcd⟩ := Term.eval_iff.1 hdef
    obtain rfl : b = d := Value.bool.inj (Option.some.inj (hb.symm.trans hd))
    obtain rfl : c = b := eq_of_beq (Value.bool.inj hcd).symm
    exact ⟨c, hc, hp⟩

theorem name_runs (ht : t.Formula (Upto S q.definitions)) :
    ∃ u q₁, Runs (name t) q u q₁ ∧ Defines S q q₁ ∧ Renames S t u q₁ := by
  unfold name
  split
  · exact ⟨_, q, Runs.pure_iff.2 ⟨rfl, rfl⟩, .refl S q, ht, fun _ _ _ h => h⟩
  · exact ⟨_, q, Runs.pure_iff.2 ⟨rfl, rfl⟩, .refl S q, ht, fun _ _ _ h => h⟩
  · refine ⟨_, defined q t, ?_, ⟨⟨[t], grows_defined ht⟩, rfl⟩, renames_defined S q t⟩
    simp [assert, add, defined, Runs.map_iff]

structure Formed (S : String → Prop) (q : QueryState) (n : Nat) (m : Matrix) : Prop where
  square : m.Square n
  formula : ∀ a b, a < n → b < n → (m.entry a b).Formula (Upto S q.definitions)

theorem Formed.mono {ds ts : List Term} (h : Formed S q n m) (hq : Grows S q ds ts q₁) :
    Formed S q₁ n m where
  square := h.square
  formula := fun a b ha hb => hq.formula (h.formula a b ha hb)

theorem formed_build {f : Nat → Nat → Term}
    (h : ∀ a b, a < n → b < n → (f a b).Formula (Upto S q.definitions)) :
    Formed S q n (.build n f) where
  square := Matrix.build_square n f
  formula := by
    intro a b ha hb
    rw [Matrix.entry_build ha hb]
    exact h a b ha hb

theorem exists_of_forall₂ {α β : Type} {P : α → β → Prop} {xs : List α} {ys : List β}
    (h : List.Forall₂ P xs ys) {i : Nat} {x : α} (hx : xs[i]? = some x) :
    ∃ y, ys[i]? = some y ∧ P x y := by
  induction h generalizing i with
  | nil => exact absurd hx (by simp)
  | @cons a b _ _ hab _ ih =>
    cases i with
    | zero =>
      obtain rfl := Option.some.inj hx
      exact ⟨b, rfl, hab⟩
    | succ i => exact ih hx

theorem entry_of_rows {a b : Nat} {row : Array Term} (ha : m.rows.toList[a]? = some row)
    (hb : row.toList[b]? = some t) : m.entry a b = t := by
  rw [Array.getElem?_toList] at ha hb
  simp [Matrix.entry, Array.getD_eq_getD_getElem?, ha, hb]

theorem exists_row (h : m.Square n) {a : Nat} (ha : a < n) :
    ∃ row, m.rows.toList[a]? = some row ∧ row.size = n := by
  have hsize : m.rows.size = n := h.size
  have ha' : a < m.rows.size := hsize.symm ▸ ha
  refine ⟨m.rows[a], ?_, h.rows _ (Array.getElem_mem ha')⟩
  rw [Array.getElem?_toList, Array.getElem?_eq_getElem ha']

theorem nameRow_runs {row : Array Term} (h : ∀ t ∈ row, t.Formula (Upto S q.definitions)) :
    ∃ row' q₁, Runs (row.mapM name) q row' q₁ ∧ Defines S q q₁ ∧
      List.Forall₂ (fun t u => Renames S t u q₁) row.toList row'.toList := by
  obtain ⟨us, q₁, hrun, hd, hus⟩ := Runs.exists_mapM (f := name) (R := Defines S)
    (Q := fun t u q => Renames S t u q) (s := q) (Defines.refl S)
    (fun _ _ _ h k => h.trans k) (fun _ _ _ _ h k => k.mono h.grown)
    fun (t : Term) (ht : t ∈ row.toList) q' hq' =>
      name_runs (hq'.grown.formula (h t (Array.mem_toList_iff.1 ht)))
  exact ⟨us.toArray, q₁, Runs.array_mapM_iff.2 hrun, hd, hus⟩

theorem nameRows_runs (h : ∀ row ∈ m.rows, ∀ t ∈ row, t.Formula (Upto S q.definitions)) :
    ∃ m' q₁, Runs (nameAll m) q m' q₁ ∧ Defines S q q₁ ∧ List.Forall₂
      (fun row row' => List.Forall₂ (fun t u => Renames S t u q₁) row.toList row'.toList)
      m.rows.toList m'.rows.toList := by
  obtain ⟨rows, q₁, hrun, hd, hrows⟩ := Runs.exists_mapM (f := fun row => row.mapM name)
    (R := Defines S) (Q := fun (row row' : Array Term) q =>
      List.Forall₂ (fun t u => Renames S t u q) row.toList row'.toList)
    (s := q) (Defines.refl S) (fun _ _ _ h k => h.trans k)
    (fun _ _ _ _ h k => k.imp fun _ _ hr => hr.mono h.grown)
    fun row (hrow : row ∈ m.rows.toList) q' hq' => nameRow_runs fun t ht =>
      hq'.grown.formula (h row (Array.mem_toList_iff.1 hrow) t ht)
  refine ⟨⟨rows.toArray⟩, q₁, ?_, hd, hrows⟩
  rw [nameAll]
  simp only [Runs.bind_iff, Runs.array_mapM_iff, Runs.pure_iff]
  exact ⟨rows.toArray, q₁, hrun, rfl, rfl⟩

theorem nameAll_runs (hm : Formed S q n m) : ∃ m' q₁, Runs (nameAll m) q m' q₁ ∧
    Defines S q q₁ ∧ Formed S q₁ n m' ∧
      ∀ a b, a < n → b < n → Renames S (m.entry a b) (m'.entry a b) q₁ := by
  have hall : ∀ row ∈ m.rows, ∀ t ∈ row, t.Formula (Upto S q.definitions) := by
    intro row hrow t ht
    obtain ⟨a, ha, rfl⟩ := Array.mem_iff_getElem.1 hrow
    obtain ⟨b, hb, rfl⟩ := Array.mem_iff_getElem.1 ht
    have hr := hm.square.rows _ (Array.getElem_mem ha)
    have he : m.entry a b = m.rows[a][b] := by simp [Matrix.entry, ha, hb]
    rw [← he]
    exact hm.formula a b (hm.square.size ▸ ha) (hr ▸ hb)
  obtain ⟨m', q₁, hrun, hd, hrows⟩ := nameRows_runs hall
  have hsquare : m'.Square n := by
    constructor
    · have hlen := hrows.length_eq
      rw [Array.length_toList, Array.length_toList] at hlen
      exact hlen.symm.trans hm.square.size
    · intro row' hrow'
      obtain ⟨row, hrow, hr⟩ := forall₂_mem_right hrows (Array.mem_toList_iff.2 hrow')
      have hlen := hr.length_eq
      rw [Array.length_toList, Array.length_toList] at hlen
      rw [← hlen]
      exact hm.square.rows row (Array.mem_toList_iff.1 hrow)
  have hentries : ∀ a b, a < n → b < n → Renames S (m.entry a b) (m'.entry a b) q₁ := by
    intro a b ha hb
    obtain ⟨row, hrow, hsize⟩ := exists_row hm.square ha
    have ht : row.toList[b]? = some row[b] := by
      rw [Array.getElem?_toList, Array.getElem?_eq_getElem (hsize.symm ▸ hb)]
    obtain ⟨row', hrow', hr⟩ := exists_of_forall₂ hrows hrow
    obtain ⟨u, hu, htu⟩ := exists_of_forall₂ hr ht
    rw [entry_of_rows hrow ht, entry_of_rows hrow' hu]
    exact htu
  exact ⟨m', q₁, hrun, hd, ⟨hsquare, fun a b ha hb => (hentries a b ha hb).formula⟩, hentries⟩

end Consistency.Query
