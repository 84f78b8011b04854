import Consistency.Proofs.MemoryModel.Meaning

/-!
# Validation is exact

A model is accepted exactly if each name is new, every name referred to is
defined and no definition leads back to itself. The search for cycles goes along
references: its path has no more names than are defined, so it ends before its
fuel does, and a name that it meets again is reached from itself.
-/

set_option autoImplicit false

namespace Consistency.MemoryModel
open Relation (TransGen)
variable {m : MemoryModel} {name y z : String} {e : RelExpr} {err : ModelError}

def definedNames (m : MemoryModel) : List String := m.relations.map Prod.fst

def RefersTo (m : MemoryModel) (x y : String) : Prop := ∃ e, (x, e) ∈ m.relations ∧ y ∈ e.names

/-- No name is taken, all that is mentioned is defined, and nothing through itself. -/
structure Valid (m : MemoryModel) : Prop where
  unshadowed : ∀ x ∈ m.definedNames, BaseRelation.ofName? x = none
  distinct : m.definedNames.Nodup
  relations : ∀ d ∈ m.relations, ∀ y ∈ d.2.names, y ∈ m.definedNames
  axioms : ∀ a ∈ m.axioms, ∀ y ∈ a.rel.names, y ∈ m.definedNames
  acyclic : ∀ x, ¬ TransGen m.RefersTo x x

def Blames (m : MemoryModel) : ModelError → Prop
  | .unknownRelation y cited => y ∉ m.definedNames ∧
      ((∃ e, (cited, e) ∈ m.relations ∧ y ∈ e.names) ∨
        ∃ a ∈ m.axioms, a.name = cited ∧ y ∈ a.rel.names)
  | .recursiveRelation x => TransGen m.RefersTo x x
  | .duplicateRelation x => x ∈ m.definedNames ∧
      ((BaseRelation.ofName? x).isSome = true ∨ 1 < m.definedNames.count x)
  | .unreadable _ _ | .unknownKind _ => False

theorem defines_iff : m.defines y = true ↔ y ∈ m.definedNames := by
  refine ⟨fun h => ?_, defines_of_mem⟩
  obtain ⟨e, he⟩ := Option.isSome_iff_exists.1 h
  exact List.mem_map.2 ⟨_, relation?_mem he, rfl⟩

theorem checkNames_ok {seen : List String} {ds : List (String × RelExpr)} :
    checkNames seen ds = .ok () ↔
      (∀ x ∈ ds.map Prod.fst, BaseRelation.ofName? x = none ∧ x ∉ seen) ∧
        (ds.map Prod.fst).Nodup := by
  induction ds generalizing seen with
  | nil => simp [checkNames]
  | cons d ds ih =>
    obtain ⟨x, e⟩ := d
    rw [checkNames, List.map_cons, List.forall_mem_cons, List.nodup_cons]
    by_cases h : (BaseRelation.ofName? x).isSome = true ∨ x ∈ seen
    · rw [if_pos h]
      refine ⟨fun hbad => absurd hbad (by simp), fun hgood => ?_⟩
      rcases h with h | h
      · rw [hgood.1.1.1] at h
        exact absurd h (by decide)
      · exact absurd h hgood.1.1.2
    · rw [if_neg h, ih]
      simp only [not_or, Bool.not_eq_true, Option.isSome_eq_false_iff,
        Option.isNone_iff_eq_none] at h
      constructor
      · rintro ⟨hall, hnodup⟩
        refine ⟨⟨h, fun y hy => ⟨(hall y hy).1, ?_⟩⟩, ?_, hnodup⟩
        · exact fun hs => (hall y hy).2 (List.mem_cons_of_mem _ hs)
        · exact fun hx => (hall x hx).2 (by simp)
      · rintro ⟨⟨-, hall⟩, hx, hnodup⟩
        refine ⟨fun y hy => ⟨(hall y hy).1, fun hs => ?_⟩, hnodup⟩
        rcases List.mem_cons.1 hs with rfl | hs
        · exact hx hy
        · exact (hall y hy).2 hs

theorem checkNames_error {seen : List String} {ds : List (String × RelExpr)}
    (h : checkNames seen ds = .error err) : ∃ x ∈ ds.map Prod.fst, err = .duplicateRelation x ∧
      ((BaseRelation.ofName? x).isSome = true ∨ 1 < (seen ++ ds.map Prod.fst).count x) := by
  induction ds generalizing seen with
  | nil => exact absurd h (by simp [checkNames])
  | cons d ds ih =>
    obtain ⟨x, e⟩ := d
    rw [checkNames] at h
    split at h
    · next htaken =>
      refine ⟨x, by simp, (Except.error.inj h).symm, htaken.imp_right fun hseen => ?_⟩
      have := List.count_pos_iff.2 hseen
      simp only [List.map_cons, List.count_append, List.count_cons_self]
      omega
    · obtain ⟨y, hy, rfl, hbad⟩ := ih h
      refine ⟨y, List.mem_cons_of_mem _ hy, rfl, hbad.imp_right fun hcount => ?_⟩
      simp only [List.map_cons, List.count_append, List.count_cons] at *
      omega

theorem checkReferences_ok_iff {cited : String} : m.checkReferences e cited = .ok () ↔
    ∀ y ∈ e.names, y ∈ m.definedNames := by
  simp only [← defines_iff]
  exact ⟨checkReferences_ok, checkReferences_of_defined⟩

theorem checkReferences_error {cited : String} (h : m.checkReferences e cited = .error err) :
    ∃ y ∈ e.names, y ∉ m.definedNames ∧ err = .unknownRelation y cited := by
  unfold checkReferences at h
  split at h
  · next y hy =>
    refine ⟨y, mem_references.1 (List.mem_of_find?_eq_some hy), ?_, (Except.error.inj h).symm⟩
    rw [← defines_iff]
    simpa using List.find?_some hy
  · exact absurd h (by simp)

structure LeadsTo (m : MemoryModel) (path : List String) (name : String) : Prop where
  reaches : ∀ x ∈ path, TransGen m.RefersTo x name
  defined : path ⊆ m.definedNames
  nodup : path.Nodup

theorem LeadsTo.length_le {path : List String} (h : m.LeadsTo path name) :
    path.length ≤ m.relations.length := length_le_of_nodup h.nodup h.defined

theorem LeadsTo.cons {path : List String} (h : m.LeadsTo path name) (hnew : name ∉ path)
    (he : m.relation? name = some e) (hy : y ∈ e.names) : m.LeadsTo (name :: path) y := by
  have hrefers : m.RefersTo name y := ⟨e, relation?_mem he, hy⟩
  refine ⟨List.forall_mem_cons.2 ⟨.single hrefers, fun x hx => ?_⟩,
    List.cons_subset.2 ⟨?_, h.defined⟩, List.nodup_cons.2 ⟨hnew, h.nodup⟩⟩
  · exact (h.reaches x hx).tail hrefers
  · exact List.mem_map.2 ⟨_, relation?_mem he, rfl⟩

/-- A visit that fails has met a name on its own path. -/
theorem visit_error {fuel : Nat} {path seen : List String} (hpath : m.LeadsTo path name)
    (hfuel : m.relations.length < path.length + fuel)
    (h : m.visit fuel path seen name = .error err) :
    ∃ x, err = .recursiveRelation x ∧ TransGen m.RefersTo x x := by
  induction fuel generalizing path seen name with
  | zero => exact absurd hpath.length_le (Nat.not_le.2 hfuel)
  | succ fuel ih =>
    rw [visit] at h
    split at h
    · exact absurd h (by simp)
    · split at h
      · next hmet => exact ⟨name, (Except.error.inj h).symm, hpath.reaches name hmet⟩
      · next hnew =>
        split at h
        · exact absurd h (by simp)
        · next e he =>
          rcases bind_eq_error.1 h with hfold | ⟨_, _, hpure⟩
          · obtain ⟨y, hy, seen', hvisit⟩ := foldlM_error hfold
            refine ih (hpath.cons hnew he (mem_references.1 hy)) ?_ hvisit
            rw [List.length_cons]
            omega
          · exact absurd hpure (by simp [pure, Except.pure])

theorem checkCycles_error (h : m.checkCycles = .error err) :
    ∃ x, err = .recursiveRelation x ∧ TransGen m.RefersTo x x := by
  obtain ⟨x, -, seen, hvisit⟩ := foldlM_error h
  have hstart : m.LeadsTo [] x := ⟨by simp, by simp, by simp⟩
  refine visit_error hstart ?_ hvisit
  rw [List.length_nil]
  omega

/-- References lead on to names that come later in the layers. -/
theorem Layered.acyclic (hdistinct : m.definedNames.Nodup) {names : List String}
    (h : m.Layered names) : ∀ x ∈ names, ¬ TransGen m.RefersTo x x := by
  have hrefers : ∀ {x y}, m.RefersTo x y → ∃ e, m.relation? x = some e ∧ y ∈ e.names :=
    fun ⟨e, he, hy⟩ => ⟨e, (lookup_eq_some_iff hdistinct).2 he, hy⟩
  induction h with
  | nil => simp
  | @cons x e rest he hnames hfresh hl ih =>
    have hstay : ∀ {y z}, y ∈ rest → TransGen m.RefersTo y z → z ∈ rest := by
      intro y z hy hyz
      induction hyz with
      | single h =>
        obtain ⟨d, hd, hz⟩ := hrefers h
        exact hl.names_mem y hy d hd _ hz
      | tail _ h ih =>
        obtain ⟨d, hd, hz⟩ := hrefers h
        exact hl.names_mem _ ih d hd _ hz
    refine List.forall_mem_cons.2 ⟨fun hcycle => ?_, ih⟩
    obtain ⟨y, hxy, hyx⟩ := Relation.TransGen.head'_iff.1 hcycle
    obtain ⟨d, hd, hy⟩ := hrefers hxy
    obtain rfl := Option.some.inj (he.symm.trans hd)
    have hrest := hnames y hy
    rcases Relation.reflTransGen_iff_eq_or_transGen.1 hyx with rfl | hyx
    · exact hfresh hrest
    · exact hfresh (hstay hrest hyx)

theorem validate_error (h : m.validate = .error err) : checkNames [] m.relations = .error err ∨
    (∃ d ∈ m.relations, m.checkReferences d.2 d.1 = .error err) ∨
      (∃ a ∈ m.axioms, m.checkReferences a.rel a.name = .error err) ∨
        m.checkCycles = .error err := by
  rcases bind_eq_error.1 h with h | ⟨_, _, h⟩
  · exact .inl h
  rcases bind_eq_error.1 h with h | ⟨_, _, h⟩
  · exact .inr (.inl (forM_error h))
  rcases bind_eq_error.1 h with h | ⟨_, _, h⟩
  · exact .inr (.inr (.inl (forM_error h)))
  rcases bind_eq_error.1 h with h | ⟨_, _, h⟩
  · exact .inr (.inr (.inr h))
  · exact absurd h (by simp [pure, Except.pure])

theorem valid_of_validate (h : m.validate = .ok ()) : m.Valid := by
  obtain ⟨-, names, hlayered, hall⟩ := layered_of_valid h
  obtain ⟨hnames, hrelations, haxioms, -⟩ := validate_ok.1 h
  obtain ⟨hfree, hdistinct⟩ := checkNames_ok.1 hnames
  refine {
    unshadowed := fun x hx => (hfree x hx).1
    distinct := hdistinct
    relations := fun d hd => checkReferences_ok_iff.1 (hrelations d hd)
    axioms := fun a ha => checkReferences_ok_iff.1 (haxioms a ha)
    acyclic := fun x hcycle => ?_ }
  obtain ⟨y, ⟨e, he, -⟩, -⟩ := Relation.TransGen.head'_iff.1 hcycle
  have hx : x ∈ m.definedNames := List.mem_map.2 ⟨_, he, rfl⟩
  exact hlayered.acyclic hdistinct x (hall x (defines_iff.2 hx)) hcycle

theorem validate_of_valid (h : m.Valid) : m.validate = .ok () := by
  refine validate_ok.2 ⟨checkNames_ok.2 ⟨fun x hx => ⟨h.unshadowed x hx, by simp⟩, h.distinct⟩,
    fun d hd => checkReferences_ok_iff.2 (h.relations d hd),
    fun a ha => checkReferences_ok_iff.2 (h.axioms a ha), ?_⟩
  cases hcycles : m.checkCycles with
  | ok names => exact ⟨names, rfl⟩
  | error err =>
    obtain ⟨x, -, hx⟩ := checkCycles_error hcycles
    exact absurd hx (h.acyclic x)

theorem blames_of_validate (h : m.validate = .error err) : m.Blames err := by
  rcases validate_error h with h | ⟨d, hd, h⟩ | ⟨a, ha, h⟩ | h
  · obtain ⟨x, hx, rfl, hbad⟩ := checkNames_error h
    exact ⟨hx, hbad⟩
  · obtain ⟨y, hy, hnone, rfl⟩ := checkReferences_error h
    exact ⟨hnone, .inl ⟨d.2, hd, hy⟩⟩
  · obtain ⟨y, hy, hnone, rfl⟩ := checkReferences_error h
    exact ⟨hnone, .inr ⟨a, ha, rfl, hy⟩⟩
  · obtain ⟨x, rfl, hx⟩ := checkCycles_error h
    exact hx

/-- The models that are accepted are the valid ones, and an error names what is wrong. -/
theorem validate_exact (m : MemoryModel) :
    (m.validate = .ok () ↔ m.Valid) ∧ ∀ err, m.validate = .error err → m.Blames err :=
  ⟨⟨valid_of_validate, validate_of_valid⟩, fun _ => blames_of_validate⟩

example : validate ⟨"loop", [("a", .named "b"), ("b", .named "a")], []⟩ =
    .error (.recursiveRelation "a") := by cbv

end Consistency.MemoryModel
