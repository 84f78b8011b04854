import Mathlib.Data.List.Perm.Subperm
import Consistency.Proofs.Ordered.Map
import Consistency.Proofs.Relation.Denotation
import Consistency.Proofs.Run

/-!
# Valid models have one meaning

A valid model defines each name by names that are defined without it. The
search for cycles lists them so, each after those it refers to; along this list
a meaning is built up, and no other agrees with the definitions.
-/

set_option autoImplicit false

namespace Consistency
variable {g : EventGraph} {x : Choice} {ρ σ : Meaning}

theorem RelExpr.denotes_congr {e : RelExpr} (h : ∀ name ∈ e.names, ρ name = σ name) :
    e.Denotes g x ρ = e.Denotes g x σ := by
  induction e with
  | base rel => rfl
  | named name =>
    funext a b
    exact congrFun (congrFun (h name (by simp [names])) a) b
  | product s t => rfl
  | identity s => rfl
  | binary op d e ihd ihe =>
    funext a b
    have hd := ihd fun name hn => h name (List.mem_append_left _ hn)
    have he := ihe fun name hn => h name (List.mem_append_right _ hn)
    simp only [Denotes, hd, he]
  | suffixed op e ih =>
    funext a b
    simp only [Denotes, ih h]

namespace MemoryModel
variable {m : MemoryModel}

/-- Each name of the list is defined by names that come after it. -/
inductive Layered (m : MemoryModel) : List String → Prop where
  | nil : Layered m []
  | cons {name : String} {e : RelExpr} {rest : List String} : m.relation? name = some e →
      (∀ y ∈ e.names, y ∈ rest) → name ∉ rest → Layered m rest → Layered m (name :: rest)

structure Closed (m : MemoryModel) : Prop where
  relations : ∀ name e, m.relation? name = some e → ∀ y ∈ e.names, m.defines y = true
  axioms : ∀ d ∈ m.axioms, ∀ y ∈ d.rel.names, m.defines y = true

theorem mem_references {e : RelExpr} {y : String} : y ∈ e.references.toList ↔ y ∈ e.names :=
  OrderedSet.mem_ofList

theorem checkReferences_ok {e : RelExpr} {name : String} (h : m.checkReferences e name = .ok ()) :
    ∀ y ∈ e.names, m.defines y = true := by
  unfold checkReferences at h
  split at h
  · exact absurd h (by simp)
  · next hf =>
    intro y hy
    have := List.find?_eq_none.1 hf y (mem_references.2 hy)
    simpa using this

theorem checkReferences_of_defined {e : RelExpr} {name : String}
    (h : ∀ y ∈ e.names, m.defines y = true) : m.checkReferences e name = .ok () := by
  unfold checkReferences
  split
  · next y hy =>
    have hd := h y (mem_references.1 (List.mem_of_find?_eq_some hy))
    have hn := List.find?_some hy
    simp [hd] at hn
  · rfl

theorem validate_ok : m.validate = .ok () ↔ checkNames [] m.relations = .ok () ∧
    (∀ d ∈ m.relations, m.checkReferences d.2 d.1 = .ok ()) ∧
      (∀ a ∈ m.axioms, m.checkReferences a.rel a.name = .ok ()) ∧
        ∃ names, m.checkCycles = .ok names := by
  constructor
  · intro h
    obtain ⟨_, hnames, h⟩ := bind_eq_ok.1 h
    obtain ⟨_, hrelations, h⟩ := bind_eq_ok.1 h
    obtain ⟨_, haxioms, h⟩ := bind_eq_ok.1 h
    obtain ⟨names, hcycles, -⟩ := bind_eq_ok.1 h
    exact ⟨hnames, forM_ok hrelations, forM_ok haxioms, names, hcycles⟩
  · rintro ⟨hnames, hrelations, haxioms, names, hcycles⟩
    refine bind_eq_ok.2 ⟨_, hnames, bind_eq_ok.2 ⟨_, forM_of_ok hrelations, ?_⟩⟩
    exact bind_eq_ok.2 ⟨_, forM_of_ok haxioms, bind_eq_ok.2 ⟨names, hcycles, rfl⟩⟩

/-- What makes a model valid, whatever the order in which names are looked up. -/
theorem valid_of_defined (hnames : checkNames [] m.relations = .ok ())
    (hrelations : ∀ d ∈ m.relations, ∀ y ∈ d.2.names, m.defines y = true)
    (haxioms : ∀ d ∈ m.axioms, ∀ y ∈ d.rel.names, m.defines y = true)
    (hcycles : m.checkCycles.isOk = true) : m.validate = .ok () := by
  refine validate_ok.2 ⟨hnames, fun d hd => checkReferences_of_defined (hrelations d hd),
    fun d hd => checkReferences_of_defined (haxioms d hd), ?_⟩
  cases hc : m.checkCycles with
  | error e => simp [hc, Except.isOk, Except.toBool] at hcycles
  | ok names => exact ⟨names, rfl⟩

structure Visits (m : MemoryModel) (path seen after : List String) : Prop where
  layered : m.Layered after
  grows : seen ⊆ after
  avoids : ∀ y ∈ path, y ∈ after → y ∈ seen

theorem foldlM_visits (path : List String) {names seen after : List String}
    {visit : List String → String → Except ModelError (List String)}
    (hvisit : ∀ y ∈ names, m.defines y = true → ∀ seen after, m.Layered seen →
      visit seen y = .ok after → m.Visits path seen after ∧ y ∈ after)
    (hdef : ∀ y ∈ names, m.defines y = true) (hs : m.Layered seen)
    (h : names.foldlM visit seen = .ok after) :
    m.Visits path seen after ∧ ∀ y ∈ names, y ∈ after := by
  induction names generalizing seen with
  | nil =>
    obtain rfl := Except.ok.inj h
    exact ⟨⟨hs, fun _ h => h, fun _ _ h => h⟩, by simp⟩
  | cons y names ih =>
    rw [List.foldlM_cons] at h
    cases hy : visit seen y with
    | error e => simp [hy, bind, Except.bind] at h
    | ok mid =>
      rw [hy] at h
      obtain ⟨hv, hm⟩ := hvisit y (by simp) (hdef y (by simp)) seen mid hs hy
      obtain ⟨hw, hn⟩ := ih (fun z hz => hvisit z (List.mem_cons_of_mem _ hz))
        (fun z hz => hdef z (List.mem_cons_of_mem _ hz)) hv.layered h
      refine ⟨⟨hw.layered, List.Subset.trans hv.grows hw.grows, fun z hz ha => ?_⟩, ?_⟩
      · exact hv.avoids z hz (hw.avoids z hz ha)
      · exact List.forall_mem_cons.2 ⟨hw.grows hm, hn⟩

theorem visit_visits (hc : m.Closed) {fuel : Nat} {path seen after : List String} {name : String}
    (hd : m.defines name = true) (hs : m.Layered seen)
    (h : m.visit fuel path seen name = .ok after) : m.Visits path seen after ∧ name ∈ after := by
  induction fuel generalizing path seen after name with
  | zero => exact absurd h (by simp [visit])
  | succ fuel ih =>
    unfold visit at h
    split at h
    · next hm =>
      obtain rfl := Except.ok.inj h
      exact ⟨⟨hs, fun _ h => h, fun _ _ h => h⟩, hm⟩
    · next hnew =>
      split at h
      · exact absurd h (by simp)
      · next hpath =>
        split at h
        · next hnone =>
          rw [defines, hnone] at hd
          exact absurd hd (by decide)
        · next e he =>
          cases hf : e.references.toList.foldlM (m.visit fuel (name :: path)) seen with
          | error err => simp [hf, bind, Except.bind] at h
          | ok mid =>
            simp only [hf, bind, Except.bind] at h
            obtain rfl := Except.ok.inj h
            have hrefs : ∀ y ∈ e.references.toList, m.defines y = true := fun y hy =>
              hc.relations name e he y (mem_references.1 hy)
            obtain ⟨hv, hn⟩ := foldlM_visits _ (fun y hy hdy s t hs ht => ih hdy hs ht) hrefs hs hf
            have hfresh : name ∉ mid := fun hm => hnew (hv.avoids name (by simp) hm)
            refine ⟨⟨.cons he (fun y hy => hn y (mem_references.2 hy)) hfresh hv.layered,
              fun y hy => List.mem_cons_of_mem _ (hv.grows hy), fun y hy ha => ?_⟩, by simp⟩
            rcases List.mem_cons.1 ha with rfl | ha
            · exact absurd hy hpath
            · exact hv.avoids y (List.mem_cons_of_mem _ hy) ha

theorem relation?_mem {name : String} {e : RelExpr} (h : m.relation? name = some e) :
    (name, e) ∈ m.relations := mem_of_lookup h

theorem defines_of_mem {name : String} (h : name ∈ m.relations.map Prod.fst) :
    m.defines name = true := by
  rw [defines, relation?, Option.isSome_iff_ne_none, ne_eq, List.lookup_eq_none_iff]
  intro hall
  obtain ⟨d, hd, rfl⟩ := List.mem_map.1 h
  simpa using hall d hd

/-- A valid model refers to defined names only, and lists them one after the other. -/
theorem layered_of_valid (h : m.validate = .ok ()) : m.Closed ∧
    ∃ names, m.Layered names ∧ ∀ y, m.defines y = true → y ∈ names := by
  obtain ⟨-, hrel, hax, names, hcyc⟩ := validate_ok.1 h
  have hclosed : m.Closed := {
    relations := fun name e he => checkReferences_ok (hrel _ (relation?_mem he))
    axioms := fun d hd => checkReferences_ok (hax d hd) }
  refine ⟨hclosed, names, ?_⟩
  obtain ⟨hv, hn⟩ := foldlM_visits [] (fun y _ hy s t hs ht => visit_visits hclosed hy hs ht)
    (fun y hy => defines_of_mem hy) .nil hcyc
  refine ⟨hv.layered, fun y hy => hn y ?_⟩
  rw [defines, Option.isSome_iff_exists] at hy
  obtain ⟨e, he⟩ := hy
  exact List.mem_map.2 ⟨_, relation?_mem he, rfl⟩

/-- What holds of a name if it holds of all names that it is defined by, holds of all that a valid
model defines. By induction on the names, each listed before those it is defined by. -/
theorem defined_induction (h : m.validate = .ok ()) {P : String → Prop}
    (step : ∀ name e, m.relation? name = some e → (∀ y ∈ e.names, P y) → P name) :
    ∀ name, m.defines name = true → P name := by
  obtain ⟨-, names, hl, hall⟩ := layered_of_valid h
  suffices key : ∀ name ∈ names, P name from fun name hn => key name (hall name hn)
  clear hall
  induction hl with
  | nil => simp
  | @cons name e rest he hrefs _ _ ih =>
    exact List.forall_mem_cons.2 ⟨step name e he fun y hy => ih y (hrefs y hy), ih⟩

/-- Names that differ are no more than there are definitions. -/
theorem length_le_of_nodup {names : List String} (h : names.Nodup)
    (hs : names ⊆ m.relations.map Prod.fst) : names.length ≤ m.relations.length := by
  have hle := (h.subperm hs).length_le
  rwa [List.length_map] at hle

theorem Layered.length_le {names : List String} (h : m.Layered names) :
    names.length ≤ m.relations.length := by
  have key : names.Nodup ∧ names ⊆ m.relations.map Prod.fst := by
    induction h with
    | nil => simp
    | @cons name e rest he _ hfresh _ ih =>
      refine ⟨List.nodup_cons.2 ⟨hfresh, ih.1⟩, List.cons_subset.2 ⟨?_, ih.2⟩⟩
      exact List.mem_map.2 ⟨_, relation?_mem he, rfl⟩
  exact length_le_of_nodup key.1 key.2

theorem Layered.names_mem {names : List String} (h : m.Layered names) : ∀ y ∈ names,
    ∀ e, m.relation? y = some e → ∀ z ∈ e.names, z ∈ names := by
  induction h with
  | nil => simp
  | @cons name e rest he hrefs _ _ ih =>
    intro y hy d hd z hz
    rcases List.mem_cons.1 hy with rfl | hy
    · obtain rfl := Option.some.inj (he.symm.trans hd)
      exact List.mem_cons_of_mem _ (hrefs z hz)
    · exact List.mem_cons_of_mem _ (ih y hy d hd z hz)

theorem meaning_of_layered (g : EventGraph) (x : Choice) {names : List String}
    (h : m.Layered names) : ∃ ρ : Meaning, ∀ name ∈ names, ∀ e, m.relation? name = some e →
      ρ name = e.Denotes g x ρ := by
  induction h with
  | nil => exact ⟨fun _ _ _ => False, by simp⟩
  | @cons name e rest he hrefs hfresh hl ih =>
    obtain ⟨ρ, hρ⟩ := ih
    have hold : ∀ y ∈ rest, Function.update ρ name (e.Denotes g x ρ) y = ρ y := by
      intro y hy
      refine Function.update_of_ne ?_ _ _
      rintro rfl
      exact hfresh hy
    refine ⟨Function.update ρ name (e.Denotes g x ρ), fun y hy d hd => ?_⟩
    rcases List.mem_cons.1 hy with rfl | hy
    · obtain rfl := Option.some.inj (he.symm.trans hd)
      rw [Function.update_self]
      exact RelExpr.denotes_congr fun z hz => (hold z (hrefs z hz)).symm
    · rw [hold y hy, hρ y hy d hd]
      exact RelExpr.denotes_congr fun z hz => (hold z (hl.names_mem y hy d hd z hz)).symm

theorem exists_meaning (h : m.validate = .ok ()) (g : EventGraph) (x : Choice) :
    ∃ ρ, m.Interprets g x ρ := by
  obtain ⟨-, names, hl, hall⟩ := layered_of_valid h
  obtain ⟨ρ, hρ⟩ := meaning_of_layered g x hl
  refine ⟨ρ, fun name e he a b => ?_⟩
  rw [hρ name (hall name (by rw [defines, he]; rfl)) e he]

/-- The definitions leave no choice. -/
theorem meaning_unique (h : m.validate = .ok ()) (hρ : m.Interprets g x ρ)
    (hσ : m.Interprets g x σ) : ∀ name, m.defines name = true → ρ name = σ name := by
  refine defined_induction h fun name e he hnames => ?_
  have hsame := RelExpr.denotes_congr (g := g) (x := x) hnames
  funext a b
  rw [eq_iff_iff, hρ name e he a b, hσ name e he a b, hsame]

theorem admits_iff (h : m.validate = .ok ()) (hρ : m.Interprets g x ρ) :
    m.Admits g x ↔ ∀ d ∈ m.axioms, d.kind.Holds (d.rel.Denotes g x ρ) := by
  refine ⟨fun ⟨σ, hσ, hd⟩ d hm => ?_, fun hd => ⟨ρ, hρ, hd⟩⟩
  have hc := (layered_of_valid h).1
  rw [RelExpr.denotes_congr fun y hy => meaning_unique h hρ hσ y (hc.axioms d hm y hy)]
  exact hd d hm

end MemoryModel
end Consistency
