import Consistency.Proofs.Query.Odometer
import Consistency.Proofs.Query.Requirement
import Consistency.Query.Domain

/-!
# Values of terms

The integers found for a term are its values under all ways to pick a value for
each of its names. The search is given up only if a name has no values known, or
the names have too many combinations, and no name before is without any value.
-/

set_option autoImplicit false

namespace Consistency.Query
variable {v : Valuation} {domains symbols : OrderedMap String Values} {x : String}
  {xs : List String} {ws : List Wheel} {t : Term} {values : Values} {n : Int} {c : Nat}

def valuesOf (m : OrderedMap String Values) (x : String) : Values := (m.get? x).getD .empty

def Inside (domains : OrderedMap String Values) (v : Valuation) (x : String) : Prop :=
  ∀ values, domains.get? x = some values → v x ∈ values.toList

def Picked (symbols : OrderedMap String Values) (v : Valuation) (t : Term) : Prop :=
  ∀ x ∈ t.consts, ∃ values, symbols.get? x = some values ∧ v x ∈ values.toList

/-- A name without known values comes before any that has none, or one with which the combinations
become too many, `c` being their number before. -/
def GivenUp (symbols : OrderedMap String Values) (c : Nat) (xs : List String) : Prop :=
  ∃ before x after, xs = before ++ x :: after ∧ (∀ y ∈ before, (valuesOf symbols y).size ≠ 0) ∧
    (symbols.get? x = none ∨
      maxCombinations < c * ((before ++ [x]).map fun y => (valuesOf symbols y).size).prod)

theorem valuesOf_of_get? (h : symbols.get? x = some values) : valuesOf symbols x = values := by
  rw [valuesOf, h, Option.getD_some]

theorem size_ne_zero_of_wheel {w : Wheel} (h : Wheel.ofValues? x values.toList = some w) :
    values.size ≠ 0 := by
  intro hzero
  rw [Wheel.ofValues?_eq_none.2 (List.length_eq_zero_iff.1 hzero)] at h
  exact absurd h (by simp)

theorem not_givenUp_nil : ¬ GivenUp symbols c [] := by
  rintro ⟨before, x, after, hsplit, -⟩
  exact absurd hsplit (by simp)

theorem givenUp_cons : GivenUp symbols c (x :: xs) ↔ symbols.get? x = none ∨
    maxCombinations < c * (valuesOf symbols x).size ∨
      (valuesOf symbols x).size ≠ 0 ∧ GivenUp symbols (c * (valuesOf symbols x).size) xs := by
  constructor
  · rintro ⟨before, y, after, hsplit, hbefore, hstop⟩
    cases before with
    | nil =>
      obtain ⟨rfl, rfl⟩ := List.cons.inj hsplit
      rcases hstop with hunknown | hmany
      · exact .inl hunknown
      · exact .inr (.inl (by simpa using hmany))
    | cons z before =>
      obtain ⟨rfl, rfl⟩ := List.cons.inj hsplit
      rw [List.forall_mem_cons] at hbefore
      refine .inr (.inr ⟨hbefore.1, before, y, after, rfl, hbefore.2, ?_⟩)
      simpa [Nat.mul_assoc] using hstop
  · rintro (hunknown | hmany | ⟨hsome, before, y, after, rfl, hbefore, hstop⟩)
    · exact ⟨[], x, xs, rfl, by simp, .inl hunknown⟩
    · exact ⟨[], x, xs, rfl, by simp, .inr (by simpa using hmany)⟩
    · refine ⟨x :: before, y, after, rfl, List.forall_mem_cons.2 ⟨hsome, hbefore⟩, ?_⟩
      simpa [Nat.mul_assoc] using hstop

theorem boundsOf_open : boundsOf symbols c xs = .open ↔ GivenUp symbols c xs := by
  fun_induction boundsOf symbols c xs with
  | case1 c => simp [not_givenUp_nil]
  | case2 c x xs hx => simp [givenUp_cons, hx]
  | case3 c x xs values hx hw =>
    have hnone : values.size = 0 := by rw [OrderedSet.size, Wheel.ofValues?_eq_none.1 hw]; rfl
    simp [givenUp_cons, valuesOf_of_get? hx, hx, hnone]
  | case4 c x xs values hx w hw hmany => simp [givenUp_cons, valuesOf_of_get? hx, hmany]
  | case5 c x xs values hx w hw hfew rest hrest ih =>
    have hsome := size_ne_zero_of_wheel hw
    rw [hrest] at ih
    simp [givenUp_cons, valuesOf_of_get? hx, hx, hfew, hsome, ← ih]
  | case6 c x xs values hx w hw hfew hrest ih =>
    have hsome := size_ne_zero_of_wheel hw
    simp [givenUp_cons, valuesOf_of_get? hx, hx, hfew, hsome, ← ih]

theorem boundsOf_empty (h : boundsOf symbols c xs = .empty) :
    ∃ x ∈ xs, ∃ values, symbols.get? x = some values ∧ values.toList = [] := by
  fun_induction boundsOf symbols c xs with
  | case1 c => exact absurd h (by simp)
  | case2 c x xs hx => exact absurd h (by simp)
  | case3 c x xs values hx hw =>
    exact ⟨x, List.mem_cons_self, values, hx, Wheel.ofValues?_eq_none.1 hw⟩
  | case4 c x xs values hx w hw hmany => exact absurd h (by simp)
  | case5 c x xs values hx w hw hfew rest hrest ih => exact absurd h (by simp)
  | case6 c x xs values hx w hw hfew hrest ih =>
    obtain ⟨y, hy, hnone⟩ := ih h
    exact ⟨y, List.mem_cons_of_mem x hy, hnone⟩

/-- There is a wheel for each name, which starts with the first of its values. -/
theorem boundsOf_finite (h : boundsOf symbols c xs = .finite ws) :
    ws.map Wheel.face = xs.map (fun x => (x, (valuesOf symbols x).toList)) ∧
      ws.map Wheel.restart = ws ∧ ∀ x ∈ xs, symbols.get? x = some (valuesOf symbols x) := by
  fun_induction boundsOf symbols c xs generalizing ws with
  | case1 c =>
    obtain rfl := Bounds.finite.inj h
    simp
  | case2 c x xs hx => exact absurd h (by simp)
  | case3 c x xs values hx hw => exact absurd h (by simp)
  | case4 c x xs values hx w hw hmany => exact absurd h (by simp)
  | case5 c x xs values hx w hw hfew rest hrest ih =>
    obtain rfl := Bounds.finite.inj h
    obtain ⟨hfaces, hstart, hknown⟩ := ih hrest
    obtain ⟨hface, hfirst⟩ := Wheel.ofValues?_eq_some hw
    have hx' : symbols.get? x = some (valuesOf symbols x) := by rw [hx, valuesOf_of_get? hx]
    refine ⟨?_, ?_, List.forall_mem_cons.2 ⟨hx', hknown⟩⟩
    · rw [List.map_cons, List.map_cons, hfaces, hface, valuesOf_of_get? hx]
    · rw [List.map_cons, hstart, hfirst]
  | case6 c x xs values hx w hw hfew hrest ih => exact absurd h (hrest ws)

def pickedBy (ws : List Wheel) : Valuation := fun x =>
  ((ws.find? (·.name == x)).map Wheel.value).getD 0

theorem exists_wheel (hx : x ∈ ws.map Wheel.name) :
    ∃ w ∈ ws, w.name = x ∧ ws.find? (·.name == x) = some w := by
  obtain ⟨u, hu, rfl⟩ := List.mem_map.1 hx
  cases hfind : ws.find? (·.name == u.name) with
  | none => exact absurd (List.find?_eq_none.1 hfind u hu) (by simp)
  | some w =>
    have hname : w.name = u.name := by simpa using List.find?_some hfind
    exact ⟨w, List.mem_of_find?_eq_some hfind, hname, rfl⟩

theorem shown_eq (h : ∀ w ∈ ws, w.value = v w.name) (hx : x ∈ ws.map Wheel.name) :
    shown ws x = v.environment x := by
  obtain ⟨w, hw, rfl, hfind⟩ := exists_wheel hx
  rw [shown, hfind, Option.map_some, h w hw]
  rfl

/-- Wheels can show all values picked for their names. -/
theorem exists_shown (h : ∀ w ∈ ws, v w.name ∈ w.values) :
    ∃ shown : List Wheel, shown.map Wheel.face = ws.map Wheel.face ∧
      ∀ w ∈ shown, w.value = v w.name := by
  induction ws with
  | nil => exact ⟨[], rfl, by simp⟩
  | cons w ws ih =>
    rw [List.forall_mem_cons] at h
    obtain ⟨rest, hfaces, hrest⟩ := ih h.2
    obtain ⟨first, hface, hvalue⟩ := Wheel.exists_shows h.1
    have hname : first.name = w.name := congrArg Prod.fst hface
    exact ⟨first :: rest, by rw [List.map_cons, List.map_cons, hface, hfaces],
      List.forall_mem_cons.2 ⟨by rw [hvalue, hname], hrest⟩⟩

section Faces
variable (hf : ws.map Wheel.face = xs.map fun x => (x, (valuesOf symbols x).toList))
include hf

theorem names_of_faces : ws.map Wheel.name = xs := by
  have hnames := congrArg (List.map Prod.fst) hf
  simpa [Wheel.face, Function.comp_def] using hnames

theorem values_of_faces {w : Wheel} (hw : w ∈ ws) :
    w.values = (valuesOf symbols w.name).toList := by
  have hface : w.face ∈ xs.map fun x => (x, (valuesOf symbols x).toList) :=
    hf ▸ List.mem_map_of_mem hw
  obtain ⟨x, -, hx⟩ := List.mem_map.1 hface
  obtain ⟨rfl, hvalues⟩ := Prod.mk.inj hx
  exact hvalues.symm

/-- What the wheels can show are the values that can be picked for the names. -/
theorem shows_iff_picks (ht : ∀ x ∈ t.consts, x ∈ xs) :
    (∃ turned : List Wheel, turned.map Wheel.face = ws.map Wheel.face ∧
      (t.eval (shown turned)).bind Value.int? = some n) ↔
        ∃ v : Valuation, (∀ x ∈ xs, v x ∈ (valuesOf symbols x).toList) ∧
          t.Computes v.environment n := by
  have hcomputes : ∀ env, (t.eval env).bind Value.int? = some n ↔ t.Computes env n := by
    intro env
    simp [Option.bind_eq_some_iff, Value.int?_eq_some, Term.Computes]
  simp only [hcomputes]
  constructor
  · rintro ⟨turned, hfaces, hn⟩
    rw [hf] at hfaces
    refine ⟨pickedBy turned, fun x hx => ?_, ?_⟩
    · rw [← names_of_faces hfaces] at hx
      obtain ⟨w, hw, rfl, hfind⟩ := exists_wheel hx
      rw [← values_of_faces hfaces hw, pickedBy, hfind]
      exact w.value_mem
    · rw [Term.Computes, ← hn]
      refine Term.eval_congr t fun x hx => ?_
      have hname := ht x hx
      rw [← names_of_faces hfaces] at hname
      obtain ⟨w, -, rfl, hfind⟩ := exists_wheel hname
      rw [shown, Valuation.environment, pickedBy, hfind]
      rfl
  · rintro ⟨v, hv, hn⟩
    have hpicks : ∀ w ∈ ws, v w.name ∈ w.values := by
      intro w hw
      rw [values_of_faces hf hw]
      exact hv w.name (names_of_faces hf ▸ List.mem_map_of_mem hw)
    obtain ⟨turned, hfaces, hvalues⟩ := exists_shown hpicks
    refine ⟨turned, hfaces, ?_⟩
    rw [Term.Computes, ← hn]
    refine Term.eval_congr t fun x hx => shown_eq hvalues ?_
    rw [names_of_faces (hfaces.trans hf)]
    exact ht x hx

end Faces

theorem possibleValues_eq_none : possibleValues t symbols = none ↔
    GivenUp symbols 1 (OrderedSet.ofList t.consts).toList := by
  rw [← boundsOf_open]
  unfold possibleValues
  cases boundsOf symbols 1 (OrderedSet.ofList t.consts).toList <;> simp

/-- Either a name has no value at all, or all names have known values. -/
theorem possibleValues_cases (h : possibleValues t symbols = some values) :
    (values = .empty ∧ ∃ x ∈ t.consts, ∃ known, symbols.get? x = some known ∧ known.toList = []) ∨
      (∀ x ∈ t.consts, symbols.get? x = some (valuesOf symbols x)) ∧
        ∀ n, n ∈ values.toList ↔ ∃ v : Valuation,
          (∀ x ∈ t.consts, v x ∈ (valuesOf symbols x).toList) ∧ t.Computes v.environment n := by
  have hnames : ∀ x, x ∈ (OrderedSet.ofList t.consts).toList ↔ x ∈ t.consts :=
    fun x => OrderedSet.mem_ofList
  unfold possibleValues at h
  split at h
  · exact absurd h (by simp)
  · next hempty =>
    obtain ⟨x, hx, hnone⟩ := boundsOf_empty hempty
    exact .inl ⟨(Option.some.inj h).symm, x, (hnames x).1 hx, hnone⟩
  · next ws hfinite =>
    obtain ⟨hfaces, hstart, hknown⟩ := boundsOf_finite hfinite
    obtain rfl := Option.some.inj h
    refine .inr ⟨fun x hx => hknown x ((hnames x).2 hx), fun n => ?_⟩
    have hpicks := shows_iff_picks (n := n) hfaces fun x hx => (hnames x).2 hx
    simp only [hnames] at hpicks
    rw [Stage.mem_gather, ← hpicks]
    simp only [Stage.leads_trying_iff hstart]
    simp [OrderedSet.empty]

theorem mem_possibleValues (h : possibleValues t domains = some values)
    (hd : ∀ x ∈ t.consts, Inside domains v x) (ht : t.Computes v.environment n) :
    n ∈ values.toList := by
  rcases possibleValues_cases h with ⟨-, x, hx, known, hget, hnone⟩ | ⟨hknown, hvalues⟩
  · have hmem := hd x hx known hget
    rw [hnone] at hmem
    exact absurd hmem (by simp)
  · exact (hvalues n).2 ⟨v, fun x hx => hd x hx _ (hknown x hx), ht⟩

/-- The search for the values of a term finds all values it takes when one known value is picked
for each of its names, and only these. It is given up exactly if a name without known values, or
too many combinations, are met before a name that has no value at all. Its wheels come to a stop
from wherever they are. -/
theorem possibleValues_exact (t : Term) (symbols : OrderedMap String Values) :
    (possibleValues t symbols = none ↔
      GivenUp symbols 1 (OrderedSet.ofList t.consts).toList) ∧
    (∀ values, possibleValues t symbols = some values → ∀ n, n ∈ values.toList ↔
      ∃ v : Valuation, Picked symbols v t ∧ t.Computes v.environment n) ∧
    WellFounded fun s' s : Stage => s.next? = some s' := by
  refine ⟨possibleValues_eq_none, fun values h n => ?_, Stage.next_wellFounded⟩
  rcases possibleValues_cases h with ⟨rfl, x, hx, known, hget, hnone⟩ | ⟨hknown, hvalues⟩
  · constructor
    · intro hn
      exact absurd hn (by simp [OrderedSet.empty])
    · rintro ⟨v, hv, -⟩
      obtain ⟨known', hget', hmem⟩ := hv x hx
      obtain rfl := Option.some.inj (hget.symm.trans hget')
      rw [hnone] at hmem
      exact absurd hmem (by simp)
  · rw [hvalues n]
    refine exists_congr fun v => and_congr_left fun _ => forall₂_congr fun x hx => ?_
    simp [hknown x hx]

/-- A sum over two symbols, and a name that is not known. -/
example :
    let symbols := .ofList [("a", .ofList [0, 1]), ("b", .ofList [5, 3])]
    possibleValues (.arith .add (.const "b") (.const "a")) symbols = some ⟨[3, 4, 5, 6]⟩ ∧
      possibleValues (.arith .add (.const "b") (.const "c")) symbols = none := by cbv

end Consistency.Query
