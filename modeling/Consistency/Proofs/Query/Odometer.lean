import Mathlib.Logic.Relation
import Consistency.Proofs.Ordered.Set
import Consistency.Query.Odometer

/-!
# All combinations are tried

Whatever the wheels show, they come to a stop. From their first values on they
show every combination before that, and nothing but combinations of their
values.
-/

set_option autoImplicit false

namespace Consistency.Query
open Relation (ReflTransGen)

namespace Wheel
variable {w : Wheel} {v : Int}

def face (w : Wheel) : String × List Int := (w.name, w.values)

theorem ofValues?_eq_none {x : String} {vs : List Int} : ofValues? x vs = none ↔ vs = [] := by
  cases vs <;> simp [ofValues?]

theorem ofValues?_eq_some {x : String} {vs : List Int} (h : ofValues? x vs = some w) :
    w.face = (x, vs) ∧ w.restart = w := by
  cases vs with
  | nil => exact absurd h (by simp [ofValues?])
  | cons v vs =>
    obtain rfl := Option.some.inj h
    exact ⟨rfl, rfl⟩

theorem value_mem (w : Wheel) : w.value ∈ w.values := List.get_mem w.values w.place

/-- A wheel can show each of its values. -/
theorem exists_shows (h : v ∈ w.values) :
    ∃ turned : Wheel, turned.face = w.face ∧ turned.value = v := by
  obtain ⟨i, hi⟩ := List.get_of_mem h
  exact ⟨{ w with place := i }, rfl, hi⟩

theorem face_turn {turned : Wheel} (h : w.turn? = some turned) : turned.face = w.face := by
  unfold turn? at h
  split at h
  · obtain rfl := Option.some.inj h
    rfl
  · exact absurd h (by simp)

def last (w : Wheel) : Wheel :=
  { w with place := ⟨w.values.length - 1, Nat.sub_one_lt_of_lt w.place.isLt⟩ }

theorem turn_last (w : Wheel) : w.last.turn? = none := by
  have hplace := w.place.isLt
  have hover : ¬ w.values.length - 1 + 1 < w.values.length := by omega
  exact dif_neg hover

/-- Wheels with the same values start alike. -/
theorem restart_of_faces {vs ws : List Wheel} (h : vs.map face = ws.map face) :
    vs.map restart = ws.map restart := by
  induction vs generalizing ws with
  | nil => rw [List.map_eq_nil_iff.1 h.symm]
  | cons v vs ih =>
    obtain ⟨x, us, i⟩ := v
    cases ws with
    | nil => exact absurd h (by simp)
    | cons w ws =>
      obtain ⟨y, us', j⟩ := w
      obtain ⟨hface, hrest⟩ := List.cons.inj h
      obtain ⟨rfl, rfl⟩ := Prod.mk.inj hface
      rw [List.map_cons, List.map_cons, ih hrest]
      rfl

end Wheel

namespace Stage
variable {s t : Stage} {w : Wheel} {ws : List Wheel} {f : List Wheel → Option Int}
  {found : OrderedSet Int} {n : Int}

def Leads : Stage → Stage → Prop := ReflTransGen fun s t => s.next? = some t

def wheels : Stage → List Wheel
  | .trying ws => ws
  | .turning passed ws => passed.reverseAux ws

theorem faces_next (h : s.next? = some t) : t.wheels.map Wheel.face = s.wheels.map Wheel.face := by
  cases s with
  | trying ws =>
    obtain rfl := Option.some.inj h
    rfl
  | turning passed ws =>
    cases ws with
    | nil => exact absurd h (by simp [next?])
    | cons w ws =>
      cases hturn : w.turn? with
      | some turned =>
        obtain rfl := Option.some.inj ((next?_of_turn hturn passed ws).symm.trans h)
        simp [wheels, List.reverseAux_eq, Wheel.face_turn hturn]
      | none =>
        obtain rfl := Option.some.inj ((next?_of_last hturn passed ws).symm.trans h)
        simp [wheels, List.reverseAux_eq, Wheel.face, Wheel.restart]

theorem Leads.faces (h : s.Leads t) : t.wheels.map Wheel.face = s.wheels.map Wheel.face := by
  induction h with
  | refl => rfl
  | tail _ hnext ih => rw [faces_next hnext, ih]

/-- The first wheel alone turns from its first value to any other. -/
theorem leads_turned (w : Wheel) (ws : List Wheel) :
    (trying (w.restart :: ws)).Leads (trying (w :: ws)) := by
  obtain ⟨x, vs, i, hi⟩ := w
  induction i with
  | zero => exact .refl
  | succ i ih =>
    have hturn : (⟨x, vs, ⟨i, Nat.lt_of_succ_lt hi⟩⟩ : Wheel).turn? = some ⟨x, vs, ⟨i + 1, hi⟩⟩ :=
      dif_pos hi
    have hbefore : (trying (⟨x, vs, ⟨i, Nat.lt_of_succ_lt hi⟩⟩ :: ws)).next? =
        some (turning [] (⟨x, vs, ⟨i, Nat.lt_of_succ_lt hi⟩⟩ :: ws)) := rfl
    exact ((ih (Nat.lt_of_succ_lt hi)).tail hbefore).tail (next?_of_turn hturn [] ws)

def behind (w : Wheel) : Stage → Stage
  | .trying ws => .trying (w :: ws)
  | .turning passed ws => .turning (passed ++ [w]) ws

/-- While the other wheels make a step, the one in front goes once around. -/
theorem leads_behind (w : Wheel) (h : s.next? = some t) :
    (s.behind w.restart).Leads (t.behind w.restart) := by
  cases s with
  | trying ws =>
    obtain rfl := Option.some.inj h
    have haround : (trying (w.restart :: ws)).Leads (trying (w.last :: ws)) :=
      leads_turned w.last ws
    exact (haround.tail rfl).tail (next?_of_last w.turn_last [] ws)
  | turning passed ws =>
    cases ws with
    | nil => exact absurd h (by simp [next?])
    | cons x ws =>
      cases hturn : x.turn? with
      | some turned =>
        obtain rfl := Option.some.inj ((next?_of_turn hturn passed ws).symm.trans h)
        have hnext := next?_of_turn hturn (passed ++ [w.restart]) ws
        simp only [List.reverseAux_eq, List.reverse_append, List.reverse_singleton,
          List.cons_append] at hnext
        simp only [behind, List.reverseAux_eq]
        exact .single hnext
      | none =>
        obtain rfl := Option.some.inj ((next?_of_last hturn passed ws).symm.trans h)
        exact .single (next?_of_last hturn (passed ++ [w.restart]) ws)

theorem Leads.behind (w : Wheel) (h : s.Leads t) :
    (s.behind w.restart).Leads (t.behind w.restart) := by
  induction h with
  | refl => exact .refl
  | tail _ hnext ih => exact ih.trans (leads_behind w hnext)

/-- By induction on the wheels: the others come to what they are to show, and then the first. -/
theorem leads_all (ws : List Wheel) : (trying (ws.map Wheel.restart)).Leads (trying ws) := by
  induction ws with
  | nil => exact .refl
  | cons w ws ih => exact (ih.behind w).trans (leads_turned w ws)

theorem leads_trying_iff (h : ws.map Wheel.restart = ws) {shown : List Wheel} :
    (trying ws).Leads (trying shown) ↔ shown.map Wheel.face = ws.map Wheel.face := by
  refine ⟨fun hleads => hleads.faces, fun hfaces => ?_⟩
  have hstart : shown.map Wheel.restart = ws := (Wheel.restart_of_faces hfaces).trans h
  have hleads := leads_all shown
  rwa [hstart] at hleads

theorem mem_record : n ∈ (s.record f found).toList ↔
    n ∈ found.toList ∨ ∃ ws, s = .trying ws ∧ f ws = some n := by
  cases s with
  | turning passed ws => simp [record]
  | trying ws =>
    unfold record
    cases hf : f ws with
    | none => simp [hf]
    | some m => simp [hf, OrderedSet.mem_insert, or_comm, eq_comm]

theorem mem_gather : n ∈ (s.gather f found).toList ↔
    n ∈ found.toList ∨ ∃ ws, s.Leads (.trying ws) ∧ f ws = some n := by
  fun_induction gather f found s with
  | case1 found s hlast =>
    have hstays : ∀ t, s.Leads t ↔ s = t := by
      intro t
      rw [Leads, ReflTransGen.cases_head_iff]
      simp [hlast]
    simp only [mem_record, hstays]
  | case2 found s t hnext ih =>
    have hgoes : ∀ r, s.Leads r ↔ s = r ∨ t.Leads r := by
      intro r
      rw [Leads, ReflTransGen.cases_head_iff]
      simp [hnext]
    rw [ih, mem_record, or_assoc]
    simp only [hgoes, or_and_right, exists_or]

/-- No sequence of steps goes on forever, whatever the wheels show at its start. -/
theorem next_wellFounded : WellFounded fun t s : Stage => s.next? = some t :=
  Subrelation.wf rank_next
    (InvImage.wf rank (Prod.lex ⟨_, Nat.lt_wfRel.wf⟩ ⟨_, Nat.lt_wfRel.wf⟩).wf)

end Stage
end Consistency.Query
