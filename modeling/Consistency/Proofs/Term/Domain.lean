import Consistency.Proofs.Term.Eval
import Consistency.Term.Domain

/-!
# Stated domains

A true statement of a domain gives its constant one of the values.
-/

set_option autoImplicit false

namespace Consistency.Term

theorem equation?_sound {env : Environment} {t : Term} {x : String} {n : Int}
    (h : t.equation? = some (x, n)) (ht : t.Decides env true) : env x = some (.int n) := by
  have key : ∀ {w : Value}, w.equal (.int n) = some true → w = .int n := by
    intro w hw
    simpa using (Value.eq_of_equal hw).symm
  unfold equation? at h
  split at h
  · obtain ⟨rfl, rfl⟩ := Prod.mk.inj (Option.some.inj h)
    obtain ⟨u, w, p, hu, hw, hp, hv⟩ := eval_eq.1 ht
    obtain rfl := Option.some.inj hw
    obtain rfl := Value.bool.inj hv
    rw [← key hp]
    exact hu
  · obtain ⟨rfl, rfl⟩ := Prod.mk.inj (Option.some.inj h)
    obtain ⟨u, w, p, hu, hw, hp, hv⟩ := eval_eq.1 ht
    obtain rfl := Option.some.inj hu
    obtain rfl := Value.bool.inj hv
    have heq := of_decide_eq_true (Value.eq_of_equal hp).symm
    rw [heq]
    exact hw
  · exact absurd h (by simp)

theorem domain?_sound {env : Environment} {t : Term} {x : String} {values : List Int}
    (h : t.domain? = some (x, values)) (ht : t.Decides env true) :
    ∃ n ∈ values, env x = some (.int n) := by
  unfold domain? at h
  split at h
  · exact absurd h (by simp)
  · next p ps =>
    simp only [Option.bind_eq_bind, Option.bind_eq_some_iff] at h
    obtain ⟨⟨y, n⟩, hp, rest, hps, h⟩ := h
    split at h
    · next hall =>
      obtain ⟨rfl, rfl⟩ := Prod.mk.inj (Option.some.inj h)
      obtain ⟨bs, hbs, hv⟩ := eval_or.1 ht
      have hany : bs.any id = true := (Value.bool.inj hv).symm
      rw [List.any_eq_true] at hany
      obtain ⟨b, hb, hbt⟩ := hany
      obtain ⟨q, hq, hqb⟩ := forall₂_mem_right hbs hb
      have hqt : q.Decides env true := by
        obtain rfl : b = true := hbt
        exact hqb
      rcases List.mem_cons.1 hq with rfl | hq
      · exact ⟨n, by simp, equation?_sound hp hqt⟩
      · obtain ⟨⟨z, k⟩, hd, hqd⟩ := forall₂_mem_left (mapM_eq_some.1 hps) hq
        have hz : z = y := by simpa using List.all_eq_true.1 hall _ hd
        subst hz
        exact ⟨k, List.mem_cons_of_mem _ (List.mem_map_of_mem hd), equation?_sound hqd hqt⟩
    · exact absurd h (by simp)
  · next t _ _ =>
    obtain ⟨⟨y, n⟩, hp, h⟩ := Option.map_eq_some_iff.1 h
    obtain ⟨rfl, rfl⟩ := Prod.mk.inj h
    exact ⟨n, by simp, equation?_sound hp ht⟩

theorem equation?_mentions {t : Term} {x : String} {n : Int} (h : t.equation? = some (x, n)) :
    x ∈ t.consts := by
  unfold equation? at h
  split at h
  all_goals first
    | (obtain ⟨rfl, rfl⟩ := Prod.mk.inj (Option.some.inj h); simp [consts])
    | exact absurd h (by simp)

theorem domain?_mentions {t : Term} {x : String} {values : List Int}
    (h : t.domain? = some (x, values)) : x ∈ t.consts := by
  unfold domain? at h
  split at h
  · exact absurd h (by simp)
  · next p ps =>
    simp only [Option.bind_eq_bind, Option.bind_eq_some_iff] at h
    obtain ⟨⟨y, n⟩, hp, rest, hps, h⟩ := h
    split at h
    · obtain ⟨rfl, rfl⟩ := Prod.mk.inj (Option.some.inj h)
      exact List.mem_append_left _ (equation?_mentions hp)
    · exact absurd h (by simp)
  · obtain ⟨⟨y, n⟩, hp, h⟩ := Option.map_eq_some_iff.1 h
    obtain ⟨rfl, rfl⟩ := Prod.mk.inj h
    exact equation?_mentions hp

end Consistency.Term
