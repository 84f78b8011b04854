import Consistency.Proofs.Cnf.Exactness

/-!
# The first domain counts

A constant gets its domain from the first assertion that equates it to
literals. What later assertions say of it does not change its indicators.
-/

set_option autoImplicit false

namespace Consistency

structure Term.Fixes (ts : List Term) (x : String) (t : Term) (values : List Int) : Prop where
  split : ∃ before after, ts = before ++ t :: after ∧ ∀ u ∈ before, ∀ vs, u.domain? ≠ some (x, vs)
  domain : t.domain? = some (x, values)

theorem Term.Fixes.append {ts us : List Term} {x : String} {t : Term} {values : List Int}
    (h : Term.Fixes ts x t values) : Term.Fixes (ts ++ us) x t values := by
  obtain ⟨⟨before, after, rfl, hbefore⟩, hdomain⟩ := h
  exact ⟨⟨before, after ++ us, by simp, hbefore⟩, hdomain⟩

/-- In front of the others a term that fixes the values is not passed over. -/
theorem Term.Fixes.mem_front {front rest : List Term} {x : String} {t u : Term}
    {values vs : List Int} (h : Term.Fixes (front ++ rest) x t values) (hu : u ∈ front)
    (hd : u.domain? = some (x, vs)) : t ∈ front := by
  obtain ⟨⟨before, after, hsplit, hbefore⟩, -⟩ := h
  rcases List.append_eq_append_iff.1 hsplit with ⟨ds, hds, -⟩ | ⟨ds, hds, htail⟩
  · exact absurd hd (hbefore u (hds ▸ List.mem_append_left _ hu) vs)
  · cases ds with
    | nil =>
      rw [List.append_nil] at hds
      exact absurd hd (hbefore u (hds ▸ hu) vs)
    | cons d ds =>
      obtain ⟨rfl, -⟩ := List.cons.inj htail
      rw [hds]
      exact List.mem_append_right _ List.mem_cons_self

variable {e f : Encoder} {s : Script}

namespace Encode
open Encoder

structure Firsts (e : Encoder) (ts : List Term) (m : Domains) : Prop where
  entries : ∀ x vs, m.get? x = some vs →
    ∃ t values, Term.Fixes ts x t values ∧ vs = (OrderedSet.ofList values).toList
  all : ∀ t ∈ ts, ∀ x vs, t.domain? = some (x, vs) → e.symbols[x]? = some .unbound →
    m.contains x = true

theorem Firsts.step {ts : List Term} {m : Domains} (h : Firsts e ts m) (t : Term) :
    Firsts e (ts ++ [t]) (addDomain e.symbols m t) := by
  have hkeep : ∀ x vs, m.get? x = some vs → ∃ u values, Term.Fixes (ts ++ [t]) x u values ∧
      vs = (OrderedSet.ofList values).toList := fun x vs hx => by
    obtain ⟨u, values, hu, hvs⟩ := h.entries x vs hx
    exact ⟨u, values, hu.append, hvs⟩
  unfold addDomain
  split
  · next x values hd =>
    split
    · next hx =>
      have hfirst : Term.Fixes (ts ++ [t]) x t values :=
        ⟨⟨ts, [], rfl, fun u hu vs hvs => hx.2 (h.all u hu x vs hvs hx.1)⟩, hd⟩
      refine ⟨fun y vs hy => ?_, fun u hu y vs hvs hunbound => ?_⟩
      · rw [OrderedMap.get?_insert] at hy
        split at hy
        · next heq =>
          obtain rfl := eq_of_beq heq
          exact ⟨t, values, hfirst, (Option.some.inj hy).symm⟩
        · exact hkeep y vs hy
      · rw [OrderedMap.contains, OrderedMap.get?_insert]
        split
        · rfl
        · next hne =>
          rcases List.mem_append.1 hu with hu | hu
          · exact h.all u hu y vs hvs hunbound
          · obtain rfl := List.mem_singleton.1 hu
            obtain ⟨rfl, -⟩ := Prod.mk.inj (Option.some.inj (hd.symm.trans hvs))
            exact absurd (beq_self_eq_true x) hne
    · next hx =>
      refine ⟨hkeep, fun u hu y vs hvs hunbound => ?_⟩
      rcases List.mem_append.1 hu with hu | hu
      · exact h.all u hu y vs hvs hunbound
      · obtain rfl := List.mem_singleton.1 hu
        obtain ⟨rfl, -⟩ := Prod.mk.inj (Option.some.inj (hd.symm.trans hvs))
        by_contra hno
        exact hx ⟨hunbound, hno⟩
  · next hd =>
    refine ⟨hkeep, fun u hu y vs hvs hunbound => ?_⟩
    rcases List.mem_append.1 hu with hu | hu
    · exact h.all u hu y vs hvs hunbound
    · obtain rfl := List.mem_singleton.1 hu
      exact absurd (hd.symm.trans hvs) (by simp)

theorem firsts_fold (e : Encoder) (ts : List Term) :
    Firsts e ts (ts.foldl (addDomain e.symbols) .empty) := by
  suffices h : ∀ (todo done : List Term) (m : Domains), Firsts e done m →
      Firsts e (done ++ todo) (todo.foldl (addDomain e.symbols) m) from
    h ts [] .empty ⟨by simp [OrderedMap.get?, OrderedMap.empty], by simp⟩
  intro todo
  induction todo with
  | nil => intro done m h; simpa using h
  | cons t todo ih =>
    intro done m h
    have hnext := ih (done ++ [t]) _ (h.step t)
    rwa [List.append_assoc] at hnext

end Encode

/-- What assertions mention was declared. -/
theorem Encoder.declared_of_script (h : Encoder.ofScript s = .ok f) {x : String}
    (hx : s.Mentions x) : ∃ sort, (x, sort) ∈ s.declared := by
  obtain ⟨e₀, e, hd, hbind, -⟩ := runs_of_script h
  obtain ⟨-, sort, -, hsort, -⟩ := (Encode.bindDomains_prepared hd hbind).sorts x hx
  exact ⟨sort, List.mem_reverse.1 (mem_of_lookup hsort)⟩

/-- The indicators of a constant are those of the values it is first given. -/
theorem Encoder.fixes_of_script (h : Encoder.ofScript s = .ok f) {x : String} {cases : Cases}
    (hx : f.symbols[x]? = some (.int cases)) : ∃ t values,
      Term.Fixes s.assertions x t values ∧ ∀ n, n ∈ cases.map Prod.snd ↔ n ∈ values := by
  obtain ⟨e₀, e, hd, hbind, hassert⟩ := runs_of_script h
  have hp := Encode.bindDomains_prepared hd hbind
  have hdemands := Encode.assertAll_demands s.assertions (c := e.reading s fun _ => none)
    (fun y hy => constsOf_mentions hy) (hp.sound _) hassert
  rw [hdemands.symbols] at hx
  obtain ⟨hb, -⟩ := Encode.binds_bindDomains hd hbind
  have hkey : x ∈ (s.assertions.foldl (Encode.addDomain e₀.symbols) .empty).keys := by
    by_contra hno
    rw [hb.other x hno] at hx
    exact hd.no_domain x cases hx
  obtain ⟨⟨y, vs⟩, hvs, rfl⟩ := List.mem_map.1 hkey
  obtain ⟨cases', hcases, hvalues⟩ := hb.domain y vs hvs
  obtain rfl := Symbol.int.inj (Option.some.inj (hx.symm.trans hcases))
  have hget := (lookup_eq_some_iff (Encode.stated_fold e₀ s.assertions).keys).2 hvs
  obtain ⟨t, values, hfixes, rfl⟩ := (Encode.firsts_fold e₀ s.assertions).entries y vs hget
  refine ⟨t, values, hfixes, fun n => ?_⟩
  rw [hvalues, OrderedSet.mem_ofList]

end Consistency
