import Consistency.Proofs.Cnf.Domain
import Consistency.Proofs.Cnf.Formula
import Consistency.Proofs.Term.Domain

/-!
# Clauses of a script

A script that the encoder accepts is read in three parts: declarations, domains
and assertions. What is known of the encoder after each part adds up to what
its clauses say of the constants that occur in assertions.
-/

set_option autoImplicit false

namespace Consistency
variable {e f g : Encoder}

namespace Encode
open Encoder

structure Binds (e : Encoder) (done : List (String × List Int)) (f : Encoder) : Prop where
  bound : f.Bound
  known : f.known = e.known
  asserted : f.asserted = e.asserted
  vars : e.vars ≤ f.vars
  other : ∀ x, x ∉ done.map Prod.fst → f.symbols[x]? = e.symbols[x]?
  domain : ∀ x vs, (x, vs) ∈ done →
    ∃ zs, f.symbols[x]? = some (.int zs) ∧ zs.map Prod.snd = vs
  cover : ∀ v, e.vars ≤ v → v < f.vars →
    ∃ x zs, x ∈ done.map Prod.fst ∧ f.symbols[x]? = some (.int zs) ∧ ∃ z ∈ zs, z.1.var = v

theorem Binds.nil (h : e.Bound) : Binds e [] e where
  bound := h
  known := rfl
  asserted := rfl
  vars := le_refl _
  other := fun _ _ => rfl
  domain := by simp
  cover := fun v h₁ h₂ => absurd h₁ (by omega)

theorem Binds.bind {done : List (String × List Int)} (h : Binds e done f) {x : String}
    {values : List Int} (hx : x ∉ done.map Prod.fst)
    (hs : ∀ zs, e.symbols[x]? ≠ some (.int zs)) (hn : values.Nodup) :
    Binds e (done ++ [(x, values)]) (withDomain f x values) := by
  have hself : (withDomain f x values).symbols[x]? = some (.int (indicators f.vars values)) := by
    simp [withDomain]
  have hother : ∀ {y}, y ≠ x → (withDomain f x values).symbols[y]? = f.symbols[y]? := by
    intro y hne
    simp [withDomain, Std.HashMap.getElem?_insert, hne.symm]
  have hne : ∀ {y}, y ∈ done.map Prod.fst → y ≠ x := fun hy he => hx (he ▸ hy)
  refine {
    bound := bound_withDomain h.bound (by rw [h.other x hx]; exact hs) hn
    known := h.known
    asserted := h.asserted
    vars := h.vars.trans (Nat.le_add_right _ _)
    other := ?_
    domain := ?_
    cover := ?_ }
  · intro y hy
    rw [List.map_append, List.mem_append, not_or] at hy
    rw [hother (by simpa using hy.2), h.other y hy.1]
  · intro y vs hy
    rcases List.mem_append.1 hy with hy | hy
    · obtain ⟨zs, hzs, hvs⟩ := h.domain y vs hy
      exact ⟨zs, by rw [hother (hne (List.mem_map_of_mem hy)), hzs], hvs⟩
    · obtain ⟨rfl, rfl⟩ := Prod.mk.inj (List.mem_singleton.1 hy)
      exact ⟨_, hself, values_indicators _ _⟩
  · intro v hv hlt
    by_cases hf : v < f.vars
    · obtain ⟨y, zs, hy, hzs, hz⟩ := h.cover v hv hf
      exact ⟨y, zs, by simp only [List.map_append, List.mem_append]; exact .inl hy,
        by rw [hother (hne hy), hzs], hz⟩
    · refine ⟨x, _, by simp, hself, ?_⟩
      have hm : v ∈ (indicators f.vars values).map fun z => z.1.var := by
        rw [vars_indicators, List.mem_range'_1]
        exact ⟨not_lt.1 hf, hlt⟩
      exact List.mem_map.1 hm

theorem binds_of_runs {done todo : List (String × List Int)} (h : Binds e done f)
    (hk : ((done ++ todo).map Prod.fst).Nodup)
    (hs : ∀ x vs, (x, vs) ∈ todo → (∀ zs, e.symbols[x]? ≠ some (.int zs)) ∧ vs.Nodup) {u : Unit}
    (hr : Runs (todo.forM fun (x, vs) => bindDomain x vs) f u g) : Binds e (done ++ todo) g := by
  induction todo generalizing done f with
  | nil =>
    obtain rfl := Runs.forM_nil.1 hr
    simpa using h
  | cons d todo ih =>
    obtain ⟨x, vs⟩ := d
    obtain ⟨w, hd, hds⟩ := Runs.forM_cons.1 hr
    obtain rfl := runs_bindDomain hd
    obtain ⟨hx, hvs⟩ := hs x vs (by simp)
    have hnot : x ∉ done.map Prod.fst := by
      rw [List.map_append, List.nodup_append] at hk
      exact fun hm => hk.2.2 x hm x (by simp) rfl
    have := ih (h.bind hnot hx hvs) (by simpa using hk)
      (fun y ws hy => hs y ws (List.mem_cons_of_mem _ hy)) hds
    simpa using this

structure Stated (e : Encoder) (ts : List Term) (m : Domains) : Prop where
  keys : m.keys.Nodup
  entries : ∀ x vs, (x, vs) ∈ m.entries → e.symbols[x]? = some .unbound ∧
    ∃ t ∈ ts, ∃ values, t.domain? = some (x, values) ∧ vs = (OrderedSet.ofList values).toList

theorem stated_fold (e : Encoder) (ts : List Term) :
    Stated e ts (ts.foldl (addDomain e.symbols) .empty) := by
  suffices h : ∀ (todo done : List Term) (m : Domains), Stated e done m →
      Stated e (done ++ todo) (todo.foldl (addDomain e.symbols) m) from
    h ts [] .empty ⟨by simp [OrderedMap.keys, OrderedMap.empty], by simp [OrderedMap.empty]⟩
  intro todo
  induction todo with
  | nil => intro done m h; simpa using h
  | cons t todo ih =>
    intro done m h
    have hmono : Stated e (done ++ [t]) m := ⟨h.keys, fun x vs hx => by
      obtain ⟨hu, t', ht', hd⟩ := h.entries x vs hx
      exact ⟨hu, t', List.mem_append_left _ ht', hd⟩⟩
    have hstep : Stated e (done ++ [t]) (addDomain e.symbols m t) := by
      unfold addDomain
      split
      · next x values hd =>
        split
        · next hx =>
          have hnone : m.get? x = none := by
            simpa [OrderedMap.contains] using hx.2
          have hp := OrderedMap.keys_insert_perm (m := m) (OrderedSet.ofList values).toList
            (OrderedMap.get?_eq_none hnone)
          refine ⟨hp.nodup_iff.2 (List.nodup_cons.2 ⟨OrderedMap.get?_eq_none hnone, h.keys⟩), ?_⟩
          intro y vs hy
          rcases OrderedMap.mem_insertList hy with he | hy
          · obtain ⟨rfl, rfl⟩ := Prod.mk.inj he
            exact ⟨hx.1, t, by simp, values, hd, rfl⟩
          · exact hmono.entries y vs hy
        · exact hmono
      · exact hmono
    have := ih (done ++ [t]) _ hstep
    rwa [List.append_assoc] at this

end Encode

namespace Encode
open Encoder

/-- Names that are looked up are declared, and those of integers have domains. -/
theorem requires {domains : Domains} {names : List String} {u : Unit}
    (h : Runs (names.forM (requireDomain domains)) e u f) : f = e ∧
      ∀ x ∈ names, ∃ s, e.symbols[x]? = some s ∧ (s = .unbound → domains.contains x = true) := by
  induction names generalizing f u with
  | nil =>
    obtain rfl := Runs.forM_nil.1 h
    exact ⟨rfl, by simp⟩
  | cons x xs ih =>
    obtain ⟨w, hx, hxs⟩ := Runs.forM_cons.1 h
    obtain ⟨rfl, hd⟩ := runs_requireDomain.1 hx
    obtain ⟨rfl, hds⟩ := ih hxs
    exact ⟨rfl, List.forall_mem_cons.2 ⟨hd, hds⟩⟩

end Encode

def Script.sort? (s : Script) (x : String) : Option ValueSort := s.declared.reverse.lookup x

def Script.Mentions (s : Script) (x : String) : Prop := x ∈ s.assertions.flatMap Term.consts

def Symbol.IsOf : Symbol → ValueSort → Prop
  | .bool _, .bool => True
  | .int _, .int => True
  | _, _ => False

namespace Encoder

structure Prepared (s : Script) (e : Encoder) : Prop where
  bound : e.Bound
  asserted : e.asserted = []
  known : e.known = ∅
  vars : 1 + s.declared.countP (fun d => d.2 = .bool) ≤ e.vars
  sorts : ∀ x, s.Mentions x → ∃ sym sort, e.symbols[x]? = some sym ∧ s.sort? x = some sort ∧
    sym.IsOf sort
  formulas : ∀ x, s.sort? x = some .bool → ∃ l, e.symbols[x]? = some (.bool l)
  unused : ∀ x, s.sort? x = some .int → ¬ s.Mentions x → e.symbols[x]? = some .unbound
  domain : ∀ (x : String) (cases : Cases), e.symbols[x]? = some (.int cases) → s.Mentions x ∧
    ∃ t ∈ s.assertions, ∃ values, t.domain? = some (x, values) ∧
      ∀ n, n ∈ cases.map Prod.snd ↔ n ∈ values
  cover : ∀ v, 1 + s.declared.countP (fun d => d.2 = .bool) ≤ v → v < e.vars →
    ∃ (x : String) (cases : Cases), e.symbols[x]? = some (.int cases) ∧ ∃ z ∈ cases, z.1.var = v

end Encoder

namespace Encode
open Encoder

/-- What assertions refer to has been looked up, and the domains they state have been bound. -/
theorem binds_bindDomains {ds : List (String × ValueSort)} {ts : List Term} (hd : e.Declared ds)
    {u : Unit} (h : Runs (bindDomains ts) e u f) :
    Binds e (ts.foldl (addDomain e.symbols) .empty).entries f ∧
      ∀ x ∈ (OrderedSet.ofList (distinct (ts.flatMap Term.consts))).toList,
        ∃ s, e.symbols[x]? = some s ∧
          (s = .unbound → (ts.foldl (addDomain e.symbols) .empty).contains x = true) := by
  simp only [bindDomains, Runs.bind_iff, Runs.get_iff] at h
  obtain ⟨_, _, ⟨rfl, rfl⟩, _, g, hreq, hbind⟩ := h
  obtain ⟨rfl, hreq⟩ := requires hreq
  have hst := stated_fold g ts
  refine ⟨binds_of_runs (.nil hd.bound) hst.keys (fun x vs hx => ⟨hd.no_domain x, ?_⟩) hbind, hreq⟩
  obtain ⟨_, _, _, values, _, rfl⟩ := hst.entries x vs hx
  exact OrderedSet.ofList_nodup values

section Bound
variable {s : Script} {m : Domains} {x : String}

/-- A constant with a domain was declared as an integer, and was found unbound. -/
theorem Stated.unbound {ts : List Term} (hst : Stated e ts m) (hx : x ∈ m.keys) :
    e.symbols[x]? = some .unbound := by
  obtain ⟨⟨_, vs⟩, hvs, rfl⟩ := List.mem_map.1 hx
  exact (hst.entries _ vs hvs).1

/-- A constant whose domain has been bound has the cases that an assertion states. -/
theorem Binds.cases_of_key (hb : Binds e m.entries f) (hst : Stated e s.assertions m)
    (hx : x ∈ m.keys) :
    ∃ cases, f.symbols[x]? = some (.int cases) ∧ s.Mentions x ∧
      ∃ t ∈ s.assertions, ∃ values, t.domain? = some (x, values) ∧
        ∀ n, n ∈ cases.map Prod.snd ↔ n ∈ values := by
  obtain ⟨⟨_, vs⟩, hvs, rfl⟩ := List.mem_map.1 hx
  obtain ⟨cases, hcases, heq⟩ := hb.domain _ vs hvs
  obtain ⟨_, t, ht, values, hv, rfl⟩ := hst.entries _ vs hvs
  refine ⟨cases, hcases, List.mem_flatMap.2 ⟨t, ht, Term.domain?_mentions hv⟩, t, ht, values, hv,
    fun n => ?_⟩
  rw [heq, OrderedSet.mem_ofList]

/-- A constant that is looked up is ready: a Boolean has kept its literal, and an integer has got
its cases. -/
theorem Binds.sort_of_symbol (hd : e.Declared s.declared) (hb : Binds e m.entries f)
    (hst : Stated e s.assertions m) {sym : Symbol} (hsym : e.symbols[x]? = some sym)
    (hdom : sym = .unbound → m.contains x = true) :
    ∃ sym sort, f.symbols[x]? = some sym ∧ s.sort? x = some sort ∧ sym.IsOf sort := by
  rcases hd.symbol_cases hsym with ⟨l, rfl, hbool⟩ | ⟨rfl, hint⟩
  · have hm : x ∉ m.keys := fun hm => absurd (hsym.symm.trans (hst.unbound hm)) (by simp)
    exact ⟨_, .bool, (hb.other x hm).trans hsym, hbool, trivial⟩
  · obtain ⟨vs, hvs⟩ := Option.isSome_iff_exists.1 (hdom rfl)
    obtain ⟨cases, hcases, -⟩ := hb.cases_of_key hst (List.mem_map.2 ⟨_, mem_of_lookup hvs, rfl⟩)
    exact ⟨_, .int, hcases, hint, trivial⟩

end Bound

theorem bindDomains_prepared {s : Script} (hd : e.Declared s.declared) {u : Unit}
    (h : Runs (bindDomains s.assertions) e u f) : f.Prepared s := by
  obtain ⟨hb, hreq⟩ := binds_bindDomains hd h
  have hst := stated_fold e s.assertions
  refine {
    bound := hb.bound
    asserted := hb.asserted.trans hd.asserted
    known := hb.known.trans hd.known
    vars := hd.vars ▸ hb.vars
    sorts := ?_
    formulas := ?_
    unused := ?_
    domain := ?_
    cover := ?_ }
  · intro x hx
    obtain ⟨sym, hsym, hdom⟩ := hreq x (OrderedSet.mem_ofList.2 (mem_distinct.2 hx))
    exact hb.sort_of_symbol hd hst hsym hdom
  · intro x hx
    obtain ⟨l, hl⟩ := hd.symbol_of_bool hx
    have hm : x ∉ (s.assertions.foldl (addDomain e.symbols) .empty).keys := fun hm =>
      absurd (hl.symm.trans (hst.unbound hm)) (by simp)
    exact ⟨l, (hb.other x hm).trans hl⟩
  · intro x hx hno
    refine (hb.other x fun hm => hno ?_).trans (hd.symbol_of_int hx)
    obtain ⟨_, -, hmentions, -⟩ := hb.cases_of_key hst hm
    exact hmentions
  · intro x cases hx
    by_cases hm : x ∈ (s.assertions.foldl (addDomain e.symbols) .empty).keys
    · obtain ⟨cases', hcases, hrest⟩ := hb.cases_of_key hst hm
      obtain rfl := Symbol.int.inj (Option.some.inj (hx.symm.trans hcases))
      exact hrest
    · exact absurd ((hb.other x hm).symm.trans hx) (hd.no_domain x cases)
  · intro v hv hlt
    obtain ⟨x, cases, -, hcases, hz⟩ := hb.cover v (hd.vars ▸ hv) hlt
    exact ⟨x, cases, hcases, hz⟩

end Encode
end Consistency
