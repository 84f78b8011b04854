import Consistency.Proofs.Cnf.First
import Consistency.Proofs.Query.Asserted
import Consistency.Proofs.Query.Domain
import Consistency.Proofs.Query.Solution

/-!
# Values within the domains of a query

The domains that were found for reads are asserted first, so that they are the
domains that the solver takes for the symbols of reads. Other symbols get theirs
from path constraints and from the outcome.
-/

set_option autoImplicit false

namespace Consistency.Query
variable {g : EventGraph} {o : Outcome} {x : Choice} {v : Valuation} {y : String}
  {values : Values}

def readDomain? (g : EventGraph) (y : String) : Option Values :=
  if y ∈ readSymbols g then (valueDomains g).map (valuesOf · y) else none

theorem readDomain?_eq_some : readDomain? g y = some values ↔
    y ∈ readSymbols g ∧ ∃ domains, valueDomains g = some domains ∧ valuesOf domains y = values := by
  unfold readDomain?
  split
  · next hy => simp [hy]
  · next hy => simp [hy]

theorem mem_domainTerms {t : Term} : t ∈ domainTerms g ↔
    ∃ y values, readDomain? g y = some values ∧ t = .oneOf y values.toList := by
  simp only [readDomain?_eq_some]
  unfold domainTerms
  cases valueDomains g with
  | none => simp
  | some domains =>
    rw [List.mem_map]
    constructor
    · rintro ⟨y, hy, rfl⟩
      exact ⟨y, _, ⟨hy, domains, rfl, rfl⟩, rfl⟩
    · rintro ⟨y, _, ⟨hy, domains', hd, rfl⟩, rfl⟩
      obtain rfl := Option.some.inj hd
      exact ⟨y, hy, rfl⟩

/-- A read may see the initial write. -/
theorem readable_of_regular (hg : g.Regular) (hn : (readSymbols g).Nodup)
    (hi : ∀ a e, g.event? a = some e → e.isInit = true → ∃ n : Int, e.value = some (.int n))
    (h : readDomain? g y = some values) : values.toList ≠ [] := by
  obtain ⟨hy, domains, hdomains, rfl⟩ := readDomain?_eq_some.1 h
  obtain ⟨vars, hd⟩ := settled_of_iterate hn (fun _ _ => rfl) hdomains
  obtain ⟨e, he, rfl⟩ := List.mem_map.1 hy
  obtain ⟨r, hr, -⟩ := mem_readsOf.1 he
  obtain ⟨i, d, hinode, hinit, hvar⟩ := hg.initial r e hr
  obtain ⟨n, hvalue⟩ := hi i d hinode hinit
  obtain ⟨known, hknown, hsub⟩ := hd.writes d (mem_writesOf hinode (hg.writes i d hinode hinit))
  rw [Event.valueTerm, hvalue] at hknown
  have hmem : n ∈ known.toList := mem_possibleValues (v := fun _ => 0) hknown
    (by simp [Term.consts]) (Term.computes_int _ n)
  rw [valuesOf, hd.reads e he, ← hvar]
  exact List.ne_nil_of_mem (hsub hmem)

def patch (g : EventGraph) (v : Valuation) : Valuation := fun y =>
  match readDomain? g y with
  | none => v y
  | some values => if v y ∈ values.toList then v y else values.toList.headD 0

theorem patch_other (h : readDomain? g y = none) : patch g v y = v y := by
  rw [patch, h]

theorem patch_kept (h : readDomain? g y = some values) (hv : v y ∈ values.toList) :
    patch g v y = v y := by
  simp only [patch, h, hv, if_true]

theorem patch_mem (h : readDomain? g y = some values) (hne : values.toList ≠ []) :
    patch g v y ∈ values.toList := by
  simp only [patch, h]
  split
  · next hv => exact hv
  · obtain ⟨n, ns, hvalues⟩ := List.exists_cons_of_ne_nil hne
    rw [hvalues]
    exact List.mem_cons_self

theorem patch_choice (g : EventGraph) (v : Valuation) (t k : Nat) :
    patch g v (Thread.choiceSymbol t k) = v (Thread.choiceSymbol t k) := by
  apply patch_other
  unfold readDomain?
  rw [if_neg]
  intro h
  obtain ⟨e, -, he⟩ := List.mem_map.1 h
  have hstem := congrArg stem he
  rw [Event.symbol, stem_readSymbol, stem_choiceSymbol] at hstem
  exact absurd hstem (by decide)

/-- Declared integers are those that the query speaks of. -/
theorem mem_intSymbols_of_declared {q : QueryState} {ds ts : List Term} (hw : Written g o q ds ts)
    (h : (y, .int) ∈ q.declared) : y ∈ (intSymbols g o).toList := by
  rcases (hw.declared _).1 h with h | ⟨k, -, h⟩
  · rcases mem_declarations.1 h with ⟨-, h⟩ | ⟨h, -⟩
    · exact absurd h (by simp)
    · exact h
  · exact absurd (Prod.mk.inj h).2 (by simp)

/-- Values are within the domains of the solver if those of reads are among the ones found, and
those of other symbols are as path constraints and the outcome say. -/
theorem within_of_inside {q : QueryState} {ds ts : List Term} {f : Encoder} {env : Environment}
    (hw : Written g o q ds ts) (hsym : ∀ name ∈ (intSymbols g o).toList, ValueSymbol name)
    (ha : Asserted g o ⟨q.commands.reverse⟩)
    (hf : Encoder.ofScript ⟨q.commands.reverse⟩ = .ok f)
    (htyped : ∀ name sort, (name, sort) ∈ q.declared → ∃ u, env name = some u ∧ u.sort = sort)
    (hfits : Fits env g o x v)
    (hreads : ∀ y values, readDomain? g y = some values → v y ∈ values.toList)
    (hothers : ∀ t y values, readDomain? g y = none → ValueSymbol y →
      (t ∈ g.constraints ∨ ∃ a ∈ o.atoms, t = atomTerm g a) → t.domain? = some (y, values) →
        v y ∈ values) : f.Within ⟨q.commands.reverse⟩ env := by
  intro y cases n hy hcases hn
  obtain ⟨t, values, hfixes, hmem⟩ := Encoder.fixes_of_script hf hcases
  rw [hmem]
  obtain ⟨sort, hsort⟩ := Encoder.declared_of_script hf hy
  have hdeclared : (y, sort) ∈ q.declared := by
    simpa [Script.declared, QueryState.declared] using hsort
  obtain ⟨u, hu, rfl⟩ := htyped y sort hdeclared
  obtain rfl := Option.some.inj (hu.symm.trans hn)
  have hvalue : ValueSymbol y := by
    rcases sort_of_declared hw hsym hdeclared with ⟨-, h⟩ | ⟨h, -⟩
    · exact h
    · exact absurd h (by simp [Value.sort])
  have hint := mem_intSymbols_of_declared hw hdeclared
  obtain rfl : v y = n := by
    have hboth := (hfits.values y hint).symm.trans hn
    exact Value.int.inj (Option.some.inj hboth)
  -- The first assertion about a read is the one of its domain.
  have hdomain : ∀ z known, readDomain? g z = some known →
      (Term.oneOf z known.toList).domain? = some (z, known.toList) := fun z known hz =>
    Term.domain?_oneOf (List.ne_nil_of_mem (hreads z known hz))
  cases hread : readDomain? g y with
  | some known =>
    obtain ⟨rest, hrest⟩ := ha.front
    rw [hrest] at hfixes
    have hfront := hfixes.mem_front (mem_domainTerms.2 ⟨y, known, hread, rfl⟩)
      (hdomain y known hread)
    obtain ⟨z, known', hz, rfl⟩ := mem_domainTerms.1 hfront
    obtain ⟨rfl, rfl⟩ := Prod.mk.inj (Option.some.inj ((hdomain z known' hz).symm.trans
      hfixes.domain))
    exact hreads z known' hz
  | none =>
    obtain ⟨⟨before, after, hsplit, -⟩, hd⟩ := hfixes
    have ht : t ∈ Script.assertions ⟨q.commands.reverse⟩ := by
      rw [hsplit]
      exact List.mem_append_right _ List.mem_cons_self
    rcases ha.stated t ht with hfront | hstated
    · obtain ⟨z, known, hz, rfl⟩ := mem_domainTerms.1 hfront
      obtain ⟨rfl, -⟩ := Prod.mk.inj (Option.some.inj ((hdomain z known hz).symm.trans hd))
      exact absurd (hread.symm.trans hz) (by simp)
    · exact hothers t y values hread hvalue (hstated y values hd hvalue) hd

end Consistency.Query
