import Consistency.Proofs.Cnf.Defined
import Consistency.Proofs.Graph.Recast
import Consistency.Proofs.Query.Inside

/-!
# Queries that agree

An execution that one graph shows is shown by each graph that is the same when
it is known what the threads pick, if no read needs itself. That a script can be
encoded tells that the terms in it have values wherever symbols are within their
domains. So by induction on what reads need, all values are within the domains
of the other query, and its assertions are true.
-/

set_option autoImplicit false

namespace Consistency.Query
open EventGraph (Recast)
variable {g k : EventGraph} {m : MemoryModel} {o : Outcome} {x : Choice} {v w u : Valuation}
  {env : Environment} {a r : Nat}

/-- If what is asserted of an atom is true, the values fulfil it. -/
theorem ends_of_decides (hf : Fits env g o x v) {d : Atom} (hd : d ∈ o.atoms)
    (h : (atomTerm g d).Decides env true) : d.Ends g x v := by
  cases d with
  | register p reg n =>
    rw [atomTerm] at h
    rw [Atom.Ends]
    cases ht : g.registerTerm p reg with
    | none =>
      rw [ht] at h
      exact absurd (Term.decides_bool.1 h) (by decide)
    | some t =>
      rw [ht] at h
      have heval := Term.decides_eq_int.1 h
      rw [Term.Computes, (Speaks.register hd ht).eval hf] at heval
      exact ⟨t, rfl, heval⟩
  | memory y n =>
    obtain ⟨t, ht, htrue⟩ := Term.exists_of_mkOr h
    obtain ⟨a, ha, rfl⟩ := List.mem_map.1 ht
    have hall := fun t ht => Term.forall_of_mkAnd (t := t) htrue ht
    obtain ⟨e, he, -, -⟩ := EventGraph.mem_writesTo.1 ha
    refine ⟨a, ha, fun b hb hco => ?_, ?_⟩
    · obtain ⟨-, hsame, hne⟩ := hf.shows.writes a b hco
      have hnot := hall (.mkNot (coTerm g a b)) (List.mem_append_left _ (List.mem_map.2
        ⟨b, List.mem_filter.2 ⟨hb, by simpa using hne.symm⟩, rfl⟩))
      have htells := (hf.shows.co a (List.mem_of_mem_filter ha) b hsame hne).mkNot
      exact htells.decides_true.1 hnot hco
    · have heq := hall (.eq (valueAt g a) (.int n)) (List.mem_append_right _ List.mem_cons_self)
      have hvalue := Term.decides_eq_int.1 heq
      rwa [Term.Computes, (speaks_valueAt he).eval hf] at hvalue

/-- A node of the one graph has the value of the other's, if it has a value. -/
theorem computes_of_recast (h : Recast v w g k)
    (hu : ∀ t i, u (Thread.choiceSymbol t i) = w (Thread.choiceSymbol t i)) {n : Int}
    (hg : (valueAt g a).Computes u.environment n)
    (hk : ∃ value, (valueAt k a).eval u.environment = some value) :
    (valueAt k a).Computes u.environment n := by
  obtain ⟨value, hvalue⟩ := hk
  rw [Term.Computes, hvalue, h.valueAt_unique hu hg hvalue]

/-- What the one graph ends in, the other is found to end in, unless it lacks values. -/
theorem decides_of_ends (h : Recast v w g k) (hf : Fits env k o x w) {d : Atom}
    (hd : d ∈ o.atoms) (hends : d.Ends g x v) (hdecided : (atomTerm k d).Decided env) :
    (atomTerm k d).Decides env true := by
  cases d with
  | register p reg n =>
    obtain ⟨t, ht, hn⟩ := hends
    have hsome := h.registers p reg
    rw [ht, Option.map_some] at hsome
    obtain ⟨t', ht', hfixed⟩ := Option.map_eq_some_iff.1 hsome.symm
    rw [atomTerm, ht'] at hdecided ⊢
    obtain ⟨⟨value, hvalue⟩, -⟩ := hdecided.sides
    rw [Term.decides_eq_int, Term.Computes, hvalue]
    rw [(Speaks.register hd ht').eval hf] at hvalue
    have hkept : t.eval w.environment = some (.int n) := (h.kept p reg t ht).eval.trans hn
    exact congrArg some (Term.value_unique (fun _ _ => rfl) hfixed hvalue hkept)
  | memory y n =>
    obtain ⟨a, ha, hlast, hn⟩ := hends
    rw [EventGraph.writesTo_eq h.layout_eq] at ha hlast
    obtain ⟨e, he, -, -⟩ := EventGraph.mem_writesTo.1 ha
    refine Term.decides_mkOr hdecided (List.mem_map.2 ⟨a, ha, rfl⟩) fun hpart => ?_
    have hother : ∀ b ∈ (k.writesTo y).filter (· != a),
        (Term.mkNot (coTerm k a b)).Tells env ¬ x.co a b := by
      intro b hb
      obtain ⟨hb, hne⟩ := List.mem_filter.1 hb
      exact (hf.shows.co a (List.mem_of_mem_filter ha) b
        (EventGraph.mem_writesSameVar_of_writesTo ha hb) (bne_iff_ne.1 hne).symm).mkNot
    have htrue : ∀ b ∈ (k.writesTo y).filter (· != a), ¬ x.co a b := fun b hb =>
      hlast b (List.mem_of_mem_filter hb)
    have hno : Term.bool false ∉ ((k.writesTo y).filter (· != a)).map (fun b =>
        Term.mkNot (coTerm k a b)) ++ [.eq (valueAt k a) (.int n)] := by
      intro hmem
      rcases List.mem_append.1 hmem with hmem | hmem
      · obtain ⟨b, hb, hfalse⟩ := List.mem_map.1 hmem
        have hdecides := (hother b hb).decides_true.2 (htrue b hb)
        rw [hfalse] at hdecides
        exact absurd (Term.decides_bool.1 hdecides) (by decide)
      · exact absurd (List.mem_singleton.1 hmem) Term.noConfusion
    obtain ⟨⟨value, hvalue⟩, -⟩ := (Term.decided_of_mkAnd hpart hno
      (List.mem_append_right _ List.mem_cons_self)).sides
    have heval := (speaks_valueAt (o := o) he).eval hf
    have hstored := computes_of_recast h (fun _ _ => rfl) ((h.valueAt_keeps a).eval.trans hn)
      ⟨value, heval.symm.trans hvalue⟩
    refine (Term.tells_mkAnd_concat hother (Term.tells_eq (heval.trans hstored)
      (Term.computes_int env n))).decides_true.2 ⟨htrue, rfl⟩

theorem decides_of_decided (h : Recast v w g k) {t : Term} (ht : t ∈ k.constraints)
    (hd : t.Decided w.environment) : t.Decides w.environment true := by
  obtain ⟨b, hb⟩ := hd
  have hfixed := (Term.eval_fixed (fun _ _ => rfl) hb).symm.trans (h.feasible t ht)
  rw [Term.Decides, hb, Value.bool.inj (Option.some.inj hfixed)]

/-- What path constraints and the outcome say of single values is so. -/
theorem stated_inside (h : Recast v w g k)
    (hsym : ∀ name ∈ (intSymbols k o).toList, ValueSymbol name) (hx : x.Proper k)
    (hends : ∀ d ∈ o.atoms, d.Ends g x v) {t : Term} {y : String} {values : List Int}
    (hy : ValueSymbol y) (ht : t ∈ k.constraints ∨ ∃ d ∈ o.atoms, t = atomTerm k d)
    (hd : t.domain? = some (y, values)) : w y ∈ values := by
  have hf : Fits (x.environment w) k o x w := fits_of_keeps hsym hx fun _ _ => rfl
  have hvalue := environment_value x w hy
  have hdecided := Term.domain?_decided hd hvalue
  have htrue : t.Decides (x.environment w) true := by
    rcases ht with ht | ⟨d, hatom, rfl⟩
    · have heval := (Speaks.constraint (o := o) ht).eval hf
      rw [Term.Decides, heval]
      refine decides_of_decided h ht ?_
      obtain ⟨b, hb⟩ := hdecided
      exact ⟨b, heval.symm.trans hb⟩
    · exact decides_of_ends h hf hatom (hends d hatom) hdecided
  obtain ⟨n, hn, hw⟩ := Term.domain?_sound hd htrue
  obtain rfl : w y = n := Value.int.inj (Option.some.inj (hvalue.symm.trans hw))
  exact hn

structure Ordinary (g : EventGraph) (o : Outcome) : Prop where
  regular : g.Regular
  symbolic : g.Symbolic
  nodup : (readSymbols g).Nodup
  initial : ∀ a e, g.event? a = some e → e.isInit = true → ∃ n : Int, e.value = some (.int n)
  wellFormed : g.WellFormed
  symbols : ∀ name ∈ (intSymbols g o).toList, ValueSymbol name

theorem readDomain_ne_nil (hk : Ordinary k o) {y : String} {values : Values}
    (h : readDomain? k y = some values) : values.toList ≠ [] :=
  readable_of_regular hk.regular hk.nodup hk.initial h

/-- The graphs have the same reads, with the same symbols. -/
theorem exists_same_read (h : Recast v w g k) {s : Nat} {f : Event} (hs : k.event? s = some f) :
    ∃ d, g.event? s = some d ∧ d.isRead = f.isRead ∧ d.symbol = f.symbol := by
  obtain ⟨d, hd, hbare⟩ := EventGraph.exists_alike h.layout_eq.symm hs
  have hkind : d.kind = f.kind := congrArg EventShape.kind hbare
  have howner : d.owner = f.owner := congrArg EventShape.owner hbare
  have hindex : d.index = f.index := congrArg EventShape.index hbare
  exact ⟨d, hd, by rw [Event.isRead, Event.isRead, hkind],
    by rw [Event.symbol, Event.symbol, howner, hindex]⟩

theorem symbol_value (h : Recast v w g k) (e : Event) : w e.symbol = v e.symbol :=
  h.reads e.owner.number e.index

/-- A name that a source needs keeps its value if the reads of it see values found for them. -/
theorem patch_of_read (h : Recast v w g k) {y : String} (hy : y ∈ (valueAt g a).consts)
    (hin : ∀ s d, g.event? s = some d → d.isRead = true → d.symbol = y → ∀ values,
      readDomain? k y = some values → v y ∈ values.toList) : patch k w y = v y := by
  have hkept : w y = v y := h.valueAt_keeps a y hy
  cases hfound : readDomain? k y with
  | none => rw [patch_other hfound, hkept]
  | some values =>
    obtain ⟨f, hf, rfl⟩ := List.mem_map.1 (readDomain?_eq_some.1 hfound).1
    obtain ⟨s, hs, hread⟩ := mem_readsOf.1 hf
    obtain ⟨d, hd, hsame, hsymbol⟩ := exists_same_read h hs
    have hmem := hin s d hd (hsame.trans hread) hsymbol values hfound
    rw [← hkept] at hmem
    rw [patch_kept hfound hmem, hkept]

/-- The names of what is stored have values that were found or stated for them. -/
theorem inside_patch (h : Recast v w g k) (hk : Ordinary k o) (hx : x.Proper k)
    (hends : ∀ d ∈ o.atoms, d.Ends g x v) {domains vars : OrderedMap String Values}
    (hdomains : valueDomains k = some domains) (hd : Settled k domains vars) {d : Event}
    (hw : k.event? a = some d) {y : String} (hy : y ∈ d.valueTerm.consts) :
    Inside domains (patch k w) y := by
  intro values hget
  by_cases hmem : y ∈ readSymbols k
  · have hfound : readDomain? k y = some values := by
      rw [readDomain?_eq_some]
      exact ⟨hmem, domains, hdomains, by rw [valuesOf, hget]; rfl⟩
    exact patch_mem hfound (readDomain_ne_nil hk hfound)
  · have hfound : readDomain? k y = none := if_neg hmem
    rw [hd.others y hmem] at hget
    obtain ⟨⟨z, ns⟩, hstated, hz⟩ := List.mem_map.1 (OrderedMap.mem_of_get?_ofList hget)
    obtain ⟨rfl, rfl⟩ := Prod.mk.inj hz
    obtain ⟨t, ht, hdom⟩ := List.mem_filterMap.1 hstated
    have hvalue := hk.symbols z (mem_intSymbols_event (Array.mem_of_getElem? hw) hy)
    rw [patch_other hfound]
    exact OrderedSet.mem_ofList.2 (stated_inside h hk.symbols hx hends hvalue (.inl ht) hdom)

/-- By induction on what reads need: what a read sees in the one graph is among the values found in
the other, since what its source stores there has a value. -/
theorem read_found (h : Recast v w g k) (hg : g.Symbolic) (hk : Ordinary k o)
    (hfeeds : x.Feeds g v) (hground : x.Grounded g) (hx : x.Proper k)
    (hends : ∀ d ∈ o.atoms, d.Ends g x v)
    (hstored : ∀ a r, x.rf a r →
      ∃ value, (valueAt k a).eval (patch k w).environment = some value) (r : Nat) :
    ∀ e, g.event? r = some e → e.isRead = true → ∀ values,
      readDomain? k e.symbol = some values → v e.symbol ∈ values.toList := by
  induction r using hground.wellFounded.induction with
  | _ r ih =>
    intro e he hread values hvalues
    obtain ⟨-, domains, hdomains, rfl⟩ := readDomain?_eq_some.1 hvalues
    obtain ⟨vars, hd⟩ := settled_of_iterate hk.nodup (fun _ _ => rfl) hdomains
    obtain ⟨a, hsame, hrf, n, hn, hsource⟩ := hfeeds r (EventGraph.mem_reads.2 ⟨e, he, hread⟩)
    rw [valueAt_of_read hg he hread] at hn
    obtain rfl : v e.symbol = n := Value.int.inj (Option.some.inj hn)
    have hneeded : ∀ y ∈ (valueAt g a).consts, patch k w y = v y := by
      intro y hy
      refine patch_of_read h hy fun s d hs hdread hsymbol known hknown => ?_
      subst hsymbol
      exact ih s ⟨a, d, hrf, hs, hdread, hy⟩ d hs hdread known hknown
    have hpatched : (valueAt g a).Computes (patch k w).environment (v e.symbol) := by
      rw [Term.Computes, ← hsource]
      exact Term.eval_congr _ fun y hy => congrArg (fun n => some (Value.int n)) (hneeded y hy)
    have hcomputes := computes_of_recast h (patch_choice k w) hpatched (hstored a r hrf)
    rw [EventGraph.writesSameVar_eq h.layout_eq] at hsame
    obtain ⟨e', d, he', hw, hdw, hvar⟩ := EventGraph.mem_writesSameVar.1 hsame
    obtain ⟨known, hknown, hsub⟩ := hd.writes d (mem_writesOf hw hdw)
    have hterm : valueAt k a = d.valueTerm := by rw [valueAt, hw]
    rw [hterm] at hcomputes
    have hfound := hsub (mem_possibleValues hknown
      (fun y hy => inside_patch h hk hx hends hdomains hd hw hy) hcomputes)
    obtain ⟨e'', he'', hkind, hsymbol⟩ := exists_same_read h he'
    obtain rfl := Option.some.inj (he.symm.trans he'')
    have hget := hd.reads e' (mem_readsOf.2 ⟨r, he', hkind.symm.trans hread⟩)
    rw [valuesOf, hsymbol, hget, Option.getD_some, hvar]
    rwa [hsymbol] at hfound

theorem coTerm_wellFormed (g : EventGraph) (a b : Nat) :
    (coTerm g a b).WellFormed fun _ => True := by
  unfold coTerm
  split
  · trivial
  · split <;> trivial

theorem atomTerm_wellFormed (hg : g.WellFormed) (d : Atom) :
    (atomTerm g d).WellFormed fun _ => True := by
  cases d with
  | register p reg n =>
    rw [atomTerm]
    cases ht : g.registerTerm p reg with
    | none => trivial
    | some t => exact ⟨hg.registers p reg t ht, trivial⟩
  | memory y n =>
    refine Term.WellFormedAll.mkOr (Term.wellFormedAll_iff.2 fun t ht => ?_)
    obtain ⟨a, -, rfl⟩ := List.mem_map.1 ht
    refine Term.WellFormedAll.mkAnd (Term.wellFormedAll_iff.2 fun t ht => ?_)
    rcases List.mem_append.1 ht with ht | ht
    · obtain ⟨b, -, rfl⟩ := List.mem_map.1 ht
      exact (coTerm_wellFormed g a b).mkNot
    · obtain rfl := List.mem_singleton.1 ht
      exact ⟨hg.valueAt a, trivial⟩

theorem valueTerms_wellFormed (hg : g.WellFormed) :
    ∀ t ∈ valueTerms g o, t.WellFormed fun _ => True := by
  intro t ht
  simp only [valueTerms, List.mem_append, List.mem_map] at ht
  rcases ht with ⟨p, -, rfl⟩ | ht | ⟨d, -, rfl⟩
  · exact ⟨trivial, hg.valueAt p.1, hg.valueAt p.2⟩
  · exact hg.constraints t ht
  · exact atomTerm_wellFormed hg d

/-- What an encoded script says of values has values itself. -/
theorem settled_of_within {script : Script} {f : Encoder} (hg : g.WellFormed)
    (ha : Asserted g o script) (hf : Encoder.ofScript script = .ok f) (hs : script.Sorts env)
    (hw : f.Within script env) : ∀ t ∈ valueTerms g o, Encode.Settled env t := by
  intro t ht
  by_cases htrue : t = .bool true
  · exact ⟨⟨true, by rw [htrue]; rfl⟩, fun a b hab => absurd (htrue.symm.trans hab) Term.noConfusion⟩
  · exact Encoder.settled_of_script hf hs hw t (ha.values t ht htrue)
      (valueTerms_wellFormed hg t ht)

theorem flow_settled (hf : Fits env g o x v) (hrf : x.rf a r)
    (hs : ∀ t ∈ valueTerms g o, Encode.Settled env t) :
    (∃ value, (valueAt g r).eval v.environment = some value) ∧
      ∃ value, (valueAt g a).eval v.environment = some value := by
  obtain ⟨hr, ha⟩ := hf.shows.source a r hrf
  have hmem : flowTerm g r a ∈ valueTerms g o :=
    List.mem_append_left _ (List.mem_map.2 ⟨(r, a), mem_rfCandidates.2 ⟨hr, ha⟩, rfl⟩)
  obtain ⟨hread, hwrite⟩ := ((hs _ hmem).conclusion _ _ rfl).sides
  obtain ⟨d, e, hd, he, -, -⟩ := EventGraph.mem_writesSameVar.1 ha
  rw [(speaks_valueAt hd).eval hf] at hread
  rw [(speaks_valueAt he).eval hf] at hwrite
  exact ⟨hread, hwrite⟩

/-- Symbols may have all values by which reads see what is found for them: the terms of the script
have values then. -/
theorem exists_settled (h : Recast v w g k) (hk : Ordinary k o) (hx : x.Proper k)
    (hends : ∀ d ∈ o.atoms, d.Ends g x v) {q : QueryState} {ds ts : List Term} {f : Encoder}
    (hwrites : Written k o q ds ts) (hasserted : Asserted k o ⟨q.commands.reverse⟩)
    (hf : Encoder.ofScript ⟨q.commands.reverse⟩ = .ok f)
    (hreads : ∀ y values, readDomain? k y = some values → u y ∈ values.toList)
    (hothers : ∀ y, readDomain? k y = none → u y = w y) :
    ∃ env, Fits env k o x u ∧ (∀ t ∈ definitionsFrom 0 ds, t.Decides env true) ∧
      (∀ name sort, (name, sort) ∈ q.declared → ∃ b, env name = some b ∧ b.sort = sort) ∧
        ∀ t ∈ valueTerms k o, Encode.Settled env t := by
  obtain ⟨env, hfits, hdefs, htyped⟩ := exists_defined hwrites hk.symbols hx u
  refine ⟨env, hfits, hdefs, htyped, settled_of_within hk.wellFormed hasserted hf
    (fun y sort _ hsort => htyped y sort ?_) (within_of_inside hwrites hk.symbols hasserted hf
      htyped hfits hreads fun t y values hy hvalue ht hd => ?_)⟩
  · have hdeclared := List.mem_reverse.1 (mem_of_lookup hsort)
    simpa [Script.declared, QueryState.declared] using hdeclared
  · rw [hothers y hy]
    exact stated_inside h hk.symbols hx hends hvalue ht hd

/-- The execution meets in the other graph what it meets in the one, if all reads see values found
for them and the terms have values. -/
theorem meets_of_settled (h : Recast v w g k) (hx : x.Meets g m v) (hf : Fits env k o x w)
    (hsettled : ∀ t ∈ valueTerms k o, Encode.Settled env t)
    (hinside : ∀ y values, readDomain? k y = some values → w y ∈ values.toList) :
    x.Meets k m w := by
  refine ⟨hx.proper.alike h.layout_eq, fun a r hrf => ?_, hx.admitted.alike h.layout_eq,
    fun t ht => ?_,
    fun domains hdomains y hy => hinside y _ (readDomain?_eq_some.2 ⟨hy, domains, hdomains, rfl⟩)⟩
  · obtain ⟨n, hread, hwrite⟩ := hx.flow a r hrf
    obtain ⟨hr, ha⟩ := flow_settled hf hrf hsettled
    exact ⟨n, computes_of_recast h (fun _ _ => rfl) ((h.valueAt_keeps r).eval.trans hread) hr,
      computes_of_recast h (fun _ _ => rfl) ((h.valueAt_keeps a).eval.trans hwrite) ha⟩
  · obtain ⟨b, hb⟩ := (hsettled t (List.mem_append_right _ (List.mem_append_left _ ht))).decided
    exact decides_of_decided h ht ⟨b, ((Speaks.constraint ht).eval hf).symm.trans hb⟩

/-- If the script about the other graph can be encoded, the execution satisfies it. -/
theorem exists_satisfied (h : Recast v w g k) (hg : g.Symbolic) (hk : Ordinary k o)
    (hm : m.validate = .ok ()) (hx : x.Meets g m v) (hground : x.Grounded g)
    (hends : ∀ d ∈ o.atoms, d.Ends g x v) {script : Script} {f : Encoder}
    (hscript : encode k m o = .ok script) (hf : Encoder.ofScript script = .ok f) :
    ∃ env, script.Satisfied env := by
  obtain ⟨q, hencode, hwritten⟩ := encode_written hk.regular hk.symbolic hm o
  obtain rfl := Except.ok.inj (hscript.symm.trans hencode)
  obtain ⟨ds, ts, hwrites, hmeans⟩ := hwritten x w
  have hproper : x.Proper k := hx.proper.alike h.layout_eq
  have hasserted := asserted_of_encode hm hencode
  -- First with reads that see anything found for them: so the sources store values.
  obtain ⟨env', hfits', -, -, hsettled'⟩ := exists_settled h hk hproper hends hwrites hasserted hf
    (u := patch k w) (fun y values hy => patch_mem hy (readDomain_ne_nil hk hy))
    fun y hy => patch_other hy
  have hinside : ∀ y values, readDomain? k y = some values → w y ∈ values.toList := by
    intro y values hy
    obtain ⟨e, he, rfl⟩ := List.mem_map.1 (readDomain?_eq_some.1 hy).1
    obtain ⟨r, hr, hread⟩ := mem_readsOf.1 he
    obtain ⟨d, hd, hkind, hsymbol⟩ := exists_same_read h hr
    have hfound := read_found h hg hk (hx.proper.feeds hx.flow) hground hproper hends
      (fun a r hrf => (flow_settled hfits' hrf hsettled').2) r d hd (hkind.trans hread) values
      (hsymbol ▸ hy)
    rwa [← symbol_value h, hsymbol] at hfound
  obtain ⟨env, hfits, hdefs, htyped, hsettled⟩ := exists_settled h hk hproper hends hwrites
    hasserted hf hinside fun _ _ => rfl
  refine ⟨env, satisfied_iff.2 ⟨htyped, fun t ht => ?_⟩⟩
  rcases (hwrites.asserted t).1 ht with ht | ht
  · exact hdefs t ht
  · refine (hmeans env hfits hdefs).2 ⟨meets_of_settled h hx hfits hsettled hinside,
      fun d hd => ?_⟩ t ht
    exact decides_of_ends h hfits hd (hends d hd) (hsettled _ (List.mem_append_right _
      (List.mem_append_right _ (List.mem_map.2 ⟨d, hd, rfl⟩)))).decided

end Consistency.Query
