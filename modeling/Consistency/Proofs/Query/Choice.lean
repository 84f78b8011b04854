import Consistency.Proofs.Query.Execution

/-!
# Sources and coherence orders

The assertions about reads-from and coherence leave just the proper choices. In
place of symbols for initial writes stand the constants that put these first.
-/

set_option autoImplicit false

namespace Consistency.Query
variable {g : EventGraph} {o : Outcome} {x : Choice} {ρ : Meaning} {v : Valuation}
  {env : Environment} {a b c r w : Nat} {ws : List Nat}

theorem forall_laterPairs {P : Nat → Nat → Prop} :
    (∀ p ∈ laterPairs ws, P p.1 p.2) ↔ ws.Pairwise P := by
  induction ws with
  | nil => simp [laterPairs]
  | cons a ws ih =>
    rw [laterPairs, List.forall_mem_append, ih, List.pairwise_cons, List.forall_mem_map]

theorem pairwise_iff {P : Nat → Nat → Prop} (hs : ∀ a b, P a b → P b a) (hn : ws.Nodup) :
    ws.Pairwise P ↔ ∀ a ∈ ws, ∀ b ∈ ws, a ≠ b → P a b := by
  have hsymm : Std.Symm P := ⟨hs⟩
  exact ⟨fun h a ha b hb hne => h.forall ha hb hne, fun h =>
    hn.pairwise_of_forall_ne fun a ha b hb hne => h a ha b hb hne⟩

theorem mem_laterPairs (hn : ws.Nodup) {p : Nat × Nat} (hp : p ∈ laterPairs ws) :
    p.1 ∈ ws ∧ p.2 ∈ ws ∧ p.1 ≠ p.2 := by
  have hall : ws.Pairwise fun a b => a ∈ ws ∧ b ∈ ws ∧ a ≠ b :=
    hn.pairwise_of_forall_ne fun a ha b hb hne => ⟨ha, hb, hne⟩
  exact forall_laterPairs.2 hall p hp

theorem writesSameVar_nodup (g : EventGraph) (a : Nat) : (g.writesSameVar a).Nodup :=
  (List.nodup_range.filter _).filter _

theorem requires_readsFrom (g : EventGraph) (o : Outcome) (x : Choice) (ρ : Meaning)
    (v : Valuation) :
    Requires g o x ρ v (assertReadsFrom g) (∀ r ∈ g.reads, ∃! w, x.rf w r) := by
  have hpart : ∀ r ∈ g.reads, Requires g o x ρ v
      (do
        assert (.mkOr ((g.writesSameVar r).map (rfTerm r)))
        (laterPairs (g.writesSameVar r)).forM fun p =>
          assert (.mkNot (.mkAnd [rfTerm r p.1, rfTerm r p.2])))
      (∃! w, x.rf w r) := by
    intro r hr
    have hsome : Requires g o x ρ v (assert (.mkOr ((g.writesSameVar r).map (rfTerm r))))
        (∃ w ∈ g.writesSameVar r, x.rf w r) := requires_assert fun env hf =>
      (Term.tells_mkOr fun w hw => hf.shows.rf r hr w hw).decides_true
    have hone : ∀ p ∈ laterPairs (g.writesSameVar r), Requires g o x ρ v
        (assert (.mkNot (.mkAnd [rfTerm r p.1, rfTerm r p.2])))
        (¬ (x.rf p.1 r ∧ x.rf p.2 r)) := fun p hp => requires_assert fun env hf => by
      obtain ⟨hp₁, hp₂, -⟩ := mem_laterPairs (writesSameVar_nodup g r) hp
      exact ((hf.shows.rf r hr _ hp₁).mkAnd (hf.shows.rf r hr _ hp₂)).mkNot.decides_true
    refine (hsome.bind (requires_forM hone)).congr_of_fits fun env hf => ?_
    have hx := hf.shows.source
    have hsymm : ∀ w w', ¬ (x.rf w r ∧ x.rf w' r) → ¬ (x.rf w' r ∧ x.rf w r) :=
      fun w w' h h' => h h'.symm
    rw [forall_laterPairs (P := fun w w' => ¬ (x.rf w r ∧ x.rf w' r)),
      pairwise_iff hsymm (writesSameVar_nodup g r)]
    constructor
    · rintro ⟨⟨w, hw, hrf⟩, hunique⟩
      refine ⟨w, hrf, fun w' hrf' => ?_⟩
      by_contra hne
      exact hunique w' (hx w' r hrf').2 w hw hne ⟨hrf', hrf⟩
    · rintro ⟨w, hrf, hunique⟩
      refine ⟨⟨w, (hx w r hrf).2, hrf⟩, fun a _ b _ hne h => hne ?_⟩
      rw [hunique a h.1, hunique b h.2]
  unfold assertReadsFrom
  exact ((requires_heading _).bind (requires_forM hpart)).congr (by rw [true_and])

def Orders (x : Choice) (ws : List Nat) : Prop :=
  (∀ a ∈ ws, ∀ b ∈ ws, a ≠ b → (x.co a b ∨ x.co b a) ∧ ¬ (x.co a b ∧ x.co b a)) ∧
    ∀ a ∈ ws, ∀ b ∈ ws, ∀ c ∈ ws, a ≠ b → b ≠ c → a ≠ c → x.co a b → x.co b c → x.co a c

def laterWrites (g : EventGraph) (y : String) : List Nat :=
  (g.writesTo y).filter fun w => !isInit g w

theorem laterWrites_nodup (g : EventGraph) (y : String) : (laterWrites g y).Nodup :=
  ((List.nodup_range.filter _).filter _).filter _

theorem tells_co {y : String} (hf : Shows env g x) (ha : a ∈ laterWrites g y)
    (hb : b ∈ laterWrites g y) (hne : a ≠ b) : (coTerm g a b).Tells env (x.co a b) := by
  have ha' := List.mem_of_mem_filter ha
  exact hf.co a (List.mem_of_mem_filter ha') b
    (EventGraph.mem_writesSameVar_of_writesTo ha' (List.mem_of_mem_filter hb)) hne

theorem mem_triples {p : Nat × Nat × Nat} : p ∈ triples ws ↔ p.1 ∈ ws ∧ p.2.1 ∈ ws ∧
    p.2.2 ∈ ws ∧ p.1 ≠ p.2.1 ∧ p.2.1 ≠ p.2.2 ∧ p.1 ≠ p.2.2 := by
  obtain ⟨a, b, c⟩ := p
  simp only [triples, List.mem_flatMap, List.mem_map, List.mem_filter, Prod.mk.injEq,
    Bool.and_eq_true, bne_iff_ne]
  constructor
  · rintro ⟨a', ha, b', hb, c', ⟨hc, ⟨hab, hbc⟩, hac⟩, rfl, rfl, rfl⟩
    exact ⟨ha, hb, hc, hab, hbc, hac⟩
  · rintro ⟨ha, hb, hc, hab, hbc, hac⟩
    exact ⟨a, ha, b, hb, c, ⟨hc, ⟨hab, hbc⟩, hac⟩, rfl, rfl, rfl⟩

theorem requires_coherence (g : EventGraph) (o : Outcome) (x : Choice) (ρ : Meaning)
    (v : Valuation) : Requires g o x ρ v (assertCoherence g)
      (∀ y ∈ g.sharedVars.toList, Orders x (laterWrites g y)) := by
  have hpart : ∀ y ∈ g.sharedVars.toList, Requires g o x ρ v
      (do
        (laterPairs (laterWrites g y)).forM fun p => do
          assert (.mkOr [coTerm g p.1 p.2, coTerm g p.2 p.1])
          assert (.mkNot (.mkAnd [coTerm g p.1 p.2, coTerm g p.2 p.1]))
        (triples (laterWrites g y)).forM fun p =>
          assert (.mkImplies (.mkAnd [coTerm g p.1 p.2.1, coTerm g p.2.1 p.2.2])
            (coTerm g p.1 p.2.2)))
      (Orders x (laterWrites g y)) := by
    intro y _
    have hpair : ∀ p ∈ laterPairs (laterWrites g y), Requires g o x ρ v
        (do
          assert (.mkOr [coTerm g p.1 p.2, coTerm g p.2 p.1])
          assert (.mkNot (.mkAnd [coTerm g p.1 p.2, coTerm g p.2 p.1])))
        ((x.co p.1 p.2 ∨ x.co p.2 p.1) ∧ ¬ (x.co p.1 p.2 ∧ x.co p.2 p.1)) := by
      intro p hp
      obtain ⟨h₁, h₂, hne⟩ := mem_laterPairs (laterWrites_nodup g y) hp
      refine (requires_assert fun env hf => ?_).bind (requires_assert fun env hf => ?_)
      · exact ((tells_co hf.shows h₁ h₂ hne).mkOr
          (tells_co hf.shows h₂ h₁ hne.symm)).decides_true
      · exact ((tells_co hf.shows h₁ h₂ hne).mkAnd
          (tells_co hf.shows h₂ h₁ hne.symm)).mkNot.decides_true
    have htriple : ∀ p ∈ triples (laterWrites g y), Requires g o x ρ v
        (assert (.mkImplies (.mkAnd [coTerm g p.1 p.2.1, coTerm g p.2.1 p.2.2])
          (coTerm g p.1 p.2.2)))
        (x.co p.1 p.2.1 ∧ x.co p.2.1 p.2.2 → x.co p.1 p.2.2) := by
      intro p hp
      obtain ⟨ha, hb, hc, hab, hbc, hac⟩ := mem_triples.1 hp
      exact requires_assert fun env hf => (((tells_co hf.shows ha hb hab).mkAnd
        (tells_co hf.shows hb hc hbc)).mkImplies fun _ => tells_co hf.shows ha hc hac).decides_true
    refine ((requires_forM hpair).bind (requires_forM htriple)).congr (and_congr ?_ ?_)
    · rw [forall_laterPairs (P := fun a b => (x.co a b ∨ x.co b a) ∧ ¬ (x.co a b ∧ x.co b a)),
        pairwise_iff _ (laterWrites_nodup g y)]
      exact fun a b h => ⟨h.1.symm, fun h' => h.2 h'.symm⟩
    · constructor
      · intro h a ha b hb c hc hab hbc hac h₁ h₂
        exact h (a, b, c) (mem_triples.2 ⟨ha, hb, hc, hab, hbc, hac⟩) ⟨h₁, h₂⟩
      · intro h p hp
        obtain ⟨ha, hb, hc, hab, hbc, hac⟩ := mem_triples.1 hp
        exact fun h' => h _ ha _ hb _ hc hab hbc hac h'.1 h'.2
  unfold assertCoherence
  exact ((requires_heading _).bind (requires_forM hpart)).congr (by rw [true_and])

theorem mem_laterWrites {y : String} :
    a ∈ laterWrites g y ↔ a ∈ g.writesTo y ∧ isInit g a = false := by
  rw [laterWrites, List.mem_filter, Bool.not_eq_true']

theorem exists_variable (ha : a ∈ g.writes) : ∃ y ∈ g.sharedVars.toList, a ∈ g.writesTo y ∧
    ∀ b ∈ g.writesSameVar a, b ∈ g.writesTo y := by
  obtain ⟨e, he, hw⟩ := EventGraph.mem_writes.1 ha
  refine ⟨e.var, OrderedSet.mem_ofList.2 (List.mem_map.2 ⟨e, ?_, rfl⟩),
    EventGraph.mem_writesTo.2 ⟨e, he, hw, rfl⟩, fun b hb => ?_⟩
  · exact Array.mem_toList_iff.2 (Array.mem_of_getElem? he)
  · obtain ⟨d, f, hd, hf, hfw, hv⟩ := EventGraph.mem_writesSameVar.1 hb
    obtain rfl := Option.some.inj (he.symm.trans hd)
    exact EventGraph.mem_writesTo.2 ⟨f, hf, hfw, hv.symm⟩

namespace Shows

theorem initial (hf : Shows env g x) (ha : a ∈ g.writes) (hi : isInit g a = true)
    (hb : b ∈ g.writesSameVar a) (hne : a ≠ b) : x.co a b := by
  have h := hf.co a ha b hb hne
  rw [coTerm, if_pos hi] at h
  exact h.decides_true.1 (Term.decides_bool.2 rfl)

/-- Nothing comes before an initial write, as there is but one for each variable. -/
theorem not_init (hf : Shows env g x) (hg : g.Regular) (h : x.co a b) : isInit g b = false := by
  obtain ⟨ha, hb, hne⟩ := hf.writes a b h
  by_contra hi
  rw [Bool.not_eq_false] at hi
  by_cases hia : isInit g a = true
  · obtain ⟨d, e, hd, he, -, hv⟩ := EventGraph.mem_writesSameVar.1 hb
    obtain ⟨d', hd', hid⟩ := EventGraph.isNode_iff.1 hia
    obtain ⟨e', he', hie⟩ := EventGraph.isNode_iff.1 hi
    obtain rfl := Option.some.inj (hd.symm.trans hd')
    obtain rfl := Option.some.inj (he.symm.trans he')
    exact hne (hg.once a b d e hd he hid hie hv)
  · have htells := hf.co a ha b hb hne
    rw [coTerm, if_neg hia, if_pos hi] at htells
    exact absurd (Term.decides_bool.1 (htells.decides_true.2 h)) (by decide)

/-- The assertions are about writes with symbols only, which is enough. -/
theorem proper_iff (hf : Shows env g x) (hg : g.Regular) : x.Proper g ↔
    (∀ r ∈ g.reads, ∃! w, x.rf w r) ∧ ∀ y ∈ g.sharedVars.toList, Orders x (laterWrites g y) := by
  constructor
  · intro h
    have hasymm : ∀ a b, ¬ (x.co a b ∧ x.co b a) := fun a b hab =>
      h.irrefl a (h.trans a b a hab.1 hab.2)
    refine ⟨h.sourced, fun y _ => ⟨fun a ha b hb hne => ⟨?_, hasymm a b⟩, ?_⟩⟩
    · have ha' := (mem_laterWrites.1 ha).1
      exact h.total a (List.mem_of_mem_filter ha') b
        (EventGraph.mem_writesSameVar_of_writesTo ha' (mem_laterWrites.1 hb).1) hne
    · exact fun a _ b _ c _ _ _ _ h₁ h₂ => h.trans a b c h₁ h₂
  · rintro ⟨hsourced, horders⟩
    have hasymm : ∀ a b, x.co a b → ¬ x.co b a := by
      intro a b hab hba
      obtain ⟨ha, hb, hne⟩ := hf.writes a b hab
      obtain ⟨y, hy, hay, hall⟩ := exists_variable ha
      have ha' : a ∈ laterWrites g y := mem_laterWrites.2 ⟨hay, hf.not_init hg hba⟩
      have hb' : b ∈ laterWrites g y := mem_laterWrites.2 ⟨hall b hb, hf.not_init hg hab⟩
      exact ((horders y hy).1 a ha' b hb' hne).2 ⟨hab, hba⟩
    refine ⟨hf.source, hsourced, fun a b h => ?_, fun a h => ?_, fun a b c hab hbc => ?_,
      fun a ha b hb hne => ?_, fun a ha hi b hb hne => hf.initial ha hi hb hne⟩
    · exact ⟨(hf.writes a b h).1, (hf.writes a b h).2.1⟩
    · exact (hf.writes a a h).2.2 rfl
    · obtain ⟨ha, hb, hne⟩ := hf.writes a b hab
      have hc := EventGraph.writesSameVar_trans hb (hf.writes b c hbc).2.1
      have hac : a ≠ c := by
        rintro rfl
        exact hasymm a b hab hbc
      by_cases hi : isInit g a = true
      · exact hf.initial ha hi hc hac
      · obtain ⟨y, hy, hay, hall⟩ := exists_variable ha
        have ha' : a ∈ laterWrites g y := mem_laterWrites.2 ⟨hay, Bool.eq_false_iff.2 hi⟩
        have hb' : b ∈ laterWrites g y := mem_laterWrites.2 ⟨hall b hb, hf.not_init hg hab⟩
        have hc' : c ∈ laterWrites g y := mem_laterWrites.2 ⟨hall c hc, hf.not_init hg hbc⟩
        exact (horders y hy).2 a ha' b hb' c hc' hne (hf.writes b c hbc).2.2 hac hab hbc
    · by_cases hi : isInit g a = true
      · exact .inl (hf.initial ha hi hb hne)
      · obtain ⟨y, hy, hay, hall⟩ := exists_variable ha
        by_cases hib : isInit g b = true
        · have hb' := EventGraph.mem_writes_of_sameVar hb
          have hsame := EventGraph.mem_writesSameVar_of_writesTo (hall b hb) hay
          exact .inr (hf.initial hb' hib hsame hne.symm)
        · have ha' : a ∈ laterWrites g y := mem_laterWrites.2 ⟨hay, Bool.eq_false_iff.2 hi⟩
          have hb' : b ∈ laterWrites g y :=
            mem_laterWrites.2 ⟨hall b hb, Bool.eq_false_iff.2 hib⟩
          exact ((horders y hy).1 a ha' b hb' hne).1

end Shows
end Consistency.Query
