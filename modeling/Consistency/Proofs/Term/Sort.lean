import Consistency.Proofs.Term.Decided
import Consistency.Proofs.Term.WellFormed

/-!
# Sorts of terms

A term of a sort has a value of that sort once its constants have, unless it
does arithmetic, which may be undefined.
-/

set_option autoImplicit false

namespace Consistency

def Environment.Respects (env : Environment) (Γ : String → Option ValueSort) : Prop :=
  ∀ x k, Γ x = some k → ∃ v, env x = some v ∧ v.sort = k

namespace Term

mutual
/-- The term is of a sort when its constants are of those that `Γ` gives them. Only operands of
`distinct` that have another one to differ from are looked at. -/
def OfSort (Γ : String → Option ValueSort) (arithmetic : Prop) (k : ValueSort) : Term → Prop
  | .bool _ => k = .bool
  | .int _ => k = .int
  | .const x => Γ x = some k
  | .not a => k = .bool ∧ OfSort Γ arithmetic .bool a
  | .and as | .or as => k = .bool ∧ AllOfSort Γ arithmetic .bool as
  | .implies a b | .iff a b =>
    k = .bool ∧ OfSort Γ arithmetic .bool a ∧ OfSort Γ arithmetic .bool b
  | .eq a b => k = .bool ∧ ((OfSort Γ arithmetic .bool a ∧ OfSort Γ arithmetic .bool b) ∨
      (OfSort Γ arithmetic .int a ∧ OfSort Γ arithmetic .int b))
  | .distinct as => k = .bool ∧ (as.length ≤ 1 ∨ AllOfSort Γ arithmetic .bool as ∨
      AllOfSort Γ arithmetic .int as)
  | .ite c a b =>
    OfSort Γ arithmetic .bool c ∧ OfSort Γ arithmetic k a ∧ OfSort Γ arithmetic k b
  | .compare _ a b => k = .bool ∧ OfSort Γ arithmetic .int a ∧ OfSort Γ arithmetic .int b
  | .arith _ a b =>
    k = .int ∧ arithmetic ∧ OfSort Γ arithmetic .int a ∧ OfSort Γ arithmetic .int b
  | .neg a => k = .int ∧ arithmetic ∧ OfSort Γ arithmetic .int a
  | .app _ _ => False

def AllOfSort (Γ : String → Option ValueSort) (arithmetic : Prop) (k : ValueSort) :
    List Term → Prop
  | [] => True
  | a :: as => OfSort Γ arithmetic k a ∧ AllOfSort Γ arithmetic k as
end

variable {Γ Δ : String → Option ValueSort} {arithmetic : Prop} {k : ValueSort}

mutual
/-- Only the sorts of constants that occur matter. -/
theorem OfSort.mono (t : Term) {k : ValueSort}
    (hx : ∀ x ∈ t.consts, ∀ l, Γ x = some l → Δ x = some l) (h : t.OfSort Γ arithmetic k) :
    t.OfSort Δ arithmetic k := by
  cases t with
  | bool _ | int _ => exact h
  | const x => exact hx x (List.mem_singleton_self x) k h
  | app _ _ => exact h.elim
  | not a => exact ⟨h.1, OfSort.mono a hx h.2⟩
  | neg a => exact ⟨h.1, h.2.1, OfSort.mono a hx h.2.2⟩
  | and as | or as => exact ⟨h.1, AllOfSort.mono as hx h.2⟩
  | distinct as =>
    exact ⟨h.1, h.2.imp_right fun h => h.imp (AllOfSort.mono as hx) (AllOfSort.mono as hx)⟩
  | implies a b | iff a b | compare _ a b =>
    rw [consts, List.forall_mem_append] at hx
    exact ⟨h.1, OfSort.mono a hx.1 h.2.1, OfSort.mono b hx.2 h.2.2⟩
  | arith _ a b =>
    rw [consts, List.forall_mem_append] at hx
    exact ⟨h.1, h.2.1, OfSort.mono a hx.1 h.2.2.1, OfSort.mono b hx.2 h.2.2.2⟩
  | eq a b =>
    rw [consts, List.forall_mem_append] at hx
    exact ⟨h.1, h.2.imp (fun h => ⟨OfSort.mono a hx.1 h.1, OfSort.mono b hx.2 h.2⟩)
      fun h => ⟨OfSort.mono a hx.1 h.1, OfSort.mono b hx.2 h.2⟩⟩
  | ite c a b =>
    rw [consts, List.forall_mem_append, List.forall_mem_append] at hx
    exact ⟨OfSort.mono c hx.1 h.1, OfSort.mono a hx.2.1 h.2.1, OfSort.mono b hx.2.2 h.2.2⟩

theorem AllOfSort.mono (ts : List Term) {k : ValueSort}
    (hx : ∀ x ∈ constsOf ts, ∀ l, Γ x = some l → Δ x = some l)
    (h : AllOfSort Γ arithmetic k ts) : AllOfSort Δ arithmetic k ts := by
  cases ts with
  | nil => trivial
  | cons t ts =>
    rw [constsOf, List.forall_mem_append] at hx
    exact ⟨OfSort.mono t hx.1 h.1, AllOfSort.mono ts hx.2 h.2⟩
end

variable {env : Environment} {q : Int → Prop}

theorem decided_const {x : String} (h : ∃ v, env x = some v ∧ v.sort = .bool) :
    (Term.const x).Decided env := by
  obtain ⟨v, hv, hsort⟩ := h
  cases v with
  | bool b => exact ⟨b, hv⟩
  | int n => exact absurd hsort (by simp [Value.sort])

theorem computed_const {x : String} (h : ∃ v, env x = some v ∧ v.sort = .int) :
    (Term.const x).Computed env := by
  obtain ⟨v, hv, hsort⟩ := h
  cases v with
  | bool b => exact absurd hsort (by simp [Value.sort])
  | int n => exact ⟨n, hv⟩

mutual
theorem OfSort.decided (he : env.Respects Γ)
    (t : Term) (h : t.OfSort Γ False .bool) (hw : t.WellFormed q) : t.Decided env := by
  cases t with
  | bool b => exact ⟨b, rfl⟩
  | int n => exact absurd h (by simp [OfSort])
  | const x => exact decided_const (he x .bool h)
  | not a => exact (OfSort.decided he a h.2 hw).not
  | and as => exact decided_and (AllOfSort.decided he as h.2 hw)
  | or as => exact decided_or (AllOfSort.decided he as h.2 hw)
  | implies a b => exact (OfSort.decided he a h.2.1 hw.1).implies (OfSort.decided he b h.2.2 hw.2)
  | iff a b => exact (OfSort.decided he a h.2.1 hw.1).iff (OfSort.decided he b h.2.2 hw.2)
  | eq a b =>
    rcases h.2 with ⟨ha, hb⟩ | ⟨ha, hb⟩
    · exact (OfSort.decided he a ha hw.1).eq (OfSort.decided he b hb hw.2)
    · exact (OfSort.computed he a ha hw.1).eq (OfSort.computed he b hb hw.2)
  | distinct as =>
    refine decided_distinct fun t ht => ?_
    have hone := hw.1
    rcases h.2 with hfew | hall | hall
    · have hpos := List.length_pos_of_mem ht
      omega
    · obtain ⟨b, hb⟩ := AllOfSort.decided he as hall hw.2 t ht
      exact ⟨_, hb⟩
    · obtain ⟨n, hn⟩ := AllOfSort.computed he as hall hw.2 t ht
      exact ⟨_, hn⟩
  | ite c a b =>
    exact (OfSort.decided he c h.1 hw.1).ite (OfSort.decided he a h.2.1 hw.2.1)
      (OfSort.decided he b h.2.2 hw.2.2)
  | compare o a b =>
    exact (OfSort.computed he a h.2.1 hw.1).compare o (OfSort.computed he b h.2.2 hw.2)
  | arith _ _ _ | neg _ => exact h.2.1.elim
  | app _ _ => exact h.elim

theorem OfSort.computed (he : env.Respects Γ)
    (t : Term) (h : t.OfSort Γ False .int) (hw : t.WellFormed q) : t.Computed env := by
  cases t with
  | int n => exact ⟨n, rfl⟩
  | const x => exact computed_const (he x .int h)
  | ite c a b =>
    exact (OfSort.decided he c h.1 hw.1).computed_ite (OfSort.computed he a h.2.1 hw.2.1)
      (OfSort.computed he b h.2.2 hw.2.2)
  | bool b => exact absurd h (by simp [OfSort])
  | not _ | and _ | or _ | implies _ _ | iff _ _ | eq _ _ | distinct _ | compare _ _ _ =>
    exact absurd h.1 (by simp)
  | arith _ _ _ | neg _ => exact h.2.1.elim
  | app _ _ => exact h.elim

theorem AllOfSort.decided (he : env.Respects Γ)
    (ts : List Term) (h : AllOfSort Γ False .bool ts) (hw : WellFormedAll q ts) :
    ∀ t ∈ ts, t.Decided env := by
  cases ts with
  | nil => exact fun t ht => absurd ht List.not_mem_nil
  | cons t ts =>
    exact List.forall_mem_cons.2 ⟨OfSort.decided he t h.1 hw.1,
      AllOfSort.decided he ts h.2 hw.2⟩

theorem AllOfSort.computed (he : env.Respects Γ)
    (ts : List Term) (h : AllOfSort Γ False .int ts) (hw : WellFormedAll q ts) :
    ∀ t ∈ ts, t.Computed env := by
  cases ts with
  | nil => exact fun t ht => absurd ht List.not_mem_nil
  | cons t ts =>
    exact List.forall_mem_cons.2 ⟨OfSort.computed he t h.1 hw.1,
      AllOfSort.computed he ts h.2 hw.2⟩
end

end Term
end Consistency
