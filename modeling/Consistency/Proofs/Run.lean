import Mathlib.Data.List.Forall2

/-!
# Runs that end well

Computations with a state and errors, taken apart along the way to their
result: a sequence ends well exactly if its parts do, one after the other.
-/

set_option autoImplicit false

namespace Consistency
variable {σ ε α β : Type}

def Runs (m : StateT σ (Except ε) α) (s : σ) (a : α) (t : σ) : Prop := m.run s = .ok (a, t)

theorem forall₂_mem_left {P : α → β → Prop} {xs : List α} {ys : List β}
    (h : List.Forall₂ P xs ys) {x : α} (hx : x ∈ xs) : ∃ y ∈ ys, P x y := by
  induction h with
  | nil => exact absurd hx (by simp)
  | @cons a b _ _ hp _ ih =>
    rcases List.mem_cons.1 hx with rfl | hx
    · exact ⟨b, by simp, hp⟩
    · obtain ⟨y, hy, hp⟩ := ih hx
      exact ⟨y, List.mem_cons_of_mem _ hy, hp⟩

theorem forall₂_mem_right {P : α → β → Prop} {xs : List α} {ys : List β}
    (h : List.Forall₂ P xs ys) {y : β} (hy : y ∈ ys) : ∃ x ∈ xs, P x y := by
  obtain ⟨x, hx, hp⟩ := forall₂_mem_left h.flip hy
  exact ⟨x, hx, hp⟩

theorem mapM_eq_some {f : α → Option β} {xs : List α} {ys : List β} :
    xs.mapM f = some ys ↔ List.Forall₂ (fun x y => f x = some y) xs ys := by
  induction xs generalizing ys with
  | nil => simp [eq_comm]
  | cons x xs ih =>
    simp only [List.mapM_cons, Option.bind_eq_bind, Option.bind_eq_some_iff, ih, Option.pure_def,
      Option.some.injEq, List.forall₂_cons_left_iff]
    constructor
    · rintro ⟨y, hy, zs, hzs, rfl⟩
      exact ⟨y, zs, hy, hzs, rfl⟩
    · rintro ⟨y, zs, hy, hzs, rfl⟩
      exact ⟨y, hy, zs, hzs, rfl⟩

theorem forM_ok {f : α → Except ε Unit} {xs : List α} (h : xs.forM f = .ok ()) :
    ∀ y ∈ xs, f y = .ok () := by
  induction xs with
  | nil => simp
  | cons y ys ih =>
    change (f y >>= fun _ => ys.forM f) = .ok () at h
    cases hy : f y with
    | error e => simp [hy, bind, Except.bind] at h
    | ok u =>
      rw [hy] at h
      exact List.forall_mem_cons.2 ⟨hy, ih h⟩

theorem forM_of_ok {f : α → Except ε Unit} {xs : List α} (h : ∀ y ∈ xs, f y = .ok ()) :
    xs.forM f = .ok () := by
  induction xs with
  | nil => rfl
  | cons y ys ih =>
    rw [List.forall_mem_cons] at h
    show (f y >>= fun _ => ys.forM f) = .ok ()
    rw [h.1]
    exact ih h.2

theorem bind_eq_ok {m : Except ε α} {f : α → Except ε β} {b : β} :
    (m >>= f) = .ok b ↔ ∃ a, m = .ok a ∧ f a = .ok b := by
  cases m <;> simp [bind, Except.bind]

theorem map_eq_ok {f : α → β} {m : Except ε α} {b : β} :
    m.map f = .ok b ↔ ∃ a, m = .ok a ∧ f a = b := by
  cases m <;> simp [Except.map]

theorem bind_eq_error {m : Except ε α} {f : α → Except ε β} {e : ε} :
    (m >>= f) = .error e ↔ m = .error e ∨ ∃ a, m = .ok a ∧ f a = .error e := by
  cases m <;> simp [bind, Except.bind]

/-- What fails, fails at one of the elements. -/
theorem forM_error {f : α → Except ε Unit} {xs : List α} {e : ε} (h : xs.forM f = .error e) :
    ∃ x ∈ xs, f x = .error e := by
  induction xs with
  | nil => exact absurd h (by simp [pure, Except.pure])
  | cons x xs ih =>
    change (f x >>= fun _ => xs.forM f) = .error e at h
    rcases bind_eq_error.1 h with hx | ⟨_, _, hxs⟩
    · exact ⟨x, by simp, hx⟩
    · obtain ⟨y, hy, hfail⟩ := ih hxs
      exact ⟨y, List.mem_cons_of_mem _ hy, hfail⟩

theorem foldlM_error {f : β → α → Except ε β} {xs : List α} {b : β} {e : ε}
    (h : xs.foldlM f b = .error e) : ∃ x ∈ xs, ∃ c, f c x = .error e := by
  induction xs generalizing b with
  | nil => exact absurd h (by simp [pure, Except.pure])
  | cons x xs ih =>
    rw [List.foldlM_cons] at h
    rcases bind_eq_error.1 h with hx | ⟨c, _, hxs⟩
    · exact ⟨x, by simp, b, hx⟩
    · obtain ⟨y, hy, hfail⟩ := ih hxs
      exact ⟨y, List.mem_cons_of_mem _ hy, hfail⟩

theorem mapM_eq_ok {f : α → Except ε β} {xs : List α} {ys : List β} :
    xs.mapM f = .ok ys ↔ List.Forall₂ (fun x y => f x = .ok y) xs ys := by
  induction xs generalizing ys with
  | nil => simp [pure, Except.pure, eq_comm]
  | cons x xs ih =>
    simp only [List.mapM_cons, bind_eq_ok, ih, List.forall₂_cons_left_iff, pure, Except.pure,
      Except.ok.injEq]
    constructor
    · rintro ⟨y, hy, zs, hzs, rfl⟩
      exact ⟨y, zs, hy, hzs, rfl⟩
    · rintro ⟨y, zs, hy, hzs, rfl⟩
      exact ⟨y, hy, zs, hzs, rfl⟩

namespace Runs

theorem unique {m : StateT σ (Except ε) α} {s t u : σ} {a b : α} (h : Runs m s a t)
    (k : Runs m s b u) : a = b ∧ t = u := by
  have hk := Except.ok.inj (h.symm.trans k)
  exact ⟨congrArg Prod.fst hk, congrArg Prod.snd hk⟩

/-- After a computation that ended well the next one goes on. -/
theorem run_bind {m : StateT σ (Except ε) α} {s t : σ} {a : α} (h : Runs m s a t)
    (k : α → StateT σ (Except ε) β) : (m >>= k).run s = (k a).run t := by
  rw [StateT.run_bind, h]
  rfl

@[simp] theorem bind_iff {m : StateT σ (Except ε) α} {f : α → StateT σ (Except ε) β} {s u : σ}
    {b : β} : Runs (m >>= f) s b u ↔ ∃ a t, Runs m s a t ∧ Runs (f a) t b u := by
  unfold Runs
  rw [StateT.run_bind]
  cases hm : m.run s with
  | error e => simp [bind, Except.bind]
  | ok p =>
    obtain ⟨a, t⟩ := p
    constructor
    · exact fun h => ⟨a, t, rfl, h⟩
    · rintro ⟨a', t', h, hf⟩
      obtain ⟨rfl, rfl⟩ := Prod.mk.inj (Except.ok.inj h)
      exact hf

@[simp] theorem pure_iff {s t : σ} {a b : α} :
    Runs (pure a : StateT σ (Except ε) α) s b t ↔ b = a ∧ t = s := by
  constructor
  · intro h
    obtain ⟨rfl, rfl⟩ := Prod.mk.inj (Except.ok.inj h)
    exact ⟨rfl, rfl⟩
  · rintro ⟨rfl, rfl⟩
    rfl

@[simp] theorem get_iff {s t : σ} {a : σ} :
    Runs (get : StateT σ (Except ε) σ) s a t ↔ a = s ∧ t = s := by
  constructor
  · intro h
    obtain ⟨rfl, rfl⟩ := Prod.mk.inj (Except.ok.inj h)
    exact ⟨rfl, rfl⟩
  · rintro ⟨rfl, rfl⟩
    rfl

@[simp] theorem modify_iff {f : σ → σ} {s t : σ} {u : PUnit} :
    Runs (modify f : StateT σ (Except ε) PUnit) s u t ↔ t = f s := by
  constructor
  · intro h
    obtain ⟨_, rfl⟩ := Prod.mk.inj (Except.ok.inj h)
    rfl
  · rintro rfl
    rfl

@[simp] theorem modifyGet_iff {f : σ → α × σ} {s t : σ} {a : α} :
    Runs (modifyGet f : StateT σ (Except ε) α) s a t ↔ f s = (a, t) := by
  constructor
  · exact fun h => Except.ok.inj h
  · exact fun h => congrArg Except.ok h

@[simp] theorem throw_iff {e : ε} {s t : σ} {a : α} :
    Runs (throw e : StateT σ (Except ε) α) s a t ↔ False :=
  ⟨fun h => by injection h, False.elim⟩

theorem mapM_nil {f : α → StateT σ (Except ε) β} {s t : σ} {ys : List β} :
    Runs (List.mapM f []) s ys t ↔ ys = [] ∧ t = s := by
  rw [List.mapM_nil, pure_iff]

theorem mapM_cons {f : α → StateT σ (Except ε) β} {x : α} {xs : List α} {s t : σ}
    {ys : List β} : Runs (List.mapM f (x :: xs)) s ys t ↔
      ∃ y zs u, ys = y :: zs ∧ Runs (f x) s y u ∧ Runs (xs.mapM f) u zs t := by
  simp only [List.mapM_cons, bind_iff, pure_iff]
  constructor
  · rintro ⟨y, u, hx, zs, _, hxs, rfl, rfl⟩
    exact ⟨y, zs, u, rfl, hx, hxs⟩
  · rintro ⟨y, zs, u, rfl, hx, hxs⟩
    exact ⟨y, u, hx, zs, t, hxs, rfl, rfl⟩

theorem forM_nil {f : α → StateT σ (Except ε) PUnit} {s t : σ} {u : PUnit} :
    Runs (List.forM [] f) s u t ↔ t = s := by
  change Runs (pure ⟨⟩) s u t ↔ t = s
  simp

theorem forM_cons {f : α → StateT σ (Except ε) PUnit} {x : α} {xs : List α} {s t : σ}
    {u : PUnit} : Runs (List.forM (x :: xs) f) s u t ↔
      ∃ w, Runs (f x) s ⟨⟩ w ∧ Runs (xs.forM f) w ⟨⟩ t := by
  change Runs (f x >>= fun _ => xs.forM f) s u t ↔ _
  rw [bind_iff]
  constructor
  · rintro ⟨_, w, hx, hxs⟩
    exact ⟨w, hx, hxs⟩
  · rintro ⟨w, hx, hxs⟩
    exact ⟨_, w, hx, hxs⟩

/-- An invariant `I` of every step holds at the end, and what `Q` says of each result still
does if no step `R` unsays it. -/
theorem mapM {I : σ → Prop} {R : σ → σ → Prop} {Q : α → β → σ → Prop}
    {f : α → StateT σ (Except ε) β} {xs : List α} {s t : σ} {ys : List β}
    (stable : ∀ x y s t, R s t → Q x y s → Q x y t)
    (step : ∀ x ∈ xs, ∀ s t y, I s → Runs (f x) s y t → I t ∧ R s t ∧ Q x y t)
    (hI : I s) (h : Runs (xs.mapM f) s ys t) :
    I t ∧ List.Forall₂ (fun x y => Q x y t) xs ys := by
  suffices hs : I t ∧ List.Forall₂ (fun x y => Q x y t) xs ys ∧
      ∀ P : σ → Prop, (∀ {s t}, R s t → P s → P t) → P s → P t from ⟨hs.1, hs.2.1⟩
  induction xs generalizing s ys with
  | nil =>
    obtain ⟨rfl, rfl⟩ := mapM_nil.1 h
    exact ⟨hI, .nil, fun _ _ hp => hp⟩
  | cons x xs ih =>
    obtain ⟨y, zs, u, rfl, hx, hxs⟩ := mapM_cons.1 h
    obtain ⟨hu, hr, hq⟩ := step x (by simp) s u y hI hx
    obtain ⟨ht, hz, hp⟩ := ih (fun x hm => step x (List.mem_cons_of_mem _ hm)) hu hxs
    exact ⟨ht, .cons (hp (Q x y) (fun h => stable x y _ _ h) hq) hz,
      fun P hP h => hp P hP (hP hr h)⟩

/-- If each step goes through from wherever `R` leads, all do, and what `Q` says of the results
holds in the end. -/
theorem exists_mapM {R : σ → σ → Prop} {Q : α → β → σ → Prop}
    {f : α → StateT σ (Except ε) β} {xs : List α} {s : σ} (refl : ∀ s, R s s)
    (trans : ∀ s t u, R s t → R t u → R s u) (stable : ∀ x y s t, R s t → Q x y s → Q x y t)
    (step : ∀ x ∈ xs, ∀ t, R s t → ∃ y u, Runs (f x) t y u ∧ R t u ∧ Q x y u) :
    ∃ ys t, Runs (xs.mapM f) s ys t ∧ R s t ∧ List.Forall₂ (fun x y => Q x y t) xs ys := by
  induction xs generalizing s with
  | nil => exact ⟨[], s, mapM_nil.2 ⟨rfl, rfl⟩, refl s, .nil⟩
  | cons x xs ih =>
    obtain ⟨y, u, hx, hr, hq⟩ := step x (by simp) s (refl s)
    obtain ⟨ys, t, hxs, hrt, hys⟩ := ih fun z hz w hw =>
      step z (List.mem_cons_of_mem _ hz) w (trans s u w hr hw)
    exact ⟨y :: ys, t, mapM_cons.2 ⟨y, ys, u, rfl, hx, hxs⟩, trans s u t hr hrt,
      .cons (stable x y u t hrt hq) hys⟩

theorem map_iff {m : StateT σ (Except ε) α} {f : α → β} {s t : σ} {b : β} :
    Runs (f <$> m) s b t ↔ ∃ a, Runs m s a t ∧ b = f a := by
  rw [← bind_pure_comp, bind_iff]
  constructor
  · rintro ⟨a, u, hm, hp⟩
    obtain ⟨rfl, rfl⟩ := pure_iff.1 hp
    exact ⟨a, hm, rfl⟩
  · rintro ⟨a, hm, rfl⟩
    exact ⟨a, t, hm, pure_iff.2 ⟨rfl, rfl⟩⟩

theorem array_mapM_iff {f : α → StateT σ (Except ε) β} {xs : Array α} {ys : Array β} {s t : σ} :
    Runs (xs.mapM f) s ys t ↔ Runs (xs.toList.mapM f) s ys.toList t := by
  rw [Array.mapM_eq_mapM_toList, map_iff]
  constructor
  · rintro ⟨zs, h, rfl⟩
    exact h
  · exact fun h => ⟨_, h, rfl⟩

end Runs
end Consistency
