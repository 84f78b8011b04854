import Consistency.Litmus
import Consistency.Exploration
import Consistency.Proofs.Composition.Alone
import Consistency.Proofs.Run

/-!
# Lowering of structured code

The automaton of a thread is put together from fragments, one for each
instruction. A fragment is entered at one location and left at another, and a
walk that is inside can get out at the latter alone. So the walks from the start
to the final location are the traces of the code, for branches and loops nested
in any way.
-/

set_option autoImplicit false

namespace Consistency

inductive Walk (edges : List Edge) : Nat → List Label → Nat → Prop where
  | stay (l : Nat) : Walk edges l [] l
  | along {l stop : Nat} {w : List Label} (e : Edge) (mem : e ∈ edges) (source : e.source = l)
      (rest : Walk edges e.target w stop) : Walk edges l (e.label :: w) stop

namespace Walk
variable {edges more : List Edge} {l m stop : Nat} {u v w : List Label}

theorem mono (h : Walk edges l w m) (hsub : edges ⊆ more) : Walk more l w m := by
  induction h with
  | stay l => exact .stay l
  | along e he hs _ ih => exact .along e (hsub he) hs ih

theorem append (h : Walk edges l u m) (k : Walk edges m v stop) : Walk edges l (u ++ v) stop := by
  induction h with
  | stay l => exact k
  | along e he hs _ ih => exact .along e he hs (ih k)

theorem stays {inside : Nat → Prop} (h : Walk edges l w stop)
    (htarget : ∀ e ∈ edges, inside e.target) (hl : inside l) : inside stop := by
  induction h with
  | stay l => exact hl
  | along e he _ _ ih => exact ih (htarget e he)

/-- A walk stays where it is or goes along an edge first. -/
theorem iff_first : Walk edges l w stop ↔ (w = [] ∧ l = stop) ∨
    ∃ e ∈ edges, e.source = l ∧ ∃ v, Walk edges e.target v stop ∧ w = e.label :: v := by
  constructor
  · intro h
    cases h with
    | stay => exact .inl ⟨rfl, rfl⟩
    | along e he hs rest => exact .inr ⟨e, he, hs, _, rest, rfl⟩
  · rintro (⟨rfl, rfl⟩ | ⟨e, he, hs, v, hv, rfl⟩)
    · exact .stay l
    · exact .along e he hs hv

/-- Where no edge leads on, walks end. -/
theorem iff_stuck (h : ∀ e ∈ edges, e.source ≠ l) : Walk edges l w stop ↔ w = [] ∧ l = stop := by
  rw [iff_first]
  constructor
  · rintro (hend | ⟨e, he, hs, -⟩)
    · exact hend
    · exact absurd hs (h e he)
  · exact Or.inl

/-- Where one edge leads on, walks to another location go along it. -/
theorem iff_only {e : Edge} (he : e ∈ edges) (h : ∀ d ∈ edges, d.source = e.source → d = e)
    (hne : e.source ≠ stop) :
    Walk edges e.source w stop ↔ ∃ v, Walk edges e.target v stop ∧ w = e.label :: v := by
  rw [iff_first]
  constructor
  · rintro (⟨-, hstop⟩ | ⟨d, hd, hs, hv⟩)
    · exact absurd hstop hne
    · rwa [h d hd hs] at hv
  · exact fun hv => .inr ⟨e, he, rfl, hv⟩

/-- A walk that starts inside a set of locations, which is left at one location alone, comes to
this location before it goes anywhere else. By induction on the walk. -/
theorem exists_leave {inside : Nat → Prop} {part : List Edge}
    (hpart : ∀ e ∈ edges, inside e.source → e.source ≠ m → e ∈ part ∧ inside e.target)
    (hstop : inside stop → stop = m) (h : Walk edges l w stop) (hl : inside l) :
    ∃ u v, Walk part l u m ∧ Walk edges m v stop ∧ w = u ++ v := by
  induction h with
  | stay l =>
    obtain rfl := hstop hl
    exact ⟨[], [], .stay l, .stay l, rfl⟩
  | @along l stop w e he hs rest ih =>
    by_cases hm : l = m
    · subst hm
      exact ⟨[], _, .stay l, .along e he hs rest, rfl⟩
    · subst hs
      obtain ⟨hin, htarget⟩ := hpart e he hl hm
      obtain ⟨u, v, hu, hv, rfl⟩ := ih hstop htarget
      exact ⟨e.label :: u, v, .along e hin rfl hu, hv, rfl⟩

end Walk

def Expr.term? (e : Expr) : Option Term := e.toTerm.toOption

namespace Instr
section Traces
variable {ε : Type} (read : ε → Option Term)

def label? : Instr ε → Option Label
  | .skip => some .skip
  | .store var value => (read value).map (.store var)
  | .load reg var => some (.load reg var)
  | .assign reg value => (read value).map (.assign reg)
  | .nondet reg values => some (.nondet reg values)
  | .assume cond => (read cond).map .assume
  | .branch _ _ _ | .loop _ _ => none

mutual
/-- What an instruction may do, step by step, with the terms that are read from its expressions. -/
inductive Trace : Instr ε → List Label → Prop where
  | single {i : Instr ε} {label : Label} : i.label? read = some label → Trace i [label]
  | yes {e : ε} {c : Term} {yes no : List (Instr ε)} {w : List Label} : read e = some c →
      TraceAll yes w → Trace (.branch e yes no) (.assume c :: w ++ [.skip])
  | no {e : ε} {c : Term} {yes no : List (Instr ε)} {w : List Label} : read e = some c →
      TraceAll no w → Trace (.branch e yes no) (.assume (.mkNot c) :: w ++ [.skip])
  | done {e : ε} {c : Term} {body : List (Instr ε)} : read e = some c →
      Trace (.loop e body) [.assume (.mkNot c)]
  | again {e : ε} {c : Term} {body : List (Instr ε)} {u v : List Label} : read e = some c →
      TraceAll body u → Trace (.loop e body) v →
        Trace (.loop e body) (.assume c :: u ++ .skip :: v)

inductive TraceAll : List (Instr ε) → List Label → Prop where
  | nil : TraceAll [] []
  | cons {i : Instr ε} {is : List (Instr ε)} {u v : List Label} : Trace i u →
      TraceAll is v → TraceAll (i :: is) (u ++ v)
end

variable {read} {i : Instr ε} {is yes no body : List (Instr ε)} {e : ε} {c : Term} {label : Label}
  {w : List Label}

theorem trace_single (h : i.label? read = some label) : Trace read i w ↔ w = [label] := by
  constructor
  · intro ht
    cases ht with
    | single h' =>
      obtain rfl := Option.some.inj (h.symm.trans h')
      rfl
    | yes _ _ | no _ _ | done _ | again _ _ _ => exact absurd h (by simp [label?])
  · rintro rfl
    exact .single h

theorem trace_branch (hc : read e = some c) : Trace read (.branch e yes no) w ↔
    (∃ u, TraceAll read yes u ∧ w = .assume c :: u ++ [.skip]) ∨
      ∃ u, TraceAll read no u ∧ w = .assume (.mkNot c) :: u ++ [.skip] := by
  constructor
  · intro h
    cases h with
    | single h => exact absurd h (by simp [label?])
    | yes hc' h =>
      obtain rfl := Option.some.inj (hc.symm.trans hc')
      exact .inl ⟨_, h, rfl⟩
    | no hc' h =>
      obtain rfl := Option.some.inj (hc.symm.trans hc')
      exact .inr ⟨_, h, rfl⟩
  · rintro (⟨u, hu, rfl⟩ | ⟨u, hu, rfl⟩)
    · exact .yes hc hu
    · exact .no hc hu

theorem trace_loop (hc : read e = some c) : Trace read (.loop e body) w ↔
    w = [.assume (.mkNot c)] ∨ ∃ u v, TraceAll read body u ∧ Trace read (.loop e body) v ∧
      w = .assume c :: u ++ .skip :: v := by
  constructor
  · intro h
    cases h with
    | single h => exact absurd h (by simp [label?])
    | done hc' =>
      obtain rfl := Option.some.inj (hc.symm.trans hc')
      exact .inl rfl
    | again hc' hu hv =>
      obtain rfl := Option.some.inj (hc.symm.trans hc')
      exact .inr ⟨_, _, hu, hv, rfl⟩
  · rintro (rfl | ⟨u, v, hu, hv, rfl⟩)
    · exact .done hc
    · exact .again hc hu hv

theorem traceAll_nil : TraceAll read [] w ↔ w = [] := by
  constructor
  · intro h
    cases h
    rfl
  · rintro rfl
    exact .nil

theorem traceAll_cons :
    TraceAll read (i :: is) w ↔ ∃ u v, Trace read i u ∧ TraceAll read is v ∧ w = u ++ v := by
  constructor
  · intro h
    cases h with
    | cons hu hv => exact ⟨_, _, hu, hv, rfl⟩
  · rintro ⟨u, v, hu, hv, rfl⟩
    exact .cons hu hv

/-- By induction on the length: rounds through bodies with the same traces. -/
theorem trace_loop_congr {ζ : Type} {read' : ζ → Option Term} {e' : ζ} {body' : List (Instr ζ)}
    (hc : read e = some c) (hc' : read' e' = some c)
    (hbody : ∀ u, TraceAll read body u ↔ TraceAll read' body' u) (w : List Label) :
    Trace read (.loop e body) w ↔ Trace read' (.loop e' body') w := by
  induction hn : w.length using Nat.strongRecOn generalizing w with
  | _ n ih =>
    rw [trace_loop hc, trace_loop hc']
    refine or_congr_right (exists_congr fun u => exists_congr fun v =>
      and_congr (hbody u) (and_congr_left fun hw => ih v.length ?_ v rfl))
    rw [← hn, hw]
    simp
    omega

end Traces

theorem term?_of_toTerm {e : Expr} {c : Term} (h : e.toTerm = .ok c) : e.term? = some c := by
  rw [Expr.term?, h]
  rfl

/-- Expressions that are turned into terms keep the label. -/
theorem label?_of_resolve {i : Instr Expr} {j : Instr Term} {label : Label}
    (h : i.resolve = .ok j) (hj : j.label? some = some label) :
    i.label? Expr.term? = some label := by
  cases i with
  | skip | load _ _ =>
    cases h
    exact hj
  | store _ value | assign _ value | assume value =>
    obtain ⟨t, ht, h⟩ := bind_eq_ok.1 h
    cases h
    simpa [label?, term?_of_toTerm ht] using hj
  | nondet _ values =>
    rw [resolve] at h
    split at h
    · cases h
    · cases h
      exact hj
  | branch _ _ _ =>
    obtain ⟨_, -, h⟩ := bind_eq_ok.1 h
    obtain ⟨_, -, h⟩ := bind_eq_ok.1 h
    obtain ⟨_, -, h⟩ := bind_eq_ok.1 h
    cases h
    exact absurd hj (by simp [label?])
  | loop _ _ =>
    obtain ⟨_, -, h⟩ := bind_eq_ok.1 h
    obtain ⟨_, -, h⟩ := bind_eq_ok.1 h
    cases h
    exact absurd hj (by simp [label?])

mutual
/-- One case for each instruction: the traces of what is written are those of what it is turned
into. -/
theorem trace_resolve (i : Instr Expr) {j : Instr Term} (h : i.resolve = .ok j) (w : List Label) :
    Trace Expr.term? i w ↔ Trace some j w := by
  cases hj : j.label? some with
  | some label => rw [trace_single hj, trace_single (label?_of_resolve h hj)]
  | none =>
    cases i with
    | branch e yes no =>
      obtain ⟨c, hc, h⟩ := bind_eq_ok.1 h
      obtain ⟨yes', hyes, h⟩ := bind_eq_ok.1 h
      obtain ⟨no', hno, h⟩ := bind_eq_ok.1 h
      cases h
      rw [trace_branch (term?_of_toTerm hc), trace_branch rfl]
      exact or_congr (exists_congr fun u => and_congr_left' (traceAll_resolve yes hyes u))
        (exists_congr fun u => and_congr_left' (traceAll_resolve no hno u))
    | loop e body =>
      obtain ⟨c, hc, h⟩ := bind_eq_ok.1 h
      obtain ⟨body', hbody, h⟩ := bind_eq_ok.1 h
      cases h
      exact trace_loop_congr (term?_of_toTerm hc) rfl (traceAll_resolve body hbody) w
    | skip | load _ _ =>
      cases h
      exact absurd hj (by simp [label?])
    | store _ _ | assign _ _ | assume _ =>
      obtain ⟨t, -, h⟩ := bind_eq_ok.1 h
      cases h
      exact absurd hj (by simp [label?])
    | nondet _ values =>
      rw [resolve] at h
      split at h
      · cases h
      · cases h
        exact absurd hj (by simp [label?])

theorem traceAll_resolve (code : List (Instr Expr)) {code' : List (Instr Term)}
    (h : resolveAll code = .ok code') (w : List Label) :
    TraceAll Expr.term? code w ↔ TraceAll some code' w := by
  cases code with
  | nil =>
    cases h
    rw [traceAll_nil, traceAll_nil]
  | cons i is =>
    obtain ⟨j, hj, h⟩ := bind_eq_ok.1 h
    obtain ⟨js, hjs, h⟩ := bind_eq_ok.1 h
    cases h
    rw [traceAll_cons, traceAll_cons]
    exact exists_congr fun u => exists_congr fun v =>
      and_congr (trace_resolve i hj u) (and_congr_left' (traceAll_resolve is hjs v))
end

end Instr

abbrev Inside (start first last l : Nat) : Prop := l = start ∨ first ≤ l ∧ l < last

/-- Edges between the locations of a fragment, none of which leaves its end. There is one to leave
every other location, and the walks from the start to the end are given. -/
structure Fragment (edges : List Edge) (start first last finish : Nat)
    (Traces : List Label → Prop) : Prop where
  grows : first ≤ last
  exit : Inside start first last finish
  source : ∀ e ∈ edges, Inside start first last e.source ∧ e.source ≠ finish
  target : ∀ e ∈ edges, Inside start first last e.target
  leaves : ∀ l, Inside start first last l → l ≠ finish → ∃ e ∈ edges, e.source = l
  walks : ∀ w, Walk edges start w finish ↔ Traces w

namespace Fragment
open Instr
variable {es fs edges : List Edge} {start first mid last stop p q : Nat}
  {T U : List Label → Prop} {w : List Label}

theorem final (h : Fragment es start first last p T) : ∀ e ∈ es, e.source ≠ p :=
  fun e he => (h.source e he).2

/-- Among edges that do not leave a fragment but at its end, walks from its start go through. -/
theorem walk_iff (h : Fragment es start first last p T) (hsub : es ⊆ edges)
    (hin : ∀ e ∈ edges, Inside start first last e.source → e.source ≠ p → e ∈ es)
    (hstop : Inside start first last stop → stop = p) :
    Walk edges start w stop ↔ ∃ u v, T u ∧ Walk edges p v stop ∧ w = u ++ v := by
  constructor
  · intro hw
    obtain ⟨u, v, hu, hv, rfl⟩ := hw.exists_leave
      (fun e he hs hne => ⟨hin e he hs hne, h.target e (hin e he hs hne)⟩) hstop (.inl rfl)
    exact ⟨u, v, (h.walks u).1 hu, hv, rfl⟩
  · rintro ⟨u, v, hu, hv, rfl⟩
    exact (((h.walks u).2 hu).mono hsub).append hv

/-- A single edge leads on from the end of the fragment. -/
theorem walk_iff_skip (h : Fragment es start first last p T) (next : Nat) (hsub : es ⊆ edges)
    (hin : ∀ e ∈ edges, Inside start first last e.source → e.source ≠ p → e ∈ es)
    (hskip : ⟨p, next, .skip⟩ ∈ edges) (honly : ∀ e ∈ edges, e.source = p → e = ⟨p, next, .skip⟩)
    (hstop : ¬ Inside start first last stop) :
    Walk edges start w stop ↔ ∃ u v, T u ∧ Walk edges next v stop ∧ w = u ++ .skip :: v := by
  have hne : p ≠ stop := by
    rintro rfl
    exact hstop h.exit
  have hlast : ∀ v, Walk edges p v stop ↔ ∃ v', Walk edges next v' stop ∧ v = .skip :: v' :=
    fun v => Walk.iff_only hskip honly hne
  rw [h.walk_iff hsub hin fun hs => absurd hs hstop]
  constructor
  · rintro ⟨u, v, hu, hv, rfl⟩
    obtain ⟨v', hv', rfl⟩ := (hlast v).1 hv
    exact ⟨u, v', hu, hv', rfl⟩
  · rintro ⟨u, v, hu, hv, rfl⟩
    exact ⟨u, .skip :: v, hu, (hlast _).2 ⟨v, hv, rfl⟩, rfl⟩

theorem empty (start first : Nat) : Fragment [] start first first start fun w => w = [] where
  grows := Nat.le_refl first
  exit := .inl rfl
  source := by simp
  target := by simp
  leaves := by
    intro l hl hne
    omega
  walks := fun w => (Walk.iff_stuck (by simp)).trans (and_iff_left rfl)

theorem single (label : Label) (hs : start < first) :
    Fragment [⟨start, first, label⟩] start first (first + 1) first fun w => w = [label] where
  grows := Nat.le_succ first
  exit := by omega
  source := List.forall_mem_singleton.2 ⟨.inl rfl, Nat.ne_of_lt hs⟩
  target := List.forall_mem_singleton.2 (.inr ⟨Nat.le_refl first, Nat.lt_succ_self first⟩)
  leaves := by
    intro l hl hne
    exact ⟨_, List.mem_singleton_self _, show start = l by omega⟩
  walks := by
    intro w
    have hend : ∀ v, Walk [⟨start, first, label⟩] first v first ↔ v = [] := fun v =>
      (Walk.iff_stuck (by simp; omega)).trans (and_iff_left rfl)
    rw [Walk.iff_only (e := ⟨start, first, label⟩) (by simp) (by simp) (by simp; omega)]
    simp [hend]

/-- The second fragment starts where the first one ends. -/
theorem append (h : Fragment es start first mid p T) (k : Fragment fs p mid last q U)
    (hs : start < first) :
    Fragment (es ++ fs) start first last q fun w => ∃ u v, T u ∧ U v ∧ w = u ++ v := by
  have hp := h.exit
  have hq := k.exit
  have hfirst := h.grows
  have hlast := k.grows
  have hsource : ∀ e ∈ es ++ fs, (e ∈ es ∧ Inside start first mid e.source ∧ e.source ≠ p) ∨
      (e ∈ fs ∧ Inside p mid last e.source ∧ e.source ≠ q) := by
    intro e he
    rcases List.mem_append.1 he with he | he
    · exact .inl ⟨he, h.source e he⟩
    · exact .inr ⟨he, k.source e he⟩
  have hend : ∀ e ∈ es ++ fs, e.source ≠ q := by
    intro e he
    have := hsource e he
    omega
  refine ⟨by omega, by omega, fun e he => ⟨?_, hend e he⟩, fun e he => ?_, fun l hl hne => ?_,
    fun w => ?_⟩
  · have := hsource e he
    omega
  · rcases List.mem_append.1 he with he | he
    · have := h.target e he
      omega
    · have := k.target e he
      omega
  · by_cases hl' : l < mid ∧ l ≠ p
    · obtain ⟨e, he, hel⟩ := h.leaves l (by omega) hl'.2
      exact ⟨e, List.mem_append_left _ he, hel⟩
    · obtain ⟨e, he, hel⟩ := k.leaves l (by omega) hne
      exact ⟨e, List.mem_append_right _ he, hel⟩
  · have hrest : ∀ v, Walk (es ++ fs) p v q ↔ U v := by
      intro v
      rw [k.walk_iff (List.subset_append_right _ _) (fun e he hin hne => ?_) fun _ => rfl]
      · simp [Walk.iff_stuck hend]
      · rcases hsource e he with ⟨-, hes⟩ | ⟨hfs, -⟩
        · omega
        · exact hfs
    rw [h.walk_iff (List.subset_append_left _ _) (fun e he hin hne => ?_) fun hin => ?_]
    · simp [hrest]
    · rcases hsource e he with ⟨hes, -⟩ | ⟨-, hfs⟩
      · exact hes
      · omega
    · omega

section Branch
variable {c : Term} {yes no : List (Instr Term)}

def fork (c : Term) (es fs : List Edge) (start first mid last p q : Nat) : List Edge :=
  ⟨start, first, .assume c⟩ :: es ++ ⟨start, mid, .assume (.mkNot c)⟩ :: fs ++
    [⟨p, last, .skip⟩, ⟨q, last, .skip⟩]

variable (h : Fragment es first (first + 1) mid p (TraceAll some yes))
  (k : Fragment fs mid (mid + 1) last q (TraceAll some no))
include h k

theorem fork_source {e : Edge} (he : e ∈ fork c es fs start first mid last p q) :
    (e = ⟨start, first, .assume c⟩ ∧ e.source = start) ∨
      (e ∈ es ∧ Inside first (first + 1) mid e.source ∧ e.source ≠ p) ∨
      (e = ⟨start, mid, .assume (.mkNot c)⟩ ∧ e.source = start) ∨
      (e ∈ fs ∧ Inside mid (mid + 1) last e.source ∧ e.source ≠ q) ∨
      (e = ⟨p, last, .skip⟩ ∧ e.source = p) ∨ (e = ⟨q, last, .skip⟩ ∧ e.source = q) := by
  simp only [fork, List.cons_append, List.mem_cons, List.mem_append, List.not_mem_nil,
    or_false, or_assoc] at he
  rcases he with rfl | he | rfl | he | rfl | rfl
  · exact .inl ⟨rfl, rfl⟩
  · exact .inr (.inl ⟨he, h.source e he⟩)
  · exact .inr (.inr (.inl ⟨rfl, rfl⟩))
  · exact .inr (.inr (.inr (.inl ⟨he, k.source e he⟩)))
  · exact .inr (.inr (.inr (.inr (.inl ⟨rfl, rfl⟩))))
  · exact .inr (.inr (.inr (.inr (.inr ⟨rfl, rfl⟩))))

theorem fork_target {e : Edge} (he : e ∈ fork c es fs start first mid last p q) :
    Inside start first (last + 1) e.target := by
  have hfirst := h.grows
  have hlast := k.grows
  have hes := h.target e
  have hfs := k.target e
  simp only [fork, List.cons_append, List.mem_cons, List.mem_append, List.not_mem_nil] at he
  grind

theorem fork_leaves {l : Nat} (hl : Inside start first (last + 1) l) (hne : l ≠ last) :
    ∃ e ∈ fork c es fs start first mid last p q, e.source = l := by
  by_cases hes : Inside first (first + 1) mid l
  · by_cases hlp : l = p
    · exact ⟨⟨p, last, .skip⟩, by simp [fork], hlp.symm⟩
    · obtain ⟨e, he, hel⟩ := h.leaves l hes hlp
      exact ⟨e, by simp [fork, he], hel⟩
  · by_cases hfs : Inside mid (mid + 1) last l
    · by_cases hlq : l = q
      · exact ⟨⟨q, last, .skip⟩, by simp [fork], hlq.symm⟩
      · obtain ⟨e, he, hel⟩ := k.leaves l hfs hlq
        exact ⟨e, by simp [fork, he], hel⟩
    · exact ⟨⟨start, first, .assume c⟩, by simp [fork], show start = l by omega⟩

theorem fork_final (hs : start < first) :
    ∀ e ∈ fork c es fs start first mid last p q, e.source ≠ last := by
  intro e he
  have hp := h.exit
  have hq := k.exit
  have hfirst := h.grows
  have hlast := k.grows
  have := fork_source h k he
  omega

/-- Inside the first way, a walk gets to the end by the edge behind it. -/
theorem walk_yes (hs : start < first) (v : List Label) :
    Walk (fork c es fs start first mid last p q) first v last ↔
      ∃ u, TraceAll some yes u ∧ v = u ++ [.skip] := by
  have hp := h.exit
  have hq := k.exit
  have hfirst := h.grows
  have hlast := k.grows
  have hsource := fun e (he : e ∈ fork c es fs start first mid last p q) => fork_source h k he
  rw [h.walk_iff_skip last (fun e he => by simp [fork, he]) (by grind)
    (by simp [fork]) (by grind) (by omega)]
  simp [Walk.iff_stuck (fork_final h k hs)]

theorem walk_no (hs : start < first) (v : List Label) :
    Walk (fork c es fs start first mid last p q) mid v last ↔
      ∃ u, TraceAll some no u ∧ v = u ++ [.skip] := by
  have hp := h.exit
  have hq := k.exit
  have hfirst := h.grows
  have hlast := k.grows
  have hsource := fun e (he : e ∈ fork c es fs start first mid last p q) => fork_source h k he
  rw [k.walk_iff_skip last (fun e he => by simp [fork, he]) (by grind)
    (by simp [fork]) (by grind) (by omega)]
  simp [Walk.iff_stuck (fork_final h k hs)]

theorem branch (hs : start < first) : Fragment (fork c es fs start first mid last p q) start first
    (last + 1) last (Trace some (.branch c yes no)) := by
  have hp := h.exit
  have hq := k.exit
  have hfirst := h.grows
  have hlast := k.grows
  have hsource := fun e (he : e ∈ fork c es fs start first mid last p q) => fork_source h k he
  refine ⟨by omega, by omega, fun e he => ⟨?_, fork_final h k hs e he⟩,
    fun e he => fork_target h k he, fun l hl hne => fork_leaves h k hl hne, fun w => ?_⟩
  · have := hsource e he
    omega
  · rw [Walk.iff_first, trace_branch rfl]
    constructor
    · rintro (⟨-, hstop⟩ | ⟨e, he, hes, v, hv, rfl⟩)
      · omega
      · rcases hsource e he with ⟨rfl, -⟩ | hin | ⟨rfl, -⟩ | hin | hin | hin
        · obtain ⟨u, hu, rfl⟩ := (walk_yes h k hs v).1 hv
          exact .inl ⟨u, hu, rfl⟩
        · omega
        · obtain ⟨u, hu, rfl⟩ := (walk_no h k hs v).1 hv
          exact .inr ⟨u, hu, rfl⟩
        · omega
        · omega
        · omega
    · rintro (⟨u, hu, rfl⟩ | ⟨u, hu, rfl⟩)
      · exact .inr ⟨⟨start, first, .assume c⟩, by simp [fork], rfl, _,
          (walk_yes h k hs _).2 ⟨u, hu, rfl⟩, rfl⟩
      · exact .inr ⟨⟨start, mid, .assume (.mkNot c)⟩, by simp [fork], rfl, _,
          (walk_no h k hs _).2 ⟨u, hu, rfl⟩, rfl⟩

end Branch

section Loop
variable {c : Term} {body : List (Instr Term)}

def cycle (c : Term) (es : List Edge) (start first mid p : Nat) : List Edge :=
  ⟨start, first, .assume c⟩ :: es ++ [⟨p, start, .skip⟩, ⟨start, mid, .assume (.mkNot c)⟩]

variable (h : Fragment es first (first + 1) mid p (TraceAll some body))
include h

theorem cycle_source {e : Edge} (he : e ∈ cycle c es start first mid p) :
    (e = ⟨start, first, .assume c⟩ ∧ e.source = start) ∨
      (e ∈ es ∧ Inside first (first + 1) mid e.source ∧ e.source ≠ p) ∨
      (e = ⟨p, start, .skip⟩ ∧ e.source = p) ∨
      (e = ⟨start, mid, .assume (.mkNot c)⟩ ∧ e.source = start) := by
  have hes := h.source e
  simp only [cycle, List.cons_append, List.mem_cons, List.mem_append, List.not_mem_nil] at he
  grind

theorem cycle_target {e : Edge} (he : e ∈ cycle c es start first mid p) :
    Inside start first (mid + 1) e.target := by
  have hfirst := h.grows
  have hes := h.target e
  simp only [cycle, List.cons_append, List.mem_cons, List.mem_append, List.not_mem_nil] at he
  grind

theorem cycle_leaves {l : Nat} (hl : Inside start first (mid + 1) l) (hne : l ≠ mid) :
    ∃ e ∈ cycle c es start first mid p, e.source = l := by
  by_cases hes : Inside first (first + 1) mid l
  · by_cases hlp : l = p
    · exact ⟨⟨p, start, .skip⟩, by simp [cycle], hlp.symm⟩
    · obtain ⟨e, he, hel⟩ := h.leaves l hes hlp
      exact ⟨e, by simp [cycle, he], hel⟩
  · exact ⟨⟨start, first, .assume c⟩, by simp [cycle], show start = l by omega⟩

theorem cycle_final (hs : start < first) : ∀ e ∈ cycle c es start first mid p, e.source ≠ mid := by
  intro e he
  have hp := h.exit
  have hfirst := h.grows
  have := cycle_source h he
  omega

/-- A walk goes round, or out. -/
theorem walk_round (hs : start < first) (w : List Label) :
    Walk (cycle c es start first mid p) start w mid ↔ w = [.assume (.mkNot c)] ∨
      ∃ u v, TraceAll some body u ∧ Walk (cycle c es start first mid p) start v mid ∧
        w = .assume c :: u ++ .skip :: v := by
  have hp := h.exit
  have hfirst := h.grows
  have hsource := fun e (he : e ∈ cycle c es start first mid p) => cycle_source h he
  have hbody : ∀ v, Walk (cycle c es start first mid p) first v mid ↔ ∃ u v',
      TraceAll some body u ∧ Walk (cycle c es start first mid p) start v' mid ∧ v = u ++ .skip :: v' :=
    fun v => h.walk_iff_skip start (fun e he => by simp [cycle, he]) (by grind) (by simp [cycle])
      (by grind) (by omega)
  have hout : ∀ v, Walk (cycle c es start first mid p) mid v mid ↔ v = [] ∧ mid = mid := fun v =>
    Walk.iff_stuck (cycle_final h hs)
  rw [Walk.iff_first]
  constructor
  · rintro (⟨-, hstop⟩ | ⟨e, he, hes, v, hv, rfl⟩)
    · omega
    · rcases hsource e he with ⟨rfl, -⟩ | hin | hin | ⟨rfl, -⟩
      · obtain ⟨u, v', hu, hv', rfl⟩ := (hbody v).1 hv
        exact .inr ⟨u, v', hu, hv', rfl⟩
      · omega
      · omega
      · obtain ⟨rfl, -⟩ := (hout v).1 hv
        exact .inl rfl
  · rintro (rfl | ⟨u, v, hu, hv, rfl⟩)
    · exact .inr ⟨⟨start, mid, .assume (.mkNot c)⟩, by simp [cycle], rfl, [],
        (hout []).2 ⟨rfl, rfl⟩, rfl⟩
    · exact .inr ⟨⟨start, first, .assume c⟩, by simp [cycle], rfl, _,
        (hbody _).2 ⟨u, v, hu, hv, rfl⟩, rfl⟩

theorem loop (hs : start < first) :
    Fragment (cycle c es start first mid p) start first (mid + 1) mid (Trace some (.loop c body)) := by
  have hp := h.exit
  have hfirst := h.grows
  refine ⟨by omega, by omega, fun e he => ⟨?_, cycle_final h hs e he⟩,
    fun e he => cycle_target h he, fun l hl hne => cycle_leaves h hl hne, fun w => ?_⟩
  · have := cycle_source h he
    omega
  · -- What is left after a round is shorter.
    induction hn : w.length using Nat.strongRecOn generalizing w with
    | _ n ih =>
      rw [walk_round h hs, trace_loop rfl]
      refine or_congr_right (exists_congr fun u => exists_congr fun v => and_congr_right fun _ => ?_)
      refine and_congr_left fun hw => ih v.length ?_ v rfl
      rw [← hn, hw]
      simp
      omega

end Loop

end Fragment

namespace Automaton
variable {a b d : Automaton} {mid last source target : Nat} {es fs : List Edge}

structure Adds (a : Automaton) (last : Nat) (es : List Edge) (b : Automaton) : Prop where
  locations : b.locations = last
  edges : b.edges = a.edges ++ es
  initial : b.initial = a.initial
  finals : b.finals = a.finals

theorem build_ok {α : Type} {call : Arena.Building α} {x : α} {e : Arena}
    (h : call.run a.toArena = .ok x e) (keeps : call.Keeps) :
    ∃ b, a.build call keeps = .ok b ∧ b.toArena = e := by
  refine ⟨⟨call.after a.toArena, keeps a.toArena a.indexed⟩, ?_, ?_⟩
  · rw [build, h]
  · show call.after a.toArena = e
    rw [Arena.Building.after, h]

theorem Adds.refl (a : Automaton) : a.Adds a.locations [] a :=
  ⟨rfl, (List.append_nil _).symm, rfl, rfl⟩

theorem Adds.trans (h : a.Adds mid es b) (k : b.Adds last fs d) : a.Adds last (es ++ fs) d where
  locations := k.locations
  edges := by rw [k.edges, h.edges, List.append_assoc]
  initial := k.initial.trans h.initial
  finals := k.finals.trans h.finals

theorem addLocation_adds (a : Automaton) : a.Adds (a.locations + 1) [] a.addLocation :=
  ⟨Arena.locations_enlarge a.toArena, (List.append_nil _).symm, rfl, rfl⟩

/-- Edges between the locations of an automaton are all made. -/
theorem connect_adds (hs : source < a.locations) (ht : target < a.locations) (label : Label) :
    a.Adds a.locations [⟨source, target, label⟩] (a.connect source target label) := by
  have hconnect : (a.connect source target label).toArena =
      a.toArena.connect source target label := by
    obtain ⟨b, hb, hafter⟩ := build_ok (Arena.run_addEdge hs ht label)
      (Arena.addEdge_keeps source target label)
    rw [connect, addEdge, hb]
    exact hafter
  refine ⟨?_, ?_, ?_, ?_⟩ <;> rw [hconnect]
  · exact Arena.locations_connect _ _ _ _
  all_goals rfl

theorem extend_adds (hs : source < a.locations) (label : Label) :
    a.Adds (a.locations + 1) [⟨source, a.locations, label⟩] (a.extend source label) := by
  have hlarger := (addLocation_adds a).locations
  have hsource : source < a.addLocation.locations := by omega
  have hnew : a.locations < a.addLocation.locations := by omega
  have hconnect := connect_adds hsource hnew label
  rw [hlarger] at hconnect
  exact (addLocation_adds a).trans hconnect

end Automaton

namespace Instr
open Fragment Automaton
variable {i : Instr Term} {label : Label} {c : Term} {yes no body : List (Instr Term)}

theorem lower_single (a : Automaton) (start : Nat) (h : i.label? some = some label) :
    lower a start i = (a.extend start label, a.locations) := by
  cases i with
  | branch _ _ _ | loop _ _ => exact absurd h (by simp [label?])
  | _ =>
    obtain rfl := Option.some.inj h
    rw [lower]

/-- What is added behind a location is a fragment with these traces. -/
def Builds (build : Automaton → Nat → Automaton × Nat) (Traces : List Label → Prop) : Prop :=
  ∀ a start, start < a.locations → ∃ b es last stop, build a start = (b, stop) ∧
    a.Adds last es b ∧ Fragment es start a.locations last stop Traces

theorem builds_single (h : i.label? some = some label) :
    Builds (lower · · i) (Trace some i) := by
  intro a start hs
  have htraces : (fun w => w = [label]) = Trace some i :=
    funext fun w => propext (trace_single h).symm
  refine ⟨_, _, _, _, lower_single a start h, extend_adds hs label, ?_⟩
  rw [← htraces]
  exact .single label hs

theorem builds_branch (hyes : Builds (lowerAll · · yes) (TraceAll some yes))
    (hno : Builds (lowerAll · · no) (TraceAll some no)) :
    Builds (lower · · (.branch c yes no)) (Trace some (.branch c yes no)) := by
  intro a start hs
  have ha := extend_adds hs (.assume c)
  obtain ⟨b, es, mid, p, hcode, hb, h⟩ := hyes (a.extend start (.assume c)) a.locations
    (ha.locations ▸ Nat.lt_succ_self _)
  rw [ha.locations] at h
  have hp := h.exit
  have hmid := h.grows
  have hstart : start < b.locations := by rw [hb.locations]; omega
  have hb' := extend_adds hstart (.assume (.mkNot c))
  rw [hb.locations] at hb'
  obtain ⟨d, fs, last, q, hcode', hd, k⟩ := hno (b.extend start (.assume (.mkNot c))) mid
    (hb'.locations ▸ Nat.lt_succ_self _)
  rw [hb'.locations] at k
  have hq := k.exit
  have hlast := k.grows
  have hlarger := addLocation_adds d
  rw [hd.locations] at hlarger
  have hinside : ∀ l ≤ last, l < d.addLocation.locations := by
    intro l hl
    rw [hlarger.locations]
    omega
  have hfirst := connect_adds (hinside p (by omega)) (hinside last (Nat.le_refl _)) .skip
  rw [← hfirst.locations] at hinside
  have hsecond := connect_adds (hinside q (by omega)) (hinside last (Nat.le_refl _)) .skip
  rw [hfirst.locations, hlarger.locations] at hsecond
  refine ⟨(d.addLocation.connect p last .skip).connect q last .skip,
    fork c es fs start a.locations mid last p q, _, _, ?_, ?_, h.branch k hs⟩
  · simp only [lower, hcode, hb.locations, hcode', hd.locations]
  · have hall := ((((ha.trans hb).trans hb').trans hd).trans hlarger).trans
      (hfirst.trans hsecond)
    simpa [fork] using hall

theorem builds_loop (hbody : Builds (lowerAll · · body) (TraceAll some body)) :
    Builds (lower · · (.loop c body)) (Trace some (.loop c body)) := by
  intro a start hs
  have ha := extend_adds hs (.assume c)
  obtain ⟨b, es, mid, p, hcode, hb, h⟩ := hbody (a.extend start (.assume c)) a.locations
    (ha.locations ▸ Nat.lt_succ_self _)
  rw [ha.locations] at h
  have hp := h.exit
  have hmid := h.grows
  have hinside : ∀ l < mid, l < b.locations := fun l hl => hb.locations ▸ hl
  have hback := connect_adds (hinside p (by omega)) (hinside start (by omega)) .skip
  rw [← hback.locations] at hinside
  have hout := extend_adds (hinside start (by omega)) (.assume (.mkNot c))
  rw [hback.locations, hb.locations] at hout
  refine ⟨(b.connect p start .skip).extend start (.assume (.mkNot c)),
    cycle c es start a.locations mid p, _, _, ?_, ?_, h.loop hs⟩
  · simp only [lower, hcode, hback.locations, hb.locations]
  · have hall := ((ha.trans hb).trans hback).trans hout
    simpa [cycle] using hall

theorem builds_nil : Builds (lowerAll · · []) (TraceAll some []) := by
  intro a start hs
  have htraces : (fun w => w = []) = TraceAll some [] := funext fun w => propext traceAll_nil.symm
  refine ⟨a, [], a.locations, start, lowerAll.eq_1 a start, .refl a, ?_⟩
  rw [← htraces]
  exact .empty start a.locations

theorem builds_cons (hi : Builds (lower · · i) (Trace some i))
    (hbody : Builds (lowerAll · · body) (TraceAll some body)) :
    Builds (lowerAll · · (i :: body)) (TraceAll some (i :: body)) := by
  intro a start hs
  obtain ⟨b, es, mid, p, hfirst, hb, h⟩ := hi a start hs
  have hp := h.exit
  have hgrows := h.grows
  obtain ⟨d, fs, last, q, hrest, hd, k⟩ := hbody b p (by rw [hb.locations]; omega)
  rw [hb.locations] at k
  have htraces : (fun w => ∃ u v, Trace some i u ∧ TraceAll some body v ∧ w = u ++ v) =
      TraceAll some (i :: body) :=
    funext fun w => propext traceAll_cons.symm
  refine ⟨d, es ++ fs, last, q, ?_, hb.trans hd, ?_⟩
  · simp only [lowerAll, hfirst, hrest]
  · rw [← htraces]
    exact h.append k hs

mutual
theorem lower_builds (i : Instr Term) : Builds (lower · · i) (Trace some i) := by
  cases hi : i.label? some with
  | some label => exact builds_single hi
  | none =>
    cases i with
    | branch c yes no => exact builds_branch (lowerAll_builds yes) (lowerAll_builds no)
    | loop c body => exact builds_loop (lowerAll_builds body)
    | _ => exact absurd hi (by simp [label?])

theorem lowerAll_builds (code : List (Instr Term)) :
    Builds (lowerAll · · code) (TraceAll some code) := by
  cases code with
  | nil => exact builds_nil
  | cons i is => exact builds_cons (lower_builds i) (lowerAll_builds is)
end

end Instr

namespace Thread
variable {t : Thread} {p : Precision} {b : Solo}

/-- A thread on its own walks along the edges of its automaton. -/
theorem Alone.walk (h : t.Alone p b) :
    ∃ w, Walk t.automaton.edges t.automaton.initial w b.state.location := by
  induction h with
  | start => exact ⟨[], .stay _⟩
  | @step b next edge _ hs ih =>
    obtain ⟨w, hw⟩ := ih
    obtain ⟨e, he, hsource, -, hfollow⟩ := mem_step hs
    have hlast := Walk.along e (List.mem_of_getElem? he) hsource (.stay e.target)
    exact ⟨w ++ [e.label], (follow_advanced hfollow).location ▸ hw.append hlast⟩

end Thread

namespace Automaton

/-- The walks to the final location are the traces, and nowhere else do walks end. -/
structure Lowers (a : Automaton) (Traces : List Label → Prop) (stop : Nat) : Prop where
  location : stop < a.locations
  final : ∀ l, a.isFinal l = true ↔ l = stop
  walks : ∀ w, Walk a.edges a.initial w stop ↔ Traces w
  terminal : ∀ l < a.locations, a.isTerminal l = true ↔ l = stop
  terminated : ∀ (id : Nat) (p : Precision) (b : Solo), Thread.Alone ⟨id, a⟩ p b →
    Thread.isTerminated ⟨id, a⟩ b.state = true → a.isFinal b.state.location = true

end Automaton

theorem Instr.compile_lowers (name : String) (code : List (Instr Term)) :
    ∃ stop, (compile name code).Lowers (TraceAll some code) stop := by
  obtain ⟨a, es, last, stop, hcode, ha, h⟩ :=
    lowerAll_builds code (.single name) 0 Nat.zero_lt_one
  have hcompile : compile name code = { a with finals := a.finals.insert stop } := by
    rw [compile, show lowerAll (.single name) 0 code = (a, stop) from hcode]
  have hedges : (compile name code).edges = es := by rw [hcompile]; exact ha.edges
  have hlocations : (compile name code).locations = last := by rw [hcompile]; exact ha.locations
  have hinitial : (compile name code).initial = 0 := by rw [hcompile]; exact ha.initial
  have hfinals : (compile name code).finals = .insert .empty stop := by
    rw [hcompile]
    exact congrArg (OrderedSet.insert · stop) ha.finals
  have hinside : ∀ l, Inside 0 1 last l ↔ l < last := by
    have hgrows : 1 ≤ last := h.grows
    omega
  have hfinal : ∀ l, (compile name code).isFinal l = true ↔ l = stop := by
    intro l
    rw [Arena.isFinal, hfinals]
    show (if [stop].isEmpty then _ else [stop].contains l) = true ↔ l = stop
    simp
  have hterminal : ∀ l < last, (compile name code).isTerminal l = true ↔ l = stop := by
    intro l hl
    rw [Automaton.isTerminal_iff_source, hedges]
    constructor
    · intro hnone
      by_contra hne
      obtain ⟨e, he, hsource⟩ := h.leaves l ((hinside l).2 hl) hne
      exact hnone e he hsource
    · rintro rfl
      exact h.final
  refine ⟨stop, hlocations ▸ (hinside stop).1 h.exit, hfinal, ?_, hlocations ▸ hterminal,
    fun id p b hb hend => ?_⟩
  · rw [hedges, hinitial]
    exact h.walks
  · obtain ⟨w, hw⟩ := hb.walk
    rw [hedges, hinitial] at hw
    have hlocation : b.state.location < last := (hinside _).1 (hw.stays h.target (.inl rfl))
    exact (hfinal _).2 ((hterminal _ hlocation).1 hend)

namespace LitmusTest

theorem automaton_eq_compile {index : Nat} {t : ThreadSpec} {a : Automaton}
    (h : automaton index t = .ok a) :
    ∃ name code, Instr.resolveAll t.code = .ok code ∧ a = Instr.compile name code := by
  obtain ⟨code, hcode, ha⟩ := bind_eq_ok.1 h
  cases ha
  exact ⟨_, code, hcode, rfl⟩

/-- The traces are those of the code as it is written. -/
theorem automaton_lowers (index : Nat) (t : ThreadSpec) (a : Automaton)
    (h : automaton index t = .ok a) : ∃ stop, a.Lowers (Instr.TraceAll Expr.term? t.code) stop := by
  obtain ⟨name, code, hcode, rfl⟩ := automaton_eq_compile h
  obtain ⟨stop, hstop⟩ := Instr.compile_lowers name code
  have htraces : Instr.TraceAll some code = Instr.TraceAll Expr.term? t.code :=
    funext fun w => propext (Instr.traceAll_resolve t.code hcode w).symm
  exact ⟨stop, htraces ▸ hstop⟩

def looping : ThreadSpec where
  name := some "T"
  code := [.loop (.apply "<" [.reg "r", .int 2])
    [.branch (.apply "==" [.reg "r", .int 0]) [.load "r" "x"] []], .store "x" (.reg "r")]

def lap : List Label :=
  let less := Term.compare .lt (.const "r") (.int 2)
  [.assume less, .assume (.eq (.const "r") (.int 0)), .load "r" "x", .skip, .skip,
    .assume (.mkNot less), .store "x" (.const "r")]

theorem lap_trace : Instr.TraceAll Expr.term? looping.code lap := by
  have hless : Expr.term? (.apply "<" [.reg "r", .int 2]) =
      some (.compare .lt (.const "r") (.int 2)) := rfl
  have hzero : Expr.term? (.apply "==" [.reg "r", .int 0]) =
      some (.eq (.const "r") (.int 0)) := rfl
  have hbranch : Instr.TraceAll Expr.term?
      [.branch (.apply "==" [.reg "r", .int 0]) [.load "r" "x"] []] _ :=
    .cons (.yes hzero (.cons (.single rfl) .nil)) .nil
  exact .cons (.again hless hbranch (.done hless)) (.cons (.single rfl) .nil)

theorem automaton_lowers_looping : ∃ a stop, automaton 0 looping = .ok a ∧
    a.Lowers (Instr.TraceAll Expr.term? looping.code) stop ∧
      Walk a.edges a.initial lap stop := by
  obtain ⟨stop, hstop⟩ := automaton_lowers 0 looping _ rfl
  exact ⟨_, stop, rfl, hstop, (hstop.walks lap).2 lap_trace⟩

theorem mem_automata {t : LitmusTest} {automata : List Automaton} (h : t.automata = .ok automata)
    {a : Automaton} (ha : a ∈ automata) : ∃ index spec, automaton index spec = .ok a := by
  unfold LitmusTest.automata at h
  split at h
  · cases h
  · obtain ⟨⟨spec, index⟩, -, hspec⟩ := forall₂_mem_right (mapM_eq_ok.1 h) ha
    exact ⟨index, spec, hspec⟩

/-- No run of a litmus test is stuck before the end of its code. -/
theorem endsInFinal_of_reachable {t : LitmusTest} {automata : List Automaton}
    (h : t.automata = .ok automata) {initial : List (String × Int)} {p : Precision}
    {s : GlobalState} (hs : (Composition.ofAutomata automata initial).Reachable p s)
    (hterminal : s.isTerminal = true) :
    Exploration.endsInFinal (.ofAutomata automata initial) s = true := by
  have hn := Composition.ofAutomata_numbered automata initial
  refine List.all_eq_true.2 fun ⟨th, l⟩ hz => ?_
  obtain ⟨i, hi⟩ := List.mem_iff_getElem?.1 hz
  obtain ⟨ht, hl⟩ := List.getElem?_zip_eq_some.1 hi
  have hdone := (Composition.tidy_of_reachable hn hs).isTerminal_iff.1 hterminal i th l ht hl
  have halone := (Composition.separate_of_reachable hn hs).alone i th ht
  obtain ⟨⟨a, id⟩, ha, rfl⟩ := List.mem_map.1 (List.mem_of_getElem? ht)
  obtain ⟨index, spec, hspec⟩ := mem_automata h (List.fst_mem_of_mem_zipIdx ha)
  obtain ⟨name, code, -, rfl⟩ := automaton_eq_compile hspec
  obtain ⟨stop, hstop⟩ := Instr.compile_lowers name code
  have hstate : (s.solo i).state = l := Composition.getD_locals hl
  rw [← hstate] at hdone ⊢
  exact hstop.terminated id p _ halone hdone

end LitmusTest
end Consistency
