import Consistency.MemoryModel
import Consistency.Proofs.Relation.Grammar

/-!
# Reading follows the grammar

The reader goes on step by step, with operations that wait for an operand on a
stack. It gets through every list of tokens that the grammar derives and finds
the tree of the derivation; where it succeeds, what waits on the stack shows how
to derive the tokens read.
-/

set_option autoImplicit false

namespace Consistency

namespace RelFrame
variable {k l : Nat} {stack : List RelFrame} {e : RelExpr}

def Below (k : Nat) : List RelFrame → Prop
  | .operand op _ :: _ => op.strength < k
  | _ => True

theorem Below.mono (h : Below k stack) (hkl : k ≤ l) : Below l stack := by
  unfold Below at *
  split at h
  · exact Nat.lt_of_lt_of_le h hkl
  · trivial

theorem below_five (stack : List RelFrame) : Below 5 stack := by
  unfold Below
  split
  · next op _ _ => cases op <;> decide
  · trivial

theorem close_of_below (h : Below k stack) : close k stack e = (stack, e) := by
  unfold close
  split
  · next op _ _ =>
    have : op.strength < k := h
    rw [if_neg (by omega)]
  · rfl

end RelFrame

inductive RelReader where
  | operand (stack : List RelFrame)
  | operator (stack : List RelFrame) (e : RelExpr)

namespace RelReader
open RelExpr RelFrame
variable {p p' : RelReader} {ts us rest : List RelToken} {e : RelExpr} {stack : List RelFrame}
  {l l' : RelLevel}

def run : RelReader → List RelToken → Except RelFault RelExpr
  | .operand stack => readOperand stack
  | .operator stack e => readOperator stack e

inductive Step : RelReader → List RelToken → RelReader → Prop where
  | name {stack : List RelFrame} {n : String} : EventSet.ofName? n = none →
      Step (.operand stack) [.name n] (.operator stack (ofName n))
  | openParen {stack : List RelFrame} :
      Step (.operand stack) [.openParen] (.operand (.paren :: stack))
  | identity {stack : List RelFrame} (s : EventSet) :
      Step (.operand stack) [.openSet, .name s.name, .closeSet] (.operator stack (.identity s))
  | product {stack : List RelFrame} (s t : EventSet) :
      Step (.operand stack) [.name s.name, .suffix .star, .name t.name]
        (.operator stack (.product s t))
  | suffix {stack : List RelFrame} {e : RelExpr} (op : RelSuffix) :
      Step (.operator stack e) [.suffix op] (.operator stack (.suffixed op e))
  | binary {stack stack' : List RelFrame} {e lhs : RelExpr} {op : RelOp} :
      close op.strength stack e = (stack', lhs) →
      Step (.operator stack e) [.binary op] (.operand (.operand op lhs :: stack'))
  | closeParen {stack stack' : List RelFrame} {f : RelFrame} {e e' : RelExpr} :
      close 0 stack e = (f :: stack', e') →
      Step (.operator stack e) [.closeParen] (.operator stack' e')

theorem Step.run_append (h : Step p us p') (rest : List RelToken) :
    p.run (us ++ rest) = p'.run rest := by
  cases h with
  | name h => simp [run, readOperand, h]
  | openParen => simp [run, readOperand]
  | identity s => simp [run, readOperand, EventSet.ofName?_name]
  | product s t => simp [run, readOperand, EventSet.ofName?_name]
  | suffix op => simp [run, readOperator]
  | binary h => simp [run, readOperator, h]
  | closeParen h => simp [run, readOperator, h]

/-- Where reading succeeds it has come to the end or takes a step. -/
theorem run_eq_ok (h : p.run ts = .ok e) :
    (ts = [] ∧ ∃ stack x, p = .operator stack x ∧ close 0 stack x = ([], e)) ∨
      ∃ us rest p', us ≠ [] ∧ ts = us ++ rest ∧ Step p us p' ∧ p'.run rest = .ok e := by
  cases p with
  | operand stack =>
    refine .inr ?_
    rw [run] at h
    unfold readOperand at h
    split at h
    · next ts => exact ⟨[.openParen], ts, _, by simp, rfl, .openParen, h⟩
    · next n rest =>
      split at h
      · exact absurd h (by simp)
      · next s hs =>
        obtain rfl := EventSet.ofName?_eq_some.1 hs
        split at h
        · next ts => exact ⟨_, ts, _, by simp, rfl, .identity s, h⟩
        · exact absurd h (by simp)
    · exact absurd h (by simp)
    · next n rest =>
      split at h
      · next hn => exact ⟨[.name n], rest, _, by simp, rfl, .name hn, h⟩
      · next s hs =>
        obtain rfl := EventSet.ofName?_eq_some.1 hs
        split at h
        · next m ts =>
          split at h
          · next t ht =>
            obtain rfl := EventSet.ofName?_eq_some.1 ht
            exact ⟨_, ts, _, by simp, rfl, .product s t, h⟩
          · exact absurd h (by simp)
        · exact absurd h (by simp)
        · exact absurd h (by simp)
    · exact absurd h (by simp)
    · exact absurd h (by simp)
  | operator stack x =>
    rw [run] at h
    unfold readOperator at h
    split at h
    · split at h
      · next hc =>
        obtain rfl := Except.ok.inj h
        exact .inl ⟨rfl, stack, x, rfl, hc⟩
      · exact absurd h (by simp)
    · next op ts => exact .inr ⟨[.suffix op], ts, _, by simp, rfl, .suffix op, h⟩
    · next op ts =>
      exact .inr ⟨[.binary op], ts, _, by simp, rfl, .binary rfl, h⟩
    · next ts =>
      split at h
      · next hc => exact .inr ⟨[.closeParen], ts, _, by simp, rfl, .closeParen hc, h⟩
      · exact absurd h (by simp)
    · split at h
      · exact absurd h (by simp)
      · exact absurd h (by simp)

/-- The reader gets through the tokens of an expression. It may keep operations waiting that it
would complete at the next operator of the level, which gives the expression itself. -/
theorem run_of_derives (h : Derives l ts e) (stack : List RelFrame) (rest : List RelToken)
    (hb : Below l.strength stack) : ∃ stack' e',
      (operand stack).run (ts ++ rest) = (operator stack' e').run rest ∧
        ∀ k ≤ l.strength, close k stack' e' = close k stack e := by
  induction h generalizing stack rest with
  | @single op ts e _ ih =>
    have hle : op.strength ≤ op.tighter.strength := by
      rw [op.strength_tighter]
      exact Nat.le_succ _
    obtain ⟨stack', e', hrun, hclose⟩ := ih stack rest (hb.mono hle)
    exact ⟨stack', e', hrun, fun k hk => hclose k (Nat.le_trans hk hle)⟩
  | @binary op ts us a b _ _ iha ihb =>
    obtain ⟨stack₁, a', hrun₁, hclose₁⟩ := iha stack (.binary op :: us ++ rest) hb
    have hlhs : close op.strength stack₁ a' = (stack, a) :=
      (hclose₁ op.strength (Nat.le_refl _)).trans (close_of_below hb)
    have htop : Below op.tighter.strength (.operand op a :: stack) := by
      rw [op.strength_tighter]
      exact Nat.lt_succ_self op.strength
    obtain ⟨stack₂, b', hrun₂, hclose₂⟩ := ihb (.operand op a :: stack) rest htop
    refine ⟨stack₂, b', ?_, fun k hk => ?_⟩
    · rw [List.append_assoc, hrun₁, ← hrun₂]
      exact (Step.binary hlhs).run_append (us ++ rest)
    · have hk : k ≤ op.strength := hk
      rw [hclose₂ k (by rw [op.strength_tighter]; omega), close, if_pos hk]
  | bare _ ih =>
    obtain ⟨stack', e', hrun, hclose⟩ := ih stack rest (hb.mono (by decide))
    exact ⟨stack', e', hrun, fun k hk => hclose k (Nat.le_trans hk (by decide))⟩
  | @suffixed op ts e _ ih =>
    obtain ⟨stack', e', hrun, hclose⟩ := ih stack (.suffix op :: rest) hb
    have hsame := hclose 5 (Nat.le_refl 5)
    rw [close_of_below (below_five _), close_of_below (below_five _)] at hsame
    obtain ⟨rfl, rfl⟩ := Prod.mk.inj hsame
    refine ⟨stack', .suffixed op e', ?_, fun _ _ => rfl⟩
    rw [List.append_assoc, List.singleton_append, hrun]
    exact (Step.suffix op).run_append rest
  | name hn => exact ⟨stack, _, (Step.name hn).run_append rest, fun _ _ => rfl⟩
  | @paren ts e _ ih =>
    obtain ⟨stack', e', hrun, hclose⟩ := ih (.paren :: stack) (.closeParen :: rest) trivial
    have hclosed : close 0 stack' e' = (.paren :: stack, e) := hclose 0 (Nat.zero_le _)
    refine ⟨stack, e, ?_, fun _ _ => rfl⟩
    rw [List.append_assoc, List.singleton_append,
      ← (Step.closeParen hclosed).run_append rest, List.singleton_append, ← hrun]
    exact Step.openParen.run_append (ts ++ .closeParen :: rest)
  | identity s => exact ⟨stack, _, (Step.identity s).run_append rest, fun _ _ => rfl⟩
  | product s t => exact ⟨stack, _, (Step.product s t).run_append rest, fun _ _ => rfl⟩

theorem run_eq_of_derives (h : Derives .expr ts e) : (operand []).run ts = .ok e := by
  obtain ⟨stack', e', hrun, hclose⟩ := run_of_derives h [] [] trivial
  have hclosed : close 0 stack' e' = ([], e) := hclose 0 (Nat.zero_le _)
  rw [List.append_nil] at hrun
  rw [hrun, run, readOperator, hclosed]

inductive Awaits : List RelFrame → List RelToken → Prop where
  | start : Awaits [] []
  | paren {stack : List RelFrame} {us : List RelToken} :
      Awaits stack us → Awaits (.paren :: stack) (us ++ [.openParen])
  | operand {stack : List RelFrame} {us ts : List RelToken} {op : RelOp} {lhs : RelExpr} :
      Awaits stack us → Below op.strength stack → Derives (.operation op) ts lhs →
      Awaits (.operand op lhs :: stack) (us ++ (ts ++ [.binary op]))

inductive Consumed : RelReader → List RelToken → Prop where
  | operand {stack : List RelFrame} {us : List RelToken} :
      Awaits stack us → Consumed (.operand stack) us
  | operator {stack : List RelFrame} {us ts : List RelToken} {e : RelExpr} :
      Awaits stack us → Derives .suffixed ts e → Consumed (.operator stack e) (us ++ ts)

/-- Operations that are completed become part of the expression; those left bind less tightly. -/
theorem close_awaits {k : Nat} {x : RelExpr} (h : Awaits stack us) (hx : Derives l ts x)
    (hb : Below l.strength stack) (hk : k ≤ l.strength) : ∃ stack' x' l' us' ts',
      close k stack x = (stack', x') ∧ Below k stack' ∧ Awaits stack' us' ∧
        k ≤ l'.strength ∧ Derives l' ts' x' ∧ us' ++ ts' = us ++ ts := by
  induction h generalizing l ts x with
  | start => exact ⟨_, x, l, _, ts, rfl, trivial, .start, hk, hx, rfl⟩
  | paren h => exact ⟨_, x, l, _, ts, rfl, trivial, .paren h, hk, hx, rfl⟩
  | @operand stack us vs op lhs h hop hlhs ih =>
    by_cases hle : k ≤ op.strength
    · have hrhs : Derives op.tighter ts x := by
        refine derives_of_le hx ?_
        rw [op.strength_tighter]
        exact hb
      obtain ⟨stack', x', l', us', ts', hclose, hbelow, hawaits, hkl, hx', happend⟩ :=
        ih (.binary hlhs hrhs) hop hle
      refine ⟨stack', x', l', us', ts', ?_, hbelow, hawaits, hkl, hx', ?_⟩
      · rw [close, if_pos hle, hclose]
      · rw [happend]
        simp
    · have hbelow : Below k (.operand op lhs :: stack) := Nat.lt_of_not_le hle
      exact ⟨_, x, l, _, ts, close_of_below hbelow, hbelow, .operand h hop hlhs, hk, hx, rfl⟩

/-- All operations up to the parenthesis that is open are completed. -/
theorem close_zero_awaits {stack' : List RelFrame} {x x' : RelExpr} (h : Awaits stack us)
    (hx : Derives .suffixed ts x) (hclose : close 0 stack x = (stack', x')) : ∃ us' ts',
      Below 0 stack' ∧ Awaits stack' us' ∧ Derives .expr ts' x' ∧ us' ++ ts' = us ++ ts := by
  obtain ⟨_, _, l', us', ts', hclose', hbelow, hawaits, -, hx', happend⟩ :=
    close_awaits (k := 0) h hx (below_five _) (Nat.zero_le _)
  obtain ⟨rfl, rfl⟩ := Prod.mk.inj (hclose'.symm.trans hclose)
  exact ⟨us', ts', hbelow, hawaits, derives_of_le hx' l'.one_le_strength, happend⟩

/-- Every step reads on. -/
theorem Step.consumed (h : Step p ts p') (hp : Consumed p us) : Consumed p' (us ++ ts) := by
  cases h with
  | name hn =>
    obtain ⟨hp⟩ := hp
    exact .operator hp (.bare (.name hn))
  | openParen =>
    obtain ⟨hp⟩ := hp
    exact .operand (.paren hp)
  | identity s =>
    obtain ⟨hp⟩ := hp
    exact .operator hp (.bare (.identity s))
  | product s t =>
    obtain ⟨hp⟩ := hp
    exact .operator hp (.bare (.product s t))
  | suffix op =>
    obtain _ | ⟨hp, he⟩ := hp
    rw [List.append_assoc]
    exact .operator hp he.suffixed
  | @binary stack stack' e lhs op hclose =>
    obtain _ | ⟨hp, he⟩ := hp
    obtain ⟨_, _, l', us', ts', hclose', hbelow, hawaits, hk, hlhs, happend⟩ :=
      close_awaits (k := op.strength) hp he (below_five _) (by cases op <;> decide)
    obtain ⟨rfl, rfl⟩ := Prod.mk.inj (hclose'.symm.trans hclose)
    rw [← happend, List.append_assoc]
    exact .operand (.operand hawaits hbelow (derives_of_le hlhs hk))
  | closeParen hclose =>
    obtain _ | ⟨hp, he⟩ := hp
    obtain ⟨us', ts', hbelow, hawaits, he', happend⟩ := close_zero_awaits hp he hclose
    rw [← happend]
    cases hawaits with
    | paren hawaits => simpa using Consumed.operator hawaits (.bare (.paren he'))
    | operand => exact absurd hbelow (Nat.not_lt_zero _)

theorem derives_of_run (hp : Consumed p us) (h : p.run ts = .ok e) :
    Derives .expr (us ++ ts) e := by
  -- A step may read several tokens, so the induction is on how many are left.
  induction hn : ts.length using Nat.strongRecOn generalizing p us ts with
  | _ n ih =>
    rcases run_eq_ok h with ⟨rfl, stack, x, rfl, hclose⟩ | ⟨vs, rest, p', hne, rfl, hstep, hrun⟩
    · obtain _ | ⟨hp, hx⟩ := hp
      obtain ⟨us', ts', -, hawaits, he, happend⟩ := close_zero_awaits hp hx hclose
      cases hawaits
      rw [List.append_nil, ← happend]
      exact he
    · have hlt : rest.length < n := by
        have := List.length_pos_iff.2 hne
        rw [← hn, List.length_append]
        omega
      rw [← List.append_assoc]
      exact ih _ hlt (hstep.consumed hp) hrun rfl

theorem run_eq_ok_iff : (operand []).run ts = .ok e ↔ Derives .expr ts e :=
  ⟨derives_of_run (.operand .start), run_eq_of_derives⟩

end RelReader

namespace RelExpr

theorem parse_eq_ok {text : String} {e : RelExpr} : parse text = .ok e ↔
    ∃ ts, RelToken.tokens text.toList = .ok ts ∧ Derives .expr ts e := by
  rw [parse, read]
  cases RelToken.tokens text.toList with
  | error fault => simp [bind, Except.bind]
  | ok ts =>
    have hrun : readOperand [] ts = (RelReader.operand []).run ts := rfl
    simp only [bind, Except.bind, hrun, Except.ok.injEq, exists_eq_left', ← RelReader.run_eq_ok_iff]
    cases (RelReader.operand []).run ts <;> simp

structure Recognizes (text : String) : Prop where
  accepts : ∀ e, parse text = .ok e ↔
    ∃ ts, RelToken.tokens text.toList = .ok ts ∧ Derives .expr ts e
  unique : ∀ ts, RelToken.tokens text.toList = .ok ts →
    ∀ d e, Derives .expr ts d → Derives .expr ts e → d = e
  rejects : (∃ fault, parse text = .error (.unreadable text fault)) ↔
    ¬ ∃ ts e, RelToken.tokens text.toList = .ok ts ∧ Derives .expr ts e

/-- The parser ends with the only tree of the text, or with an error where there is none. -/
theorem parse_recognizes (text : String) : Recognizes text where
  accepts := fun _ => parse_eq_ok
  unique := by
    intro ts _ d e hd he
    have hrun := (RelReader.run_eq_of_derives hd).symm.trans (RelReader.run_eq_of_derives he)
    exact Except.ok.inj hrun
  rejects := by
    constructor
    · rintro ⟨fault, hfault⟩ ⟨ts, e, he⟩
      rw [parse_eq_ok.2 ⟨ts, he⟩] at hfault
      exact absurd hfault (by simp)
    · intro hnone
      have hbad : ∀ e, RelExpr.read text ≠ .ok e := by
        intro e he
        obtain ⟨ts, hts⟩ := parse_eq_ok.1 (show parse text = .ok e by rw [parse, he])
        exact hnone ⟨ts, e, hts⟩
      cases hread : RelExpr.read text with
      | error fault => exact ⟨fault, by rw [parse, hread]⟩
      | ok e => exact absurd hread (hbad e)

example : parse "po \\ W * R ; rf^-1?" = .ok (.binary .diff (.base .po)
    (.binary .seq (.product .writes .reads)
      (.suffixed .optional (.suffixed .inverse (.base .rf))))) := by cbv

end RelExpr
end Consistency
