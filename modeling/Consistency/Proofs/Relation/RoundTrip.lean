import Consistency.Proofs.Relation.Reader
import Consistency.Proofs.Run

/-!
# Rendered relation expressions are read back

Each token of a rendered expression can be told apart from what comes next, and
the tokens of an expression derive it. So rendering and reading gives the
expression back if its names can be written at all; the parser gives no others.
-/

set_option autoImplicit false

namespace Consistency

namespace RelToken
variable {word cs rest : List Char} {c : Char} {t : RelToken} {ts : List RelToken}

def Identifier (text : List Char) : Prop :=
  ∃ c cs, text = c :: cs ∧ isNameStart c = true ∧ ∀ d ∈ cs, isNameChar d = true

def Apart (rest : List Char) : Prop := ∀ c ∈ rest.head?, isNameChar c = false

theorem isNameChar_of_start (h : isNameStart c = true) : isNameChar c = true := by
  simp only [isNameStart, isNameChar, Char.isAlphanum, Bool.or_eq_true] at *
  exact .inl (.inl (h.imp_left .inl))

/-- Where no name goes on, the name before ends. -/
theorem scan_apart (h : Apart rest) : scan word rest = (scan [] rest).map (endName word) := by
  cases rest with
  | nil => rfl
  | cons c cs =>
    have hc : isNameChar c = false := h c rfl
    have hstart : isNameStart c = false := by
      rw [Bool.eq_false_iff]
      exact fun hs => by simp [isNameChar_of_start hs] at hc
    by_cases hinverse : ∃ rest, c = '^' ∧ cs = '-' :: '1' :: rest
    · obtain ⟨rest, rfl, rfl⟩ := hinverse
      rw [scan, scan]
      exact LawfulFunctor.comp_map _ (endName word) (scan [] rest)
    · have hother : ∀ rest, c = '^' → cs = '-' :: '1' :: rest → False :=
        fun rest hc hcs => hinverse ⟨rest, hc, hcs⟩
      rw [scan.eq_3 _ _ _ hother, scan.eq_3 _ _ _ hother]
      simp only [hc, hstart, Bool.and_false, Bool.false_eq_true, if_false]
      split
      · exact LawfulFunctor.comp_map (endName []) (endName word) (scan [] cs)
      · split
        · rfl
        · split
          · exact LawfulFunctor.comp_map _ (endName word) (scan [] cs)
          · rfl

/-- A name that has begun is read to its end. -/
theorem scan_name (hcs : ∀ d ∈ cs, isNameChar d = true) (hne : word ≠ []) (hrest : Apart rest)
    (h : scan [] rest = .ok ts) :
    scan word (cs ++ rest) = .ok (.name (String.ofList (word.reverse ++ cs)) :: ts) := by
  induction cs generalizing word with
  | nil =>
    rw [List.nil_append, scan_apart hrest, h]
    simp [Except.map, endName, hne]
  | cons d cs ih =>
    rw [List.forall_mem_cons] at hcs
    have hother : ∀ more, d = '^' → cs ++ rest = '-' :: '1' :: more → False := by
      rintro more rfl -
      exact absurd hcs.1 (by decide)
    rw [List.cons_append, scan.eq_3 _ _ _ hother, if_pos (by simp [hne, hcs.1]),
      ih hcs.2 (List.cons_ne_nil d word)]
    simp

theorem scan_identifier {text : List Char} (ht : Identifier text) (hrest : Apart rest)
    (h : scan [] rest = .ok ts) :
    scan [] (text ++ rest) = .ok (.name (String.ofList text) :: ts) := by
  obtain ⟨c, cs, rfl, hstart, hcs⟩ := ht
  have hother : ∀ more, c = '^' → cs ++ rest = '-' :: '1' :: more → False := by
    rintro more rfl -
    exact absurd hstart (by decide)
  rw [List.cons_append, scan.eq_3 _ _ _ hother, if_neg (by simp), if_pos hstart,
    scan_name hcs (List.cons_ne_nil c []) hrest h]
  rfl

theorem scan_symbol (hc : ofChar? c = some t) (h : scan [] rest = .ok ts) :
    scan [] (c :: rest) = .ok (t :: ts) := by
  unfold ofChar? at hc
  split at hc <;> cases hc <;> exact congrArg (Except.map _) h

theorem scan_space (h : scan [] rest = .ok ts) : scan [] (' ' :: rest) = .ok ts :=
  congrArg (Except.map (endName [])) h

theorem scan_operator (op : RelOp) (h : scan [] rest = .ok ts) :
    scan [] (op.symbol.toList ++ rest) = .ok (.binary op :: ts) := by
  have hop : ∃ c, op.symbol.toList = [c] ∧ ofChar? c = some (.binary op) := by
    cases op <;> exact ⟨_, rfl, rfl⟩
  obtain ⟨c, hsymbol, hc⟩ := hop
  rw [hsymbol]
  exact scan_symbol hc h

theorem scan_suffix (op : RelSuffix) (h : scan [] rest = .ok ts) :
    scan [] (op.symbol.toList ++ rest) = .ok (.suffix op :: ts) := by
  cases op with
  | inverse => exact congrArg (Except.map _) h
  | plus | star | optional => exact scan_symbol rfl h

theorem apart_suffix (op : RelSuffix) : Apart (op.symbol.toList ++ rest) := by
  cases op <;> exact fun c hc => by cases hc; decide

theorem apart_nil : Apart [] := fun _ hc => by cases hc

/-- Characters that do not go on with a name. -/
theorem apart_cons (h : isNameChar c = false) : Apart (c :: rest) := by
  rintro d ⟨⟩
  exact h

theorem identifier_endName (hword : word = [] ∨ Identifier word.reverse)
    (hts : ∀ n, .name n ∈ ts → Identifier n.toList) :
    ∀ n, .name n ∈ endName word ts → Identifier n.toList := by
  intro n hn
  unfold endName at hn
  split at hn
  · exact hts n hn
  · next hne =>
    rcases List.mem_cons.1 hn with heq | hn
    · obtain rfl := RelToken.name.inj heq
      rw [String.toList_ofList]
      exact hword.resolve_left (by simpa using hne)
    · exact hts n hn

/-- All names that are read are identifiers. -/
theorem identifier_of_scan (hword : word = [] ∨ Identifier word.reverse)
    (h : scan word cs = .ok ts) : ∀ n, .name n ∈ ts → Identifier n.toList := by
  fun_induction scan word cs generalizing ts with
  | case1 word =>
    obtain rfl := Except.ok.inj h
    exact identifier_endName hword (by simp)
  | case2 word cs ih =>
    obtain ⟨us, hus, rfl⟩ := map_eq_ok.1 h
    exact identifier_endName hword fun n hn => ih (.inl rfl) hus n (by simpa using hn)
  | case3 word c cs _ hc ih =>
    rw [Bool.and_eq_true, Bool.not_eq_true', List.isEmpty_eq_false_iff] at hc
    obtain ⟨d, ds, hds, hstart, hchars⟩ := hword.resolve_left hc.1
    refine ih (.inr ⟨d, ds ++ [c], ?_, hstart, ?_⟩) h
    · rw [List.reverse_cons, hds, List.cons_append]
    · exact List.forall_mem_append.2 ⟨hchars, by simpa using hc.2⟩
  | case4 word c cs _ _ hstart ih =>
    obtain ⟨us, hus, rfl⟩ := map_eq_ok.1 h
    exact identifier_endName hword (ih (.inr ⟨c, [], rfl, hstart, by simp⟩) hus)
  | case5 word c cs _ _ _ _ ih =>
    obtain ⟨us, hus, rfl⟩ := map_eq_ok.1 h
    exact identifier_endName hword (ih (.inl rfl) hus)
  | case6 => exact absurd h (by simp)
  | case7 word c cs _ _ _ _ _ t ht ih =>
    obtain ⟨us, hus, rfl⟩ := map_eq_ok.1 h
    refine identifier_endName hword fun n hn => ih (.inl rfl) hus n ?_
    refine (List.mem_cons.1 hn).resolve_left ?_
    rintro rfl
    unfold ofChar? at ht
    split at ht <;> cases ht
  | case8 => exact absurd h (by simp)

end RelToken

open RelToken

/-- A name that can be written: one token, and it means no base relation and no event set. -/
structure RelName (n : String) : Prop where
  token : tokens n.toList = .ok [.name n]
  notBase : BaseRelation.ofName? n = none
  notSet : EventSet.ofName? n = none

theorem tokens_eq_name {n : String} : tokens n.toList = .ok [.name n] ↔ Identifier n.toList := by
  constructor
  · exact fun h => identifier_of_scan (.inl rfl) h n (by simp)
  · intro h
    have hscan := scan_identifier h apart_nil (show scan [] [] = .ok [] from rfl)
    rwa [List.append_nil, String.ofList_toList] at hscan

theorem BaseRelation.identifier_name (rel : BaseRelation) : Identifier rel.name.toList :=
  tokens_eq_name.1 (by cases rel <;> rfl)

theorem EventSet.identifier_name (s : EventSet) : Identifier s.name.toList :=
  tokens_eq_name.1 (by cases s <;> rfl)

namespace RelExpr
variable {e : RelExpr} {ts : List RelToken} {l : RelLevel}

def WellNamed (e : RelExpr) : Prop := ∀ n ∈ e.names, RelName n

def lexemes : RelExpr → List RelToken
  | .base rel => [.name rel.name]
  | .named n => [.name n]
  | .product s t => [.name s.name, .suffix .star, .name t.name]
  | .identity s => [.openSet, .name s.name, .closeSet]
  | .binary op a b => .openParen :: (a.lexemes ++ .binary op :: b.lexemes) ++ [.closeParen]
  | .suffixed op a =>
    (if a.isAtomic then a.lexemes else .openParen :: a.lexemes ++ [.closeParen]) ++ [.suffix op]

/-- What comes after the text has to be told apart from the name that may end it. -/
theorem scan_render (h : e.WellNamed) {rest : List Char} (hrest : Apart rest)
    (hts : scan [] rest = .ok ts) : scan [] (e.render.toList ++ rest) = .ok (e.lexemes ++ ts) := by
  -- Pieces of text are read off from the last one to the first, each before what follows it.
  induction e generalizing rest ts with
  | base rel =>
    have := scan_identifier (rel.identifier_name) hrest hts
    rwa [String.ofList_toList] at this
  | named n =>
    have := scan_identifier (tokens_eq_name.1 (h n (by simp [names])).token) hrest hts
    rwa [String.ofList_toList] at this
  | product s t =>
    have h₁ := scan_space (scan_identifier (t.identifier_name) hrest hts)
    have h₂ := scan_space (scan_symbol (c := '*') rfl h₁)
    have h₃ := scan_identifier (s.identifier_name) (apart_cons (by decide)) h₂
    simpa [render, lexemes] using h₃
  | identity s =>
    have h₁ := scan_symbol (c := ']') rfl hts
    have h₂ := scan_identifier (s.identifier_name) (apart_cons (by decide)) h₁
    have h₃ := scan_symbol (c := '[') rfl h₂
    simpa [render, lexemes] using h₃
  | binary op a b iha ihb =>
    have h₁ := scan_symbol (c := ')') rfl hts
    have h₂ := ihb (fun n hn => h n (List.mem_append_right _ hn)) (apart_cons (by decide)) h₁
    have h₃ := scan_space (scan_operator op (scan_space h₂))
    have h₄ := iha (fun n hn => h n (List.mem_append_left _ hn)) (apart_cons (by decide)) h₃
    have h₅ := scan_symbol (c := '(') rfl h₄
    simpa [render, lexemes] using h₅
  | suffixed op a ih =>
    have h₁ := scan_suffix op hts
    by_cases ha : a.isAtomic = true
    · have h₂ := ih h (apart_suffix op) h₁
      simpa [render, lexemes, ha] using h₂
    · have h₂ := ih h (apart_cons (by decide)) (scan_symbol (c := ')') rfl h₁)
      have h₃ := scan_symbol (c := '(') rfl h₂
      simpa [render, lexemes, ha] using h₃

theorem tokens_render (h : e.WellNamed) : tokens e.render.toList = .ok e.lexemes := by
  have hscan := scan_render h apart_nil (show scan [] [] = .ok [] from rfl)
  rwa [List.append_nil, List.append_nil] at hscan

/-- A rendered expression can be used as an operand, if only of suffixes. -/
theorem derives_lexemes (h : e.WellNamed) : Derives .suffixed e.lexemes e := by
  induction e with
  | base rel =>
    have hname : ofName rel.name = .base rel := by cases rel <;> rfl
    have hset : EventSet.ofName? rel.name = none := by cases rel <;> rfl
    have := Derives.name hset
    rw [hname] at this
    exact .bare this
  | named n =>
    obtain ⟨-, hbase, hset⟩ := h n (by simp [names])
    have := Derives.name hset
    rw [ofName, hbase] at this
    exact .bare this
  | product s t => exact .bare (.product s t)
  | identity s => exact .bare (.identity s)
  | binary op a b iha ihb =>
    have ha := iha fun n hn => h n (List.mem_append_left _ hn)
    have hb := ihb fun n hn => h n (List.mem_append_right _ hn)
    have hle : op.tighter.strength ≤ 5 := by cases op <;> decide
    have hlt : op.strength ≤ 5 := by cases op <;> decide
    have hop : Derives (.operation op) (a.lexemes ++ .binary op :: b.lexemes) (.binary op a b) :=
      .binary (derives_of_le ha hlt) (derives_of_le hb hle)
    exact .bare (.paren (derives_of_le hop (RelLevel.one_le_strength _)))
  | suffixed op a ih =>
    have ha := ih h
    rw [lexemes]
    split
    · exact ha.suffixed
    · exact .suffixed (.bare (.paren (derives_of_le ha (by decide))))

theorem wellNamed_of_derives (h : Derives l ts e) (hts : ∀ n, .name n ∈ ts → Identifier n.toList) :
    e.WellNamed := by
  induction h with
  | single _ ih => exact ih hts
  | binary _ _ iha ihb =>
    refine List.forall_mem_append.2 ⟨iha fun n hn => ?_, ihb fun n hn => ?_⟩
    · exact hts n (List.mem_append_left _ hn)
    · exact hts n (List.mem_append_right _ (List.mem_cons_of_mem _ hn))
  | bare _ ih => exact ih hts
  | suffixed _ ih => exact ih fun n hn => hts n (List.mem_append_left _ hn)
  | @name n hset =>
    intro y hy
    unfold ofName at hy
    split at hy
    · exact absurd hy (by simp [names])
    · next hbase =>
      obtain rfl := List.mem_singleton.1 hy
      exact ⟨tokens_eq_name.2 (hts y (by simp)), hbase, hset⟩
  | paren _ ih => exact ih fun n hn => hts n (List.mem_append_left _ (List.mem_cons_of_mem _ hn))
  | identity s => exact fun _ hn => absurd hn (by simp [names])
  | product s t => exact fun _ hn => absurd hn (by simp [names])

theorem parse_render (h : e.WellNamed) : parse e.render = .ok e :=
  parse_eq_ok.2 ⟨e.lexemes, tokens_render h, derives_of_le (derives_lexemes h) (by decide)⟩

theorem wellNamed_of_parse {text : String} (h : parse text = .ok e) : e.WellNamed := by
  obtain ⟨ts, hts, he⟩ := parse_eq_ok.1 h
  exact wellNamed_of_derives he (identifier_of_scan (.inl rfl) hts)

/-- Rendering and reading gives back the expressions whose names can be written, and the parser
gives only such. -/
theorem parse_render_iff (e : RelExpr) : (e.WellNamed ↔ parse e.render = .ok e) ∧
    ∀ text, parse text = .ok e → e.WellNamed ∧ parse e.render = parse text := by
  refine ⟨⟨parse_render, wellNamed_of_parse⟩, fun text h => ?_⟩
  have hnamed := wellNamed_of_parse h
  exact ⟨hnamed, (parse_render hnamed).trans h.symm⟩

end RelExpr
end Consistency
