import Mathlib.Data.List.Infix
import Consistency.Proofs.Text
import Consistency.Solver.Sexp

/-!
# Printed expressions

Words are told apart wherever a blank stands between them, so every layout of an
expression is read back as that expression. A text is read just if the
parentheses outside its bars are balanced; blanks do not matter for that.
-/

set_option autoImplicit false

namespace Consistency.Sexp
open Text (isBlank)
variable {quoted : Bool} {current s t gap : List Char} {c : Char} {ts : List Token}
  {depth : Nat}

def isPlain (c : Char) : Bool := c != '(' && c != ')' && c != '|' && !isBlank c

inductive Word where
  | bare (text : List Char) (nonempty : text ≠ []) (plain : ∀ c ∈ text, isPlain c = true)
  | quoted (text : List Char) (unbarred : '|' ∉ text) (unbroken : '\n' ∉ text)

namespace Word

def name : Word → List Char
  | .bare text _ _ => text
  | .quoted text _ _ => text

def written : Word → List Char
  | .bare text _ _ => text
  | .quoted text _ _ => '|' :: (text ++ ['|'])

end Word

mutual
def lexemes : Sexp → List Token
  | .atom text => [.atom text.toList]
  | .list items => .opening :: (lexemesOf items ++ [.closing])

def lexemesOf : List Sexp → List Token
  | [] => []
  | e :: es => lexemes e ++ lexemesOf es
end

def Worded (ts : List Token) : Prop := ∀ text, .atom text ∈ ts → ∃ w : Word, w.written = text

def Printable (e : Sexp) : Prop := Worded e.lexemes

theorem mem_lexemesOf {es : List Sexp} {t : Token} :
    t ∈ lexemesOf es ↔ ∃ e ∈ es, t ∈ e.lexemes := by
  induction es with
  | nil => simp [lexemesOf]
  | cons e es ih =>
    rw [lexemesOf, List.mem_append, ih]
    simp

theorem printable_atom {text : String} (w : Word) (h : w.written = text.toList) :
    Printable (.atom text) := by
  intro text' htext
  rw [lexemes, List.mem_singleton] at htext
  exact ⟨w, h.trans (Token.atom.inj htext).symm⟩

theorem printable_plain {text : String} (hne : text.toList ≠ [])
    (h : text.toList.all isPlain = true) : Printable (.atom text) :=
  printable_atom (.bare text.toList hne (List.all_eq_true.1 h)) rfl

theorem printable_list {es : List Sexp} (h : ∀ e ∈ es, e.Printable) : Printable (.list es) := by
  intro text htext
  have hmem : Token.atom text ∈ lexemesOf es := by
    rw [lexemes] at htext
    simpa using htext
  obtain ⟨e, he, htext⟩ := mem_lexemesOf.1 hmem
  exact h e he text htext

def Token.text : Token → List Char
  | .opening => ['(']
  | .closing => [')']
  | .atom text => text

def Token.isAtom : Token → Bool
  | .atom _ => true
  | _ => false

/-- The blanks behind each token; between two atoms there is at least one. -/
inductive Layout : List Token → Type
  | nil : Layout []
  | cons {ts : List Token} (t : Token) (gap : List Char) (rest : Layout ts)
      (blank : ∀ c ∈ gap, isBlank c = true)
      (apart : t.isAtom = true → ts.head?.any Token.isAtom = true → gap ≠ []) : Layout (t :: ts)

def Layout.text {ts : List Token} : Layout ts → List Char
  | .nil => []
  | .cons t gap rest _ _ => t.text ++ (gap ++ rest.text)

theorem char_cases (c : Char) :
    c = '(' ∨ c = ')' ∨ c = '|' ∨ isBlank c = true ∨ isPlain c = true := by
  by_cases hopening : c = '('
  · exact .inl hopening
  by_cases hclosing : c = ')'
  · exact .inr (.inl hclosing)
  by_cases hbar : c = '|'
  · exact .inr (.inr (.inl hbar))
  by_cases hblank : isBlank c = true
  · exact .inr (.inr (.inr (.inl hblank)))
  · refine .inr (.inr (.inr (.inr ?_)))
    simp [isPlain, hopening, hclosing, hbar, hblank]

theorem ne_of_isBlank (h : isBlank c = true) : c ≠ '(' ∧ c ≠ ')' ∧ c ≠ '|' := by
  refine ⟨?_, ?_, ?_⟩ <;> rintro rfl <;> exact absurd h (by decide)

theorem ne_of_isPlain (h : isPlain c = true) : c ≠ '(' ∧ c ≠ ')' ∧ c ≠ '|' := by
  refine ⟨?_, ?_, ?_⟩ <;> rintro rfl <;> exact absurd h (by decide)

theorem not_break_of_isPlain (h : isPlain c = true) : c ≠ '\n' := by
  rintro rfl
  exact absurd h (by decide)

theorem scan_quoted (current : List Char) (c : Char) (s : List Char) :
    scan true current (c :: s) = scan (c != '|') (c :: current) s := by
  rw [scan, if_pos rfl]

theorem scan_opening (current s : List Char) :
    scan false current ('(' :: s) = flush current (.opening :: tokens s) := rfl

theorem scan_closing (current s : List Char) :
    scan false current (')' :: s) = flush current (.closing :: tokens s) := rfl

theorem scan_bar (current s : List Char) :
    scan false current ('|' :: s) = scan true ('|' :: current) s := rfl

theorem scan_blank (h : isBlank c = true) (current s : List Char) :
    scan false current (c :: s) = flush current (tokens s) := by
  obtain ⟨hopening, hclosing, hbar⟩ := ne_of_isBlank h
  rw [scan, if_neg Bool.false_ne_true, if_neg hopening, if_neg hclosing, if_neg hbar, if_pos h,
    tokens]

theorem scan_plain (h : isPlain c = true) (current s : List Char) :
    scan false current (c :: s) = scan false (c :: current) s := by
  obtain ⟨hopening, hclosing, hbar⟩ := ne_of_isPlain h
  have hblank : ¬ isBlank c = true := fun hblank => by simp [isPlain, hblank] at h
  rw [scan, if_neg Bool.false_ne_true, if_neg hopening, if_neg hclosing, if_neg hbar,
    if_neg hblank]

theorem flush_append (current : List Char) (ts ts' : List Token) :
    flush current (ts ++ ts') = flush current ts ++ ts' := by
  unfold flush
  split <;> rfl

def quotedAfter (quoted : Bool) (s : List Char) : Bool :=
  s.foldl (fun q c => q != (c == '|')) quoted

def Closed (s : List Char) : Prop := quotedAfter false s = false

theorem quotedAfter_cons (quoted : Bool) (c : Char) (s : List Char) :
    quotedAfter quoted (c :: s) = quotedAfter (quoted != (c == '|')) s := rfl

theorem quotedAfter_append (quoted : Bool) (s t : List Char) :
    quotedAfter quoted (s ++ t) = quotedAfter (quotedAfter quoted s) t := List.foldl_append

theorem quotedAfter_of_not_mem (h : '|' ∉ s) (quoted : Bool) : quotedAfter quoted s = quoted := by
  induction s with
  | nil => rfl
  | cons c s ih =>
    rw [List.mem_cons, not_or] at h
    rw [quotedAfter_cons, beq_false_of_ne (Ne.symm h.1), Bool.bne_false, ih h.2]

theorem not_bar_of_blanks (h : ∀ c ∈ s, isBlank c = true) : '|' ∉ s :=
  fun hbar => (ne_of_isBlank (h _ hbar)).2.2 rfl

/-- A blank outside bars ends what stands before it. -/
theorem scan_append (hquoted : quotedAfter quoted s = false) (hc : isBlank c = true)
    (t : List Char) : scan quoted current (s ++ c :: t) = scan quoted current s ++ tokens t := by
  induction s generalizing quoted current with
  | nil =>
    obtain rfl : quoted = false := hquoted
    rw [List.nil_append, scan_blank hc]
    exact flush_append current [] (tokens t)
  | cons d s ih =>
    rw [quotedAfter_cons] at hquoted
    rw [List.cons_append]
    cases quoted with
    | true =>
      rw [Bool.true_bne] at hquoted
      rw [scan_quoted, scan_quoted]
      exact ih hquoted
    | false =>
      -- Outside bars only a bar changes how the rest is read.
      have hrest : d ≠ '|' → ∀ current,
          scan false current (s ++ c :: t) = scan false current s ++ tokens t := by
        intro hd current
        rw [beq_false_of_ne hd] at hquoted
        exact ih hquoted
      rcases char_cases d with rfl | rfl | rfl | hd | hd
      · rw [scan_opening, scan_opening, ← flush_append, tokens, hrest (by decide)]
        rfl
      · rw [scan_closing, scan_closing, ← flush_append, tokens, hrest (by decide)]
        rfl
      · exact ih hquoted
      · rw [scan_blank hd, scan_blank hd, ← flush_append, tokens, hrest (ne_of_isBlank hd).2.2]
        rfl
      · rw [scan_plain hd, scan_plain hd, hrest (ne_of_isPlain hd).2.2]

theorem tokens_blanks (h : ∀ c ∈ gap, isBlank c = true) (s : List Char) :
    tokens (gap ++ s) = tokens s := by
  induction gap with
  | nil => rfl
  | cons c gap ih =>
    rw [List.forall_mem_cons] at h
    rw [List.cons_append, tokens, scan_blank h.1]
    exact ih h.2

theorem tokens_append_blanks (hs : Closed s) (h : ∀ c ∈ gap, isBlank c = true) :
    tokens (s ++ gap) = tokens s := by
  cases gap with
  | nil => rw [List.append_nil]
  | cons c gap =>
    rw [List.forall_mem_cons] at h
    have hgap := tokens_blanks h.2 []
    rw [List.append_nil] at hgap
    rw [tokens, scan_append hs h.1, hgap]
    exact List.append_nil _

theorem closed_trim (h : Closed s) : Closed (Text.trim s) := by
  obtain ⟨l, r, hs, hl, hr⟩ := Text.exists_trim s
  rw [Closed, hs, quotedAfter_append, quotedAfter_append,
    quotedAfter_of_not_mem (not_bar_of_blanks hl),
    quotedAfter_of_not_mem (not_bar_of_blanks hr)] at h
  exact h

theorem tokens_trim (h : Closed s) : tokens (Text.trim s) = tokens s := by
  obtain ⟨l, r, hs, hl, hr⟩ := Text.exists_trim s
  conv_rhs => rw [hs]
  rw [tokens_blanks hl, tokens_append_blanks (closed_trim h) hr]

/-- Pieces in which all bars are closed are read one by one. -/
theorem tokens_intercalate (hc : isBlank c = true) {pieces : List (List Char)}
    (h : ∀ p ∈ pieces, Closed p) : tokens ([c].intercalate pieces) = pieces.flatMap tokens := by
  induction pieces with
  | nil => rfl
  | cons p ps ih =>
    rw [List.forall_mem_cons] at h
    cases ps with
    | nil =>
      rw [List.intercalate_singleton]
      exact (List.append_nil _).symm
    | cons q ps =>
      rw [List.intercalate_cons_cons, List.append_assoc, tokens]
      exact (scan_append h.1 hc _).trans (congrArg (tokens p ++ ·) (ih h.2))

def Apart (s : List Char) : Prop := ∀ c ∈ s.head?, c = '(' ∨ c = ')' ∨ isBlank c = true

theorem scan_apart (h : Apart s) (current : List Char) :
    scan false current s = flush current (tokens s) := by
  cases s with
  | nil => rfl
  | cons c s =>
    rcases h c rfl with rfl | rfl | hc
    · rfl
    · rfl
    · rw [tokens, scan_blank hc, scan_blank hc]
      rfl

theorem scan_plains (h : ∀ c ∈ s, isPlain c = true) (current t : List Char) :
    scan false current (s ++ t) = scan false (s.reverse ++ current) t := by
  induction s generalizing current with
  | nil => rfl
  | cons c s ih =>
    rw [List.forall_mem_cons] at h
    rw [List.cons_append, scan_plain h.1, ih h.2]
    simp

theorem scan_unbarred (h : '|' ∉ s) (current t : List Char) :
    scan true current (s ++ t) = scan true (s.reverse ++ current) t := by
  induction s generalizing current with
  | nil => rfl
  | cons c s ih =>
    rw [List.mem_cons, not_or] at h
    have hc : (c != '|') = true := bne_iff_ne.2 (Ne.symm h.1)
    rw [List.cons_append, scan_quoted, hc, ih h.2]
    simp

theorem scan_word (w : Word) (s : List Char) :
    scan false [] (w.written ++ s) = scan false w.written.reverse s := by
  cases w with
  | bare text _ plain =>
    rw [Word.written, scan_plains plain, List.append_nil]
  | quoted text unbarred _ =>
    rw [Word.written, List.cons_append, List.append_assoc, scan_bar, scan_unbarred unbarred]
    simp [scan_quoted]

theorem Word.written_ne_nil (w : Word) : w.written ≠ [] := by
  cases w with
  | bare _ nonempty _ => exact nonempty
  | quoted _ _ _ => exact List.cons_ne_nil _ _

theorem tokens_word (w : Word) (h : Apart s) :
    tokens (w.written ++ s) = .atom w.written :: tokens s := by
  rw [tokens, scan_word, scan_apart h, flush, if_neg, List.reverse_reverse]
  simp [w.written_ne_nil]

namespace Layout

def evenly (gap : List Char) (blank : ∀ c ∈ gap, isBlank c = true) (nonempty : gap ≠ []) :
    ∀ ts : List Token, Layout ts
  | [] => .nil
  | t :: ts => .cons t gap (evenly gap blank nonempty ts) blank fun _ _ => nonempty

theorem text_evenly {gap : List Char} (blank : ∀ c ∈ gap, isBlank c = true) (nonempty : gap ≠ [])
    (ts : List Token) :
    (evenly gap blank nonempty ts).text = ts.flatMap fun t => t.text ++ gap := by
  induction ts with
  | nil => rfl
  | cons t ts ih => rw [evenly, text, ih, List.flatMap_cons, List.append_assoc]

theorem apart_text (layout : Layout ts) (h : ts.head?.any Token.isAtom = false) :
    Apart layout.text := by
  cases layout with
  | nil => exact fun c hc => by cases hc
  | cons t gap rest =>
    cases t with
    | opening =>
      rintro c ⟨⟩
      exact .inl rfl
    | closing =>
      rintro c ⟨⟩
      exact .inr (.inl rfl)
    | atom text => exact absurd h (by simp [Token.isAtom])

theorem tokens_text (layout : Layout ts) (h : Worded ts) : tokens layout.text = ts := by
  induction layout with
  | nil => rfl
  | @cons ts t gap rest blank apart ih =>
    have hrest : tokens (gap ++ rest.text) = ts := by
      rw [tokens_blanks blank]
      exact ih fun text htext => h text (List.mem_cons_of_mem t htext)
    rw [text]
    conv_rhs => rw [← hrest]
    cases t with
    | opening => rfl
    | closing => rfl
    | atom text =>
      obtain ⟨w, rfl⟩ := h text List.mem_cons_self
      refine tokens_word w ?_
      -- The word ends at the blanks behind it, or else at the next token, which is no atom then.
      cases gap with
      | nil => exact rest.apart_text (Bool.eq_false_iff.2 fun hatom => apart rfl hatom rfl)
      | cons c gap =>
        rintro d ⟨⟩
        exact .inr (.inr (blank c List.mem_cons_self))

theorem infix_text (layout : Layout ts) {t : Token} (h : t ∈ ts) : t.text <:+: layout.text := by
  induction layout with
  | nil => cases h
  | cons u gap rest _ _ ih =>
    rw [text]
    rcases List.mem_cons.1 h with rfl | h
    · exact (List.prefix_append _ _).isInfix
    · exact (ih h).trans ((List.suffix_append gap _).trans (List.suffix_append u.text _)).isInfix

end Layout

def Whole (s : List Char) : Prop := ∀ line ∈ Text.split '\n' s, Closed line

theorem whole_append (hs : Closed s) (hbreak : '\n' ∉ s) (ht : Whole t) : Whole (s ++ t) := by
  obtain ⟨line, lines, hlines⟩ := List.exists_cons_of_ne_nil (Text.split_ne_nil '\n' t)
  rw [Whole, hlines, List.forall_mem_cons] at ht
  rw [Whole, Text.split_prefix hbreak, hlines]
  refine List.forall_mem_cons.2 ⟨?_, ht.2⟩
  rw [Closed, quotedAfter_append, hs]
  exact ht.1

theorem whole_blanks (h : ∀ c ∈ gap, isBlank c = true) (ht : Whole t) : Whole (gap ++ t) := by
  induction gap with
  | nil => exact ht
  | cons c gap ih =>
    rw [List.forall_mem_cons] at h
    by_cases hc : c = '\n'
    · rw [hc, List.cons_append, Whole, Text.split, if_pos rfl]
      exact List.forall_mem_cons.2 ⟨rfl, ih h.2⟩
    · have hclosed : Closed [c] :=
        quotedAfter_of_not_mem (not_bar_of_blanks (by simpa using h.1)) false
      have hbreak : '\n' ∉ [c] := by simpa using Ne.symm hc
      exact whole_append (s := [c]) hclosed hbreak (ih h.2)

theorem closed_word (w : Word) : Closed w.written := by
  cases w with
  | bare text _ plain =>
    exact quotedAfter_of_not_mem (fun h => (ne_of_isPlain (plain _ h)).2.2 rfl) false
  | quoted text unbarred _ =>
    rw [Word.written, Closed, quotedAfter_cons, quotedAfter_append,
      quotedAfter_of_not_mem unbarred]
    rfl

theorem unbroken_word (w : Word) : '\n' ∉ w.written := by
  cases w with
  | bare text _ plain => exact fun h => not_break_of_isPlain (plain _ h) rfl
  | quoted text _ unbroken =>
    rw [Word.written]
    simpa using unbroken

theorem whole_token {t : Token} (h : Worded (t :: ts)) : Closed t.text ∧ '\n' ∉ t.text := by
  cases t with
  | opening => exact ⟨rfl, by decide⟩
  | closing => exact ⟨rfl, by decide⟩
  | atom text =>
    obtain ⟨w, rfl⟩ := h text List.mem_cons_self
    exact ⟨closed_word w, unbroken_word w⟩

theorem Layout.whole_text (layout : Layout ts) (h : Worded ts) : Whole layout.text := by
  induction layout with
  | nil =>
    intro line hline
    obtain rfl := List.mem_singleton.1 hline
    rfl
  | cons t gap rest blank _ ih =>
    obtain ⟨hclosed, hbreak⟩ := whole_token h
    exact whole_append hclosed hbreak (whole_blanks blank
      (ih fun text htext => h text (List.mem_cons_of_mem t htext)))

mutual
theorem build_lexemes (outer : List (List Sexp)) (items : List Sexp) (ts : List Token)
    (e : Sexp) : build outer items (e.lexemes ++ ts) = build outer (e :: items) ts := by
  cases e with
  | atom text =>
    rw [lexemes, List.singleton_append, build, String.ofList_toList]
  | list inner =>
    rw [lexemes, List.cons_append, List.append_assoc, build, build_lexemesOf _ _ _ inner,
      List.append_nil, List.singleton_append, build, List.reverse_reverse]

theorem build_lexemesOf (outer : List (List Sexp)) (items : List Sexp) (ts : List Token)
    (es : List Sexp) :
    build outer items (lexemesOf es ++ ts) = build outer (es.reverse ++ items) ts := by
  cases es with
  | nil => rfl
  | cons e es =>
    rw [lexemesOf, List.append_assoc, build_lexemes _ _ _ e, build_lexemesOf _ _ _ es]
    simp
end

theorem build_printed (e : Sexp) : build [] [] e.lexemes = .ok [e] := by
  have hbuild := build_lexemes [] [] [] e
  rwa [List.append_nil] at hbuild

def parentheses (quoted : Bool) : List Char → List Char
  | [] => []
  | c :: s =>
    if c = '|' then parentheses (!quoted) s
    else if quoted then parentheses true s
    else if c = '(' ∨ c = ')' then c :: parentheses false s
    else parentheses false s

def Nested (depth : Nat) (s : List Char) : Prop :=
  ∀ t, t <+: s → t.count ')' ≤ depth + t.count '('

instance (depth : Nat) (s : List Char) : Decidable (Nested depth s) :=
  decidable_of_iff (∀ t ∈ s.inits, t.count ')' ≤ depth + t.count '(') (by
    simp only [List.mem_inits, Nested])

def Balanced (s : List Char) : Prop := Nested 0 s ∧ s.count '(' = s.count ')'

instance (s : List Char) : Decidable (Balanced s) :=
  inferInstanceAs (Decidable (Nested 0 s ∧ s.count '(' = s.count ')'))

def signs (ts : List Token) : List Char :=
  ts.flatMap fun t => if t.isAtom then [] else t.text

theorem signs_flush (current : List Char) (ts : List Token) :
    signs (flush current ts) = signs ts := by
  unfold flush
  split <;> rfl

theorem parentheses_skip (h : c ≠ '(' ∧ c ≠ ')' ∧ c ≠ '|') (quoted : Bool) (s : List Char) :
    parentheses quoted (c :: s) = parentheses quoted s := by
  obtain ⟨hopening, hclosing, hbar⟩ := h
  rw [parentheses, if_neg hbar, if_neg (not_or.2 ⟨hopening, hclosing⟩)]
  cases quoted <;> rfl

theorem signs_scan (quoted : Bool) (current s : List Char) :
    signs (scan quoted current s) = parentheses quoted s := by
  induction s generalizing quoted current with
  | nil => exact signs_flush current []
  | cons c s ih =>
    cases quoted with
    | true =>
      rw [scan_quoted, ih, parentheses]
      by_cases hc : c = '|'
      · rw [if_pos hc, hc]
        rfl
      · rw [if_neg hc, if_pos rfl, bne_iff_ne.2 hc]
    | false =>
      rcases char_cases c with rfl | rfl | rfl | hc | hc
      · rw [scan_opening, signs_flush]
        exact congrArg ('(' :: ·) (ih false [])
      · rw [scan_closing, signs_flush]
        exact congrArg (')' :: ·) (ih false [])
      · exact ih true ('|' :: current)
      · rw [scan_blank hc, signs_flush, parentheses_skip (ne_of_isBlank hc)]
        exact ih false []
      · rw [scan_plain hc, ih, parentheses_skip (ne_of_isPlain hc)]

/-- Blanks have no part in the balance. -/
theorem parentheses_filter (quoted : Bool) (s : List Char) :
    parentheses quoted (s.filter (!isBlank ·)) = parentheses quoted s := by
  induction s generalizing quoted with
  | nil => rfl
  | cons c s ih =>
    cases hc : isBlank c with
    | true =>
      rw [List.filter_cons_of_neg (by simp [hc]), ih, parentheses_skip (ne_of_isBlank hc)]
    | false =>
      rw [List.filter_cons_of_pos (by simp [hc])]
      simp only [parentheses, ih]

theorem nested_cons : Nested depth (c :: s) ↔
    ∀ t, t <+: s → (c :: t).count ')' ≤ depth + (c :: t).count '(' := by
  constructor
  · exact fun h t ht => h (c :: t) (List.cons_prefix_cons.2 ⟨rfl, ht⟩)
  · intro h t ht
    rcases List.prefix_cons_iff.1 ht with rfl | ⟨r, rfl, hr⟩
    · exact Nat.zero_le _
    · exact h r hr

theorem nested_opening : Nested depth ('(' :: s) ↔ Nested (depth + 1) s := by
  rw [nested_cons, Nested]
  refine forall₂_congr fun t _ => ?_
  rw [List.count_cons_self, List.count_cons_of_ne (by decide)]
  omega

theorem nested_closing : Nested (depth + 1) (')' :: s) ↔ Nested depth s := by
  rw [nested_cons, Nested]
  refine forall₂_congr fun t _ => ?_
  rw [List.count_cons_self, List.count_cons_of_ne (by decide)]
  omega

theorem not_nested_closing : ¬ Nested 0 (')' :: s) := fun h => by
  have hfirst := h [')'] (List.cons_prefix_cons.2 ⟨rfl, List.nil_prefix⟩)
  exact absurd hfirst (by decide)

/-- A parenthesis that closes nothing is met first; one that is left open, at the end. -/
theorem build_cases (outer : List (List Sexp)) (items : List Sexp) (ts : List Token) :
    (¬ Nested outer.length (signs ts) ∧ build outer items ts = .error .unbalancedClose) ∨
    (Nested outer.length (signs ts) ∧
      ((outer.length + (signs ts).count '(' = (signs ts).count ')' ∧
          ∃ es, build outer items ts = .ok es) ∨
        (outer.length + (signs ts).count '(' ≠ (signs ts).count ')' ∧
          build outer items ts = .error .unbalancedOpen))) := by
  induction ts generalizing outer items with
  | nil =>
    have hnested : ∀ depth, Nested depth (signs []) := by
      intro depth t ht
      rw [List.prefix_nil.1 ht]
      exact Nat.zero_le _
    refine .inr ⟨hnested _, ?_⟩
    cases outer with
    | nil => exact .inl ⟨rfl, items.reverse, rfl⟩
    | cons parent outer => exact .inr ⟨Nat.succ_ne_zero _, rfl⟩
  | cons t ts ih =>
    cases t with
    | opening =>
      have hsigns : signs (.opening :: ts) = '(' :: signs ts := rfl
      rw [hsigns, nested_opening, List.count_cons_self, List.count_cons_of_ne (by decide),
        ← Nat.add_assoc, Nat.add_right_comm]
      exact ih (items :: outer) []
    | closing =>
      have hsigns : signs (.closing :: ts) = ')' :: signs ts := rfl
      rw [hsigns]
      cases outer with
      | nil => exact .inl ⟨not_nested_closing, rfl⟩
      | cons parent outer =>
        rw [List.length_cons, nested_closing, List.count_cons_self,
          List.count_cons_of_ne (by decide), Nat.add_right_comm, ne_eq, Nat.add_right_cancel_iff]
        exact ih outer (.list items.reverse :: parent)
    | atom text => exact ih outer (.atom (String.ofList text) :: items)

theorem read_cases (s : List Char) :
    (Balanced (parentheses false s) ∧ ∃ es, read s = .ok es) ∨
    (¬ Balanced (parentheses false s) ∧ read s = .error
      (if Nested 0 (parentheses false s) then .unbalancedOpen else .unbalancedClose)) := by
  have hcases := build_cases [] [] (tokens s)
  rw [tokens, signs_scan, List.length_nil, Nat.zero_add] at hcases
  rcases hcases with ⟨hnot, hbuild⟩ | ⟨hnested, ⟨hcount, hbuild⟩ | ⟨hcount, hbuild⟩⟩
  · rw [if_neg hnot]
    exact .inr ⟨fun h => hnot h.1, hbuild⟩
  · exact .inl ⟨⟨hnested, hcount⟩, hbuild⟩
  · rw [if_pos hnested]
    exact .inr ⟨fun h => hcount h.2, hbuild⟩

theorem read_eq_ok_iff (s : List Char) :
    (∃ es, read s = .ok es) ↔ Balanced (parentheses false s) := by
  rcases read_cases s with ⟨h, hread⟩ | ⟨h, hread⟩
  · exact iff_of_true hread h
  · refine iff_of_false ?_ h
    rintro ⟨es, hes⟩
    exact absurd (hread.symm.trans hes) (by simp)

end Consistency.Sexp
