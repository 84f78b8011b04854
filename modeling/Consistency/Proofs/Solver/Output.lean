import Consistency.Proofs.Solver.Sexp
import Consistency.Solver.Output

/-!
# Answers are read back

The lines of an answer are trimmed and joined again, which changes blanks only:
the tokens stay the same where lines end outside bars, and the balance of the
parentheses always does. So whatever the layout of printed definitions is, the
constants come back with their values; what is not balanced is reported.
-/

set_option autoImplicit false

namespace Consistency.Output
open Sexp (Word Worded Printable Layout Token Closed Whole Nested Balanced tokens parentheses)
open Text (isBlank trim)
variable {s first part : List Char}

def content (s : List Char) : List (List Char) :=
  ((Text.lines s).map trim).filter (!·.isEmpty)

def rejoin (s : List Char) : List Char := joinLines (content s)

theorem joinLines_eq_intercalate (ls : List (List Char)) : joinLines ls = [' '].intercalate ls := by
  induction ls with
  | nil => rfl
  | cons l ls ih =>
    cases ls with
    | nil => rw [joinLines, List.intercalate_singleton]
    | cons l' ls =>
      rw [joinLines, ih, List.intercalate_cons_cons, List.append_assoc]
      · rfl
      · exact List.cons_ne_nil l' ls

theorem content_eq (s : List Char) :
    content s = ((Text.split '\n' s).map trim).filter (!·.isEmpty) := Text.trim_lines s

theorem content_append (hbreak : '\n' ∉ first) (hne : trim first ≠ []) (s : List Char) :
    content (first ++ '\n' :: s) = trim first :: content s := by
  rw [content_eq, content_eq, Text.split_append hbreak, List.map_cons, List.filter_cons_of_pos]
  simpa using hne

/-- After the verdict comes the model. -/
theorem read_sat (hbreak : '\n' ∉ first) (hsat : trim first = "sat".toList) (s : List Char)
    (stderr : String) : read (String.ofList (first ++ '\n' :: s)) stderr =
      (readModel (rejoin s)).map Answer.sat := by
  have hlines : content (first ++ '\n' :: s) = "sat".toList :: content s := by
    rw [content_append hbreak, hsat]
    rw [hsat]
    decide
  unfold read
  rw [String.toList_ofList, ← content, hlines]
  rfl

theorem flatMap_content {β : Type} (f : List Char → List β) (hf : f [] = []) (s : List Char) :
    (content s).flatMap f = (Text.split '\n' s).flatMap fun line => f (trim line) := by
  rw [content_eq]
  induction Text.split '\n' s with
  | nil => rfl
  | cons l ls ih =>
    rw [List.map_cons, List.flatMap_cons, ← ih]
    cases h : trim l with
    | nil =>
      rw [List.filter_cons_of_neg (by simp), hf]
      rfl
    | cons c cs =>
      rw [List.filter_cons_of_pos (by simp), List.flatMap_cons]

/-- No token is lost where lines end outside bars. -/
theorem tokens_rejoin (h : Whole s) : tokens (rejoin s) = tokens s := by
  have hclosed : ∀ line ∈ content s, Closed line := by
    intro line hline
    rw [content_eq] at hline
    obtain ⟨l, hl, rfl⟩ := List.mem_map.1 (List.mem_of_mem_filter hline)
    exact Sexp.closed_trim (h l hl)
  rw [rejoin, joinLines_eq_intercalate, Sexp.tokens_intercalate (by decide) hclosed,
    flatMap_content tokens rfl]
  conv_rhs => rw [← Text.intercalate_split '\n' s, Sexp.tokens_intercalate (by decide) h]
  exact List.flatMap_congr fun l hl => Sexp.tokens_trim (h l hl)

theorem filter_rejoin (s : List Char) :
    (rejoin s).filter (!isBlank ·) = s.filter (!isBlank ·) := by
  rw [rejoin, joinLines_eq_intercalate, Text.filter_intercalate (by decide),
    flatMap_content _ rfl]
  conv_rhs => rw [← Text.intercalate_split '\n' s, Text.filter_intercalate (by decide)]
  exact List.flatMap_congr fun l _ => Text.filter_trim l

theorem parentheses_rejoin (s : List Char) :
    parentheses false (rejoin s) = parentheses false s := by
  rw [← Sexp.parentheses_filter, filter_rejoin, Sexp.parentheses_filter]

/-- A part without blanks stays in one piece. -/
theorem infix_rejoin (h : ∀ c ∈ part, isBlank c = false) (hne : part ≠ []) (hpart : part <:+: s) :
    part <:+: rejoin s := by
  have hbreak : '\n' ∉ part := fun hmem => absurd (h _ hmem) (by decide)
  rw [← Text.intercalate_split '\n' s] at hpart
  obtain ⟨line, hline, hpart⟩ := Text.infix_piece hbreak (Text.split_ne_nil '\n' s) hpart
  have htrim := Text.infix_trim h hpart
  have hmem : trim line ∈ content s := by
    rw [content_eq]
    refine List.mem_filter.2 ⟨List.mem_map_of_mem hline, ?_⟩
    have hline := htrim.ne_nil hne
    simpa using hline
  rw [rejoin, joinLines_eq_intercalate]
  exact htrim.trans (Text.infix_intercalate hmem)

theorem unblank_defineFun : ∀ c ∈ "define-fun".toList, isBlank c = false := by
  have hall : "define-fun".toList.all (!isBlank ·) = true := by decide
  simpa using hall

structure Definition where
  name : Word
  params : List Sexp
  sort : Sexp
  value : Sexp
  printable : ∀ e ∈ sort :: value :: params, e.Printable

namespace Definition

def toSexp (d : Definition) : Sexp :=
  .list [.atom "define-fun", .atom (String.ofList d.name.written), .list d.params, d.sort, d.value]

def constant? (d : Definition) : Option (String × String) :=
  if d.params.isEmpty then some (String.ofList d.name.name, d.value.render) else none

theorem printable_toSexp (d : Definition) : d.toSexp.Printable := by
  have hkeyword : Printable (.atom "define-fun") := Sexp.printable_plain (by decide) (by decide)
  have hname : Printable (.atom (String.ofList d.name.written)) :=
    Sexp.printable_atom d.name String.toList_ofList.symm
  obtain ⟨hsort, hvalue, hparams⟩ : d.sort.Printable ∧ d.value.Printable ∧
      ∀ e ∈ d.params, e.Printable := by
    simpa using d.printable
  refine Sexp.printable_list ?_
  simp only [List.forall_mem_cons]
  exact ⟨hkeyword, hname, Sexp.printable_list hparams, hsort, hvalue,
    fun e he => by cases he⟩

end Definition

def printed (keyword : Bool) (ds : List Definition) : Sexp :=
  .list ((if keyword then [.atom "model"] else []) ++ ds.map Definition.toSexp)

theorem printable_printed (keyword : Bool) (ds : List Definition) :
    (printed keyword ds).Printable := by
  refine Sexp.printable_list fun e he => ?_
  rcases List.mem_append.1 he with he | he
  · cases keyword with
    | true =>
      obtain rfl := List.mem_singleton.1 he
      exact Sexp.printable_plain (by decide) (by decide)
    | false => cases he
  · obtain ⟨d, -, rfl⟩ := List.mem_map.1 he
    exact d.printable_toSexp

theorem stripBars_word (w : Word) : stripBars (String.ofList w.written) = String.ofList w.name := by
  have hdrop : ∀ t : List Char, '|' ∉ t → t.dropWhile (· == '|') = t := by
    intro t ht
    cases t with
    | nil => rfl
    | cons c t =>
      have hc : c ≠ '|' := (List.ne_of_not_mem_cons ht).symm
      exact List.dropWhile_cons_of_neg (by simpa using hc)
  have hstrip : ∀ t : List Char, '|' ∉ t →
      (t.reverse.dropWhile (· == '|')).reverse = t := by
    intro t ht
    rw [hdrop _ (by simpa using ht), List.reverse_reverse]
  rw [stripBars, String.toList_ofList]
  cases w with
  | bare text _ plain =>
    have hunbarred : '|' ∉ text := fun h => (Sexp.ne_of_isPlain (plain _ h)).2.2 rfl
    rw [Word.written, Word.name, hdrop text hunbarred, hstrip text hunbarred]
  | quoted text unbarred _ =>
    rw [Word.written, Word.name, List.dropWhile_cons_of_pos rfl]
    cases text with
    | nil => rfl
    | cons c text =>
      have hc : c ≠ '|' := (List.ne_of_not_mem_cons unbarred).symm
      rw [List.cons_append, List.dropWhile_cons_of_neg (by simpa using hc), ← List.cons_append,
        List.reverse_append]
      exact congrArg String.ofList (hstrip (c :: text) unbarred)

theorem definitions_toSexp (d : Definition) : definitions d.toSexp = d.constant?.toList := by
  rw [Definition.toSexp, definitions, definition?, if_pos rfl, stripBars_word, Definition.constant?]
  split <;> rfl

theorem definitionsOf_map (ds : List Definition) :
    definitionsOf (ds.map Definition.toSexp) = ds.filterMap Definition.constant? := by
  induction ds with
  | nil => rfl
  | cons d ds ih =>
    rw [List.map_cons, definitionsOf, definitions_toSexp, ih, List.filterMap_cons]
    cases d.constant? <;> rfl

theorem definitions_printed (keyword : Bool) (ds : List Definition) :
    definitions (printed keyword ds) = ds.filterMap Definition.constant? := by
  have hlist : definition? ((if keyword then [Sexp.atom "model"] else []) ++
      ds.map Definition.toSexp) = none := by
    cases keyword with
    | true => cases ds <;> rfl
    | false => cases ds <;> rfl
  rw [printed, definitions, hlist, Option.getD_none, ← definitionsOf_map]
  cases keyword <;> rfl

theorem mem_lexemes_printed {keyword : Bool} {ds : List Definition} {d : Definition}
    (hd : d ∈ ds) : Token.atom "define-fun".toList ∈ (printed keyword ds).lexemes := by
  have hmem : d.toSexp ∈ (if keyword then [Sexp.atom "model"] else []) ++
      ds.map Definition.toSexp :=
    List.mem_append_right _ (List.mem_map_of_mem hd)
  have hatom : Token.atom "define-fun".toList ∈ d.toSexp.lexemes := by
    simp [Definition.toSexp, Sexp.lexemes, Sexp.lexemesOf]
  rw [printed, Sexp.lexemes]
  exact List.mem_cons_of_mem _ (List.mem_append_left _ (Sexp.mem_lexemesOf.2 ⟨_, hmem, hatom⟩))

/-- Which parenthesis is reported where the parentheses outside bars are not balanced. -/
def imbalance (s : List Char) : SolverError :=
  if Nested 0 (parentheses false s) then .unbalancedOpen else .unbalancedClose

theorem message_imbalance (s : List Char) :
    ∃ told, (imbalance s).message = SolverError.unreadable told := by
  unfold imbalance
  split <;> exact ⟨_, rfl⟩

theorem readModel_eq (hpart : "define-fun".toList <:+: s) : readModel s = (Sexp.read s).map
    fun es => if (definitionsOf es).isEmpty then none else some ⟨definitionsOf es⟩ := by
  rw [readModel, if_pos (Text.hasPart_iff.2 hpart)]
  cases Sexp.read s <;> rfl

theorem readModel_printed {keyword : Bool} {ds : List Definition} {lead : List Char}
    (layout : Layout (printed keyword ds).lexemes) (hlead : ∀ c ∈ lead, isBlank c = true)
    (hne : ds.filterMap Definition.constant? ≠ []) :
    readModel (rejoin (lead ++ layout.text)) =
      .ok (some ⟨ds.filterMap Definition.constant?⟩) := by
  have hworded := printable_printed keyword ds
  have htokens : tokens (rejoin (lead ++ layout.text)) = (printed keyword ds).lexemes := by
    rw [tokens_rejoin (Sexp.whole_blanks hlead (layout.whole_text hworded)),
      Sexp.tokens_blanks hlead, layout.tokens_text hworded]
  obtain ⟨d, hd, -⟩ := List.mem_filterMap.1 (List.head_mem hne)
  have hpart : "define-fun".toList <:+: rejoin (lead ++ layout.text) :=
    infix_rejoin unblank_defineFun (by decide)
      ((layout.infix_text (mem_lexemes_printed hd)).trans (List.suffix_append lead _).isInfix)
  have hfound : definitionsOf [printed keyword ds] = ds.filterMap Definition.constant? := by
    rw [definitionsOf, definitionsOf, List.append_nil, definitions_printed]
  have hsome : ¬ (ds.filterMap Definition.constant?).isEmpty = true := by simpa using hne
  rw [readModel_eq hpart, Sexp.read, htokens, Sexp.build_printed, Except.map, hfound, if_neg hsome]

/-- However printed definitions are laid out, the constants are read back with their values in
the order in which they are printed, and definitions with parameters are passed over. Of a
text with a definition the parentheses outside bars have to be balanced. -/
theorem models_read_back (hbreak : '\n' ∉ first) (hsat : trim first = "sat".toList)
    (stderr : String) :
    (∀ (keyword : Bool) (ds : List Definition) (lead : List Char)
      (layout : Layout (printed keyword ds).lexemes), (∀ c ∈ lead, isBlank c = true) →
        ds.filterMap Definition.constant? ≠ [] →
        read (String.ofList (first ++ '\n' :: (lead ++ layout.text))) stderr =
          .ok (.sat (some ⟨ds.filterMap Definition.constant?⟩))) ∧
    ∀ s, "define-fun".toList <:+: s → ¬ Balanced (parentheses false s) →
      read (String.ofList (first ++ '\n' :: s)) stderr = .error (imbalance s) ∧
        ∃ told, (imbalance s).message = SolverError.unreadable told := by
  refine ⟨fun keyword ds lead layout hlead hne => ?_, fun s hpart hbalance => ?_⟩
  · rw [read_sat hbreak hsat, readModel_printed layout hlead hne]
    rfl
  · have hpart' := infix_rejoin unblank_defineFun (by decide) hpart
    have hsame : imbalance (rejoin s) = imbalance s := by
      rw [imbalance, imbalance, parentheses_rejoin]
    obtain ⟨-, hread⟩ := (Sexp.read_cases (rejoin s)).resolve_left fun hbalanced =>
      hbalance (parentheses_rejoin s ▸ hbalanced.1)
    rw [read_sat hbreak hsat, readModel_eq hpart', hread, ← imbalance, hsame]
    exact ⟨rfl, message_imbalance s⟩

/-- A function, a constant between bars with a negative value, and a list left open. -/
theorem models_read_back_negative :
    read ("sat\n(\nmodel\n(\ndefine-fun\nf\n(\nx\n)\nInt\nx\n)\n" ++
        "(\ndefine-fun\n|odd (|\n(\n)\nInt\n(\n-\n1\n)\n)\n)\n") "" =
        .ok (.sat (some ⟨[("odd (", "(- 1)")]⟩)) ∧
      read "sat\n(define-fun x () Int 5" "" = .error .unbalancedOpen := by
  have hx : Printable (.atom "x") := Sexp.printable_plain (by decide) (by decide)
  have hint : Printable (.atom "Int") := Sexp.printable_plain (by decide) (by decide)
  have hvalue : Printable (.list [.atom "-", .atom "1"]) := Sexp.printable_list (by
    simp only [List.forall_mem_cons]
    exact ⟨Sexp.printable_plain (by decide) (by decide),
      Sexp.printable_plain (by decide) (by decide), fun _ h => by cases h⟩)
  let f : Definition := ⟨.bare ['f'] (by decide) (List.forall_mem_singleton.2 rfl), [.atom "x"],
    .atom "Int", .atom "x", by
      simp only [List.forall_mem_cons]
      exact ⟨hint, hx, hx, fun _ h => by cases h⟩⟩
  let v : Definition := ⟨.quoted "odd (".toList (by decide) (by decide), [], .atom "Int",
    .list [.atom "-", .atom "1"], by
      simp only [List.forall_mem_cons]
      exact ⟨hint, hvalue, fun _ h => by cases h⟩⟩
  obtain ⟨hread, hopen⟩ := models_read_back (by decide : '\n' ∉ "sat".toList) (by decide) ""
  refine ⟨?_, (hopen "(define-fun x () Int 5".toList (by decide) (by decide)).1⟩
  have hprinted := hread true [f, v] [] (Layout.evenly ['\n'] (List.forall_mem_singleton.2 rfl)
    (by decide) _) (List.forall_mem_nil _) (List.cons_ne_nil _ _)
  have hconstants : [f, v].filterMap Definition.constant? = [("odd (", "(- 1)")] := rfl
  have htext : ((printed true [f, v]).lexemes.flatMap fun t => t.text ++ ['\n']) =
      ("(\nmodel\n(\ndefine-fun\nf\n(\nx\n)\nInt\nx\n)\n" ++
        "(\ndefine-fun\n|odd (|\n(\n)\nInt\n(\n-\n1\n)\n)\n)\n").toList := by
    simp [printed, Definition.toSexp, Sexp.lexemes, Sexp.lexemesOf, Token.text, Word.written, f, v]
  rw [Layout.text_evenly, htext, hconstants] at hprinted
  exact hprinted

end Consistency.Output
