import Mathlib.Data.List.Infix
import Mathlib.Data.List.TakeWhile
import Consistency.Text

/-!
# Parts of texts

What is left of a text when blanks are cut off at its ends, where it is split,
what is replaced in it, and which numbers are read from digits.
-/

set_option autoImplicit false

namespace Consistency.Text
variable {c sep x y : Char} {s t l r a b old new part : List Char}
  {pieces : List (List Char)} {n : Nat}

theorem isBlank_of_isDigit (h : c.isDigit = true) : isBlank c = false := by
  have hrange : 48 ≤ c.toNat ∧ c.toNat ≤ 57 := by
    rw [Char.isDigit, Bool.and_eq_true, decide_eq_true_iff, decide_eq_true_iff] at h
    exact h
  simp only [isBlank, Bool.or_eq_false_iff, Bool.and_eq_false_iff, decide_eq_false_iff_not,
    beq_eq_false_iff_ne]
  omega

/-- Nothing is cut off in front of a character that is not blank, nor behind one. -/
theorem trim_eq_self (hfirst : ∀ c ∈ s.head?, isBlank c = false)
    (hlast : ∀ c ∈ s.getLast?, isBlank c = false) : trim s = s := by
  have hleft : ∀ t : List Char, (∀ c ∈ t.head?, isBlank c = false) → t.dropWhile isBlank = t := by
    intro t ht
    cases t with
    | nil => rfl
    | cons c t =>
      rw [List.dropWhile_cons_of_neg]
      simp [ht c rfl]
  rw [trim, trimLeft, hleft s hfirst, trimRight, hleft _ ?_, List.reverse_reverse]
  rwa [List.head?_reverse]

theorem trim_between {first last : Char} (hfirst : isBlank first = false)
    (hlast : isBlank last = false) (s : List Char) :
    trim (first :: (s ++ [last])) = first :: (s ++ [last]) := by
  refine trim_eq_self (fun c hc => ?_) fun c hc => ?_
  · obtain rfl := Option.some.inj hc
    exact hfirst
  · rw [← List.cons_append, List.getLast?_concat] at hc
    obtain rfl := Option.some.inj hc
    exact hlast

theorem trim_ends (s : List Char) : (∀ c ∈ (trim s).head?, isBlank c = false) ∧
    ∀ c ∈ (trim s).getLast?, isBlank c = false := by
  have hdrop : ∀ t : List Char, ∀ c ∈ (t.dropWhile isBlank).head?, isBlank c = false := by
    intro t c hc
    have hnot := List.head?_dropWhile_not isBlank t
    rw [Option.mem_def.1 hc] at hnot
    exact hnot
  constructor
  · intro c hc
    have hstart : trim s <+: trimLeft s := by
      have hsuffix := List.reverse_prefix.2
        (List.dropWhile_suffix isBlank (l := (trimLeft s).reverse))
      rwa [List.reverse_reverse] at hsuffix
    obtain ⟨rest, hrest⟩ := hstart
    apply hdrop s
    rw [← trimLeft, ← hrest, List.head?_append, Option.mem_def.1 hc]
    rfl
  · intro c hc
    rw [trim, trimRight, List.getLast?_reverse] at hc
    exact hdrop _ c hc

theorem ends_of_trim (h : trim s = s) :
    (∀ c ∈ s.head?, isBlank c = false) ∧ ∀ c ∈ s.getLast?, isBlank c = false := by
  have hends := trim_ends s
  rwa [h] at hends

theorem trim_trim (s : List Char) : trim (trim s) = trim s :=
  trim_eq_self (trim_ends s).1 (trim_ends s).2

/-- What is cut off is blank. -/
theorem exists_trim (s : List Char) : ∃ l r, s = l ++ (trim s ++ r) ∧
    (∀ c ∈ l, isBlank c = true) ∧ ∀ c ∈ r, isBlank c = true := by
  refine ⟨s.takeWhile isBlank, ((trimLeft s).reverse.takeWhile isBlank).reverse, ?_,
    fun c hc => List.mem_takeWhile_imp hc,
    fun c hc => List.mem_takeWhile_imp (List.mem_reverse.1 hc)⟩
  rw [trim, trimRight, ← List.reverse_append, List.takeWhile_append_dropWhile, List.reverse_reverse,
    trimLeft, List.takeWhile_append_dropWhile]

theorem trim_blank (h : ∀ c ∈ s, isBlank c = true) : trim s = [] := by
  rw [trim, trimLeft, List.dropWhile_eq_nil_iff.2 h]
  rfl

/-- Blanks around a text without blanks at its ends are cut off. -/
theorem trim_surround (hl : ∀ c ∈ l, isBlank c = true) (hr : ∀ c ∈ r, isBlank c = true)
    (h : trim s = s) : trim (l ++ (s ++ r)) = s := by
  obtain ⟨hfirst, hlast⟩ := ends_of_trim h
  cases s with
  | nil =>
    rw [List.nil_append]
    exact trim_blank fun c hc => (List.mem_append.1 hc).elim (hl c) (hr c)
  | cons c s =>
    have hleft : trimLeft (l ++ (c :: s ++ r)) = c :: s ++ r := by
      rw [trimLeft, List.dropWhile_append_of_pos hl, List.cons_append, List.dropWhile_cons_of_neg]
      simp [hfirst c rfl]
    have hright : (c :: s ++ r).reverse.dropWhile isBlank = (c :: s).reverse := by
      have hblank : ∀ c ∈ r.reverse, isBlank c = true := fun c hc => hr c (List.mem_reverse.1 hc)
      rw [List.reverse_append, List.dropWhile_append_of_pos hblank]
      obtain ⟨d, ds, hds⟩ := List.exists_cons_of_ne_nil (List.reverse_ne_nil_iff.2
        (List.cons_ne_nil c s))
      have hd : isBlank d = false := by
        apply hlast
        rw [← List.head?_reverse, hds]
        rfl
      rw [hds, List.dropWhile_cons_of_neg]
      simp [hd]
    rw [trim, hleft, trimRight, hright, List.reverse_reverse]

theorem trim_append (hr : ∀ c ∈ r, isBlank c = true) (s : List Char) :
    trim (s ++ r) = trim s := by
  obtain ⟨l, r', hs, hl, hr'⟩ := exists_trim s
  have happend : s ++ r = l ++ (trim s ++ (r' ++ r)) := by
    conv_lhs => rw [hs]
    simp
  rw [happend]
  exact trim_surround hl (fun c hc => (List.mem_append.1 hc).elim (hr' c) (hr c)) (trim_trim s)

/-- Apart from blanks nothing is cut off. -/
theorem filter_trim (s : List Char) : (trim s).filter (!isBlank ·) = s.filter (!isBlank ·) := by
  have hblank : ∀ b : List Char, (∀ c ∈ b, isBlank c = true) → b.filter (!isBlank ·) = [] := by
    intro b hb
    exact List.filter_eq_nil_iff.2 fun c hc => by simp [hb c hc]
  obtain ⟨l, r, hs, hl, hr⟩ := exists_trim s
  conv_rhs => rw [hs, List.filter_append, List.filter_append, hblank l hl, hblank r hr]
  rw [List.nil_append, List.append_nil]

/-- What stands between texts without blanks at their ends does not matter. -/
theorem trim_around (hs : trim s = s) (ht : trim t = t) (hsne : s ≠ []) (htne : t ≠ [])
    (m : List Char) : trim (s ++ m ++ t) = s ++ m ++ t := by
  obtain ⟨hfirst, -⟩ := ends_of_trim hs
  obtain ⟨-, hlast⟩ := ends_of_trim ht
  apply trim_eq_self
  · intro c hc
    obtain ⟨d, ds, rfl⟩ := List.exists_cons_of_ne_nil hsne
    exact hfirst c hc
  · intro c hc
    rw [List.getLast?_append_of_ne_nil _ htne] at hc
    exact hlast c hc

theorem splitOnce_append (h : sep ∉ a) (b : List Char) :
    splitOnce sep (a ++ sep :: b) = some (a, b) := by
  induction a with
  | nil => simp [splitOnce]
  | cons c a ih =>
    rw [List.mem_cons, not_or] at h
    rw [List.cons_append, splitOnce, if_neg (Ne.symm h.1), ih h.2, Option.map_some]

theorem splitOnce_eq_none (h : sep ∉ s) : splitOnce sep s = none := by
  induction s with
  | nil => rfl
  | cons c s ih =>
    rw [List.mem_cons, not_or] at h
    rw [splitOnce, if_neg (Ne.symm h.1), ih h.2, Option.map_none]

theorem split_of_not_mem (h : sep ∉ s) : split sep s = [s] := by
  induction s with
  | nil => rfl
  | cons c s ih =>
    rw [List.mem_cons, not_or] at h
    rw [split, if_neg (Ne.symm h.1), ih h.2]

theorem split_append (h : sep ∉ a) (b : List Char) :
    split sep (a ++ sep :: b) = a :: split sep b := by
  induction a with
  | nil => rw [List.nil_append, split, if_pos rfl]
  | cons c a ih =>
    rw [List.mem_cons, not_or] at h
    rw [List.cons_append, split, if_neg (Ne.symm h.1), ih h.2]

theorem split_ne_nil (sep : Char) (s : List Char) : split sep s ≠ [] := by
  cases s with
  | nil => exact List.cons_ne_nil _ _
  | cons c s =>
    rw [split]
    split
    · exact List.cons_ne_nil _ _
    · split <;> exact List.cons_ne_nil _ _

/-- What is put in front of a text without a separator goes to its first piece. -/
theorem split_prefix (h : sep ∉ a) (b : List Char) :
    split sep (a ++ b) = (split sep b).modifyHead (a ++ ·) := by
  obtain ⟨p, ps, hp⟩ := List.exists_cons_of_ne_nil (split_ne_nil sep b)
  rw [hp]
  induction a with
  | nil => exact hp
  | cons c a ih =>
    rw [List.mem_cons, not_or] at h
    rw [List.cons_append, split, if_neg (Ne.symm h.1), ih h.2]
    rfl

/-- A text is its pieces with the separator between them. -/
theorem intercalate_split (sep : Char) (s : List Char) : [sep].intercalate (split sep s) = s := by
  induction s with
  | nil => rfl
  | cons c s ih =>
    obtain ⟨p, ps, hp⟩ := List.exists_cons_of_ne_nil (split_ne_nil sep s)
    rw [split, hp]
    rw [hp] at ih
    split
    · next h =>
      rw [List.intercalate_cons_cons, ih, h]
      rfl
    · cases ps with
      | nil =>
        rw [List.intercalate_singleton] at ih ⊢
        rw [ih]
      | cons q ps =>
        rw [List.intercalate_cons_cons] at ih ⊢
        rw [← ih]
        rfl

theorem filter_intercalate {p : Char → Bool} (h : p sep = false) (pieces : List (List Char)) :
    ([sep].intercalate pieces).filter p = pieces.flatMap (List.filter p) := by
  induction pieces with
  | nil => rfl
  | cons a as ih =>
    cases as with
    | nil =>
      rw [List.intercalate_singleton]
      exact (List.append_nil _).symm
    | cons b bs =>
      rw [List.intercalate_cons_cons, List.filter_append, List.filter_append, ih,
        List.filter_cons_of_neg (by simp [h])]
      exact congrArg (· ++ _) (List.append_nil _)

theorem trim_dropCarriageReturn (line : List Char) :
    trim (dropCarriageReturn line) = trim line := by
  unfold dropCarriageReturn
  split
  · next rest h =>
    rw [← List.reverse_reverse line, h, List.reverse_cons]
    exact (trim_append (List.forall_mem_singleton.2 rfl) rest.reverse).symm
  · rfl

/-- How a line ends, and whether the last one is empty, is lost when blank lines are left out. -/
theorem trim_lines (s : List Char) : ((lines s).map trim).filter (!·.isEmpty) =
    ((split '\n' s).map trim).filter (!·.isEmpty) := by
  have hended : ∀ ls : List (List Char), (ls.map dropCarriageReturn).map trim = ls.map trim := by
    intro ls
    rw [List.map_map]
    exact List.map_congr_left fun l _ => trim_dropCarriageReturn l
  obtain ⟨ls, last, hsplit⟩ := List.eq_nil_or_concat' (split '\n' s) |>.resolve_left
    (split_ne_nil '\n' s)
  simp only [lines, hsplit, List.dropLast_concat, List.getLast?_concat]
  cases last with
  | nil =>
    simp only [hended, List.map_append, List.filter_append]
    exact (List.append_nil _).symm
  | cons c cs => simp only [hended, List.map_append]

/-- A part without the separator stands on one side of it. -/
theorem infix_or_infix (h : sep ∉ part) (hpart : part <:+: a ++ sep :: b) :
    part <:+: a ∨ part <:+: b := by
  have hnil : ∀ r : List Char, (∀ c ∈ r, c ∈ part) → r <+: sep :: b → r = [] := by
    rintro r hr hstart
    rcases List.prefix_cons_iff.1 hstart with hr' | ⟨t, rfl, -⟩
    · exact hr'
    · exact absurd (hr sep List.mem_cons_self) h
  rcases List.infix_append_iff.1 hpart with ha | hb | ⟨l, r, rfl, hl, hr⟩
  · exact .inl ha
  · refine .inr ((List.infix_cons_iff.1 hb).elim (fun hstart => ?_) id)
    rw [hnil part (fun _ hc => hc) hstart]
    exact List.nil_infix
  · rw [hnil r (fun _ hc => List.mem_append_right l hc) hr, List.append_nil]
    exact .inl hl.isInfix

theorem infix_piece (h : sep ∉ part) (hne : pieces ≠ [])
    (hpart : part <:+: [sep].intercalate pieces) : ∃ p ∈ pieces, part <:+: p := by
  induction pieces with
  | nil => exact absurd rfl hne
  | cons p ps ih =>
    cases ps with
    | nil =>
      rw [List.intercalate_singleton] at hpart
      exact ⟨p, List.mem_cons_self, hpart⟩
    | cons q ps =>
      rw [List.intercalate_cons_cons, List.append_assoc] at hpart
      rcases infix_or_infix h hpart with hp | hps
      · exact ⟨p, List.mem_cons_self, hp⟩
      · obtain ⟨x, hx, hpart⟩ := ih (List.cons_ne_nil q ps) hps
        exact ⟨x, List.mem_cons_of_mem p hx, hpart⟩

theorem infix_intercalate (h : s ∈ pieces) : s <:+: [sep].intercalate pieces := by
  induction pieces with
  | nil => cases h
  | cons p ps ih =>
    cases ps with
    | nil =>
      obtain rfl := List.mem_singleton.1 h
      rw [List.intercalate_singleton]
    | cons q ps =>
      rw [List.intercalate_cons_cons, List.append_assoc]
      rcases List.mem_cons.1 h with rfl | h
      · exact (List.prefix_append s _).isInfix
      · exact (ih h).trans (((List.suffix_cons sep _).trans (List.suffix_append p _)).isInfix)

/-- What is cut off at the ends is no part of a text without blanks. -/
theorem infix_trim (h : ∀ c ∈ part, isBlank c = false) (hpart : part <:+: s) :
    part <:+: trim s := by
  have hnil : ∀ b r : List Char, (∀ c ∈ b, isBlank c = true) → (∀ c ∈ r, c ∈ part) → r <:+: b →
      r = [] := by
    intro b r hb hr hin
    refine List.eq_nil_iff_forall_not_mem.2 fun c hc => ?_
    have hblank := hb c (hin.subset hc)
    rw [h c (hr c hc)] at hblank
    exact absurd hblank (by decide)
  obtain ⟨l, r, hs, hl, hr⟩ := exists_trim s
  rw [hs] at hpart
  have hright : part <:+: trim s ++ r := by
    rcases List.infix_append_iff.1 hpart with hx | hx | ⟨x, y, rfl, hx, hy⟩
    · rw [hnil l part hl (fun _ hc => hc) hx]
      exact List.nil_infix
    · exact hx
    · rw [hnil l x hl (fun _ hc => List.mem_append_left y hc) hx.isInfix]
      exact hy.isInfix
  rcases List.infix_append_iff.1 hright with hx | hx | ⟨x, y, rfl, hx, hy⟩
  · exact hx
  · rw [hnil r part hr (fun _ hc => hc) hx]
    exact List.nil_infix
  · rw [hnil r y hr (fun _ hc => List.mem_append_right x hc) hy.isInfix, List.append_nil]
    exact hx.isInfix

theorem hasPart_iff : hasPart part s = true ↔ part <:+: s := by
  induction s with
  | nil => simp [hasPart]
  | cons c s ih =>
    rw [hasPart, Bool.or_eq_true, ih, List.isPrefixOf_iff_prefix, List.infix_cons_iff]

theorem replace_of_not_infix (h : ¬ old <:+: s) : replace old new s = s := by
  unfold replace
  induction s with
  | nil => rfl
  | cons c s ih =>
    rw [List.infix_cons_iff, not_or] at h
    rw [replaceFrom, if_neg (by rw [List.isPrefixOf_iff_prefix]; exact h.1), ih h.2]

/-- No pair starts in a text without it, unless what follows ends one. -/
theorem replace_pass (h : ¬ [x, y] <:+: s) (hc : c ≠ y) (t : List Char) :
    replace [x, y] new (s ++ c :: t) = s ++ replace [x, y] new (c :: t) := by
  unfold replace
  induction s with
  | nil => rfl
  | cons d s ih =>
    have hnot : ¬ [x, y] <+: d :: (s ++ c :: t) := by
      rintro ⟨rest, hrest⟩
      obtain ⟨rfl, hnext⟩ := List.cons.inj hrest
      cases s with
      | nil => exact hc (List.cons.inj hnext).1.symm
      | cons e s =>
        obtain ⟨rfl, -⟩ := List.cons.inj hnext
        exact h ⟨[], s, rfl⟩
    rw [List.infix_cons_iff, not_or] at h
    rw [List.cons_append, replaceFrom, if_neg (by rwa [List.isPrefixOf_iff_prefix]), ih h.2,
      List.cons_append]

theorem replace_cons (h : c ≠ x) (t : List Char) :
    replace [x, y] new (c :: t) = c :: replace [x, y] new t := by
  have hstarts : ¬ [x, y].isPrefixOf (c :: t) = true := by
    rw [List.isPrefixOf_iff_prefix]
    rintro ⟨rest, hrest⟩
    exact h (List.cons.inj hrest).1.symm
  rw [replace, replaceFrom, if_neg hstarts, replace]

theorem replace_pair (x y : Char) (new t : List Char) :
    replace [x, y] new (x :: y :: t) = new ++ replace [x, y] new t := by
  have hstarts : [x, y].isPrefixOf (x :: y :: t) = true := by simp
  rw [replace, replaceFrom, if_pos hstarts]
  rfl

/-- A pair does not reach over a character that is not in it. -/
theorem not_pair_append (hx : c ≠ x) (hy : c ≠ y) (ha : ¬ [x, y] <:+: a) (hb : ¬ [x, y] <:+: b) :
    ¬ [x, y] <:+: a ++ c :: b := by
  induction a with
  | nil =>
    rw [List.nil_append, List.infix_cons_iff, not_or]
    refine ⟨?_, hb⟩
    rintro ⟨rest, hrest⟩
    exact hx (List.cons.inj hrest).1.symm
  | cons d a ih =>
    rw [List.infix_cons_iff, not_or] at ha
    rw [List.cons_append, List.infix_cons_iff, not_or]
    refine ⟨?_, ih ha.2⟩
    rintro ⟨rest, hrest⟩
    obtain ⟨rfl, hnext⟩ := List.cons.inj hrest
    cases a with
    | nil => exact hy (List.cons.inj hnext).1.symm
    | cons e a =>
      obtain ⟨rfl, -⟩ := List.cons.inj hnext
      exact ha.1 ⟨a, rfl⟩

theorem digitsValue_append (s : List Char) (c : Char) :
    digitsValue (s ++ [c]) = digitsValue s * 10 + (c.toNat - '0'.toNat) := by
  rw [digitsValue, List.foldl_append]
  rfl

/-- By induction on the number without its last digit. -/
theorem digitsValue_toDigits (n : Nat) : digitsValue (Nat.toDigits 10 n) = n := by
  have hdigit : ∀ d < 10, (Nat.digitChar d).toNat - '0'.toNat = d := by decide
  induction n using Nat.strongRecOn with
  | ind n ih =>
    rw [Nat.toDigits_eq_if (by decide)]
    split
    · next hlt => simpa [digitsValue] using hdigit n hlt
    · next hge =>
      rw [digitsValue_append, ih (n / 10) (by omega), hdigit (n % 10) (by omega)]
      omega

theorem isDigit_toDigits (h : c ∈ Nat.toDigits 10 n) : c.isDigit = true :=
  Nat.isDigit_of_mem_toDigits (by decide) (by decide) h

theorem toDigits_eq_append (n : Nat) :
    ∃ ds, Nat.toDigits 10 n = ds ++ [Nat.digitChar (n % 10)] := by
  rw [Nat.toDigits_eq_if (by decide)]
  split
  · next hlt => exact ⟨[], by rw [Nat.mod_eq_of_lt hlt, List.nil_append]⟩
  · exact ⟨_, rfl⟩

theorem toList_toString (n : Nat) : (toString n).toList = Nat.toDigits 10 n := by
  simp [Nat.toString_eq_repr, Nat.repr]

theorem trim_toDigits (n : Nat) : trim (Nat.toDigits 10 n) = Nat.toDigits 10 n :=
  trim_eq_self (fun _ hc => isBlank_of_isDigit (isDigit_toDigits (List.mem_of_head? hc)))
    fun _ hc => isBlank_of_isDigit (isDigit_toDigits (List.mem_of_getLast? hc))

theorem readNat_toDigits (n : Nat) : readNat (Nat.toDigits 10 n) = some n := by
  have hall : (Nat.toDigits 10 n).all Char.isDigit = true :=
    List.all_eq_true.2 fun _ hc => isDigit_toDigits hc
  rw [readNat, hall, digitsValue_toDigits]
  simp

/-- Digits are read without a sign. -/
theorem readInt_toDigits (n : Nat) : readInt (Nat.toDigits 10 n) = Bounded.bound n := by
  have hsign : ∀ c ∈ Nat.toDigits 10 n, c ≠ '-' ∧ c ≠ '+' := by
    intro c hc
    have hdigit := isDigit_toDigits hc
    constructor <;> rintro rfl <;> exact absurd hdigit (by decide)
  have hread := readNat_toDigits n
  unfold readInt
  split
  · next rest heq => exact absurd rfl (hsign '-' (heq ▸ List.mem_cons_self)).1
  · next rest heq => exact absurd rfl (hsign '+' (heq ▸ List.mem_cons_self)).2
  · rw [hread]
    rfl

end Consistency.Text
