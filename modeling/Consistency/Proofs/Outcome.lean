import Consistency.Outcome
import Consistency.Proofs.Run
import Consistency.Proofs.Text

/-!
# Outcomes are read back from their texts

Each atom is read back from its text, with any blanks around it, if its names can
be told apart from what stands around them. Such names hold no separator, so that
the separators in the text of an outcome are those between its atoms.
-/

set_option autoImplicit false

namespace Consistency
open Bounded (InRange)
open Text (trim isBlank)

structure Apart (name : List Char) : Prop where
  trimmed : trim name = name
  equality : '=' ∉ name
  comma : ',' ∉ name
  ampersands : ¬ ['&', '&'] <:+: name
  slashes : ¬ ['/', '\\'] <:+: name

namespace Atom
variable {a : Atom} {l r : List Char} {p : Nat} {n : Int}

def Writable : Atom → Prop
  | .register p reg n => p < Nat.pow 2 64 ∧ Apart reg.toList ∧ InRange n
  | .memory var n => (Apart var.toList ∧ var.toList ≠ [] ∧ ':' ∉ var.toList) ∧ InRange n

def target : Atom → List Char
  | .register p reg _ => Nat.toDigits 10 p ++ ':' :: reg.toList
  | .memory var _ => var.toList

def value : Atom → Int
  | .register _ _ n => n
  | .memory _ n => n

def digits (n : Int) : List Char :=
  if n < 0 then '-' :: Nat.toDigits 10 n.natAbs else Nat.toDigits 10 n.natAbs

theorem toList_toString (n : Int) : (toString n).toList = digits n := by
  unfold digits
  cases n with
  | ofNat n =>
    rw [if_neg (by simp)]
    exact Text.toList_toString n
  | negSucc n =>
    rw [if_pos (Int.negSucc_lt_zero n)]
    show ("-" ++ toString (n + 1)).toList = _
    rw [String.toList_append, Text.toList_toString]
    rfl

theorem toList_render (a : Atom) : a.render.toList = a.target ++ '=' :: digits a.value := by
  cases a <;>
    simp only [render, target, value, String.toList_append, toList_toString, Text.toList_toString,
      String.reduceToList, List.append_assoc, List.cons_append, List.nil_append]

theorem mem_digits {c : Char} (h : c ∈ digits n) : c = '-' ∨ c.isDigit = true := by
  unfold digits at h
  split at h
  · exact (List.mem_cons.1 h).imp_right Text.isDigit_toDigits
  · exact .inr (Text.isDigit_toDigits h)

theorem isBlank_of_mem_digits {c : Char} (h : c ∈ digits n) : isBlank c = false := by
  rcases mem_digits h with rfl | hdigit
  · rfl
  · exact Text.isBlank_of_isDigit hdigit

theorem not_mem_digits {c : Char} (hdash : c ≠ '-') (hdigit : c.isDigit = false) :
    c ∉ digits n := by
  intro h
  rcases mem_digits h with rfl | hyes
  · exact hdash rfl
  · rw [hdigit] at hyes
    exact absurd hyes (by decide)

theorem not_mem_toDigits {c : Char} (hdigit : c.isDigit = false) : c ∉ Nat.toDigits 10 p := by
  intro h
  have hyes := Text.isDigit_toDigits h
  rw [hdigit] at hyes
  exact absurd hyes (by decide)

theorem digits_ne_nil (n : Int) : digits n ≠ [] := by
  unfold digits
  split
  · exact List.cons_ne_nil _ _
  · exact Nat.toDigits_ne_nil

theorem trim_digits (n : Int) : trim (digits n) = digits n :=
  Text.trim_eq_self (fun _ hc => isBlank_of_mem_digits (List.mem_of_head? hc))
    fun _ hc => isBlank_of_mem_digits (List.mem_of_getLast? hc)

theorem readInt_digits (h : InRange n) : Text.readInt (digits n) = some n := by
  unfold digits
  split
  · next hneg =>
    have hback : -(n.natAbs : Int) = n := by omega
    rw [Text.readInt, Text.readNat_toDigits, Option.bind_some, hback, Bounded.bound, if_pos h]
  · next hpos =>
    have hback : (n.natAbs : Int) = n := by omega
    rw [Text.readInt_toDigits, hback, Bounded.bound, if_pos h]

theorem readWord_toDigits (h : p < Nat.pow 2 64) :
    Text.readWord (Nat.toDigits 10 p) = some p := by
  have hsign : ∀ c ∈ Nat.toDigits 10 p, c ≠ '+' := by
    rintro c hc rfl
    exact not_mem_toDigits rfl hc
  have hread := Text.readNat_toDigits p
  unfold Text.readWord Text.readNatBelow
  split
  · next rest heq => exact absurd rfl (hsign '+' (heq ▸ List.mem_cons_self))
  · simp only [hread, Option.bind_some, if_pos h]

theorem Writable.target_ne_nil (h : a.Writable) : a.target ≠ [] := by
  cases a with
  | register p reg n => simp [target]
  | memory var n => exact h.1.2.1

theorem Writable.trim_target (h : a.Writable) : trim a.target = a.target := by
  cases a with
  | memory var n => exact h.1.1.trimmed
  | register p reg n =>
    obtain ⟨-, hlast⟩ := Text.ends_of_trim h.2.1.trimmed
    refine Text.trim_eq_self (fun c hc => ?_) fun c hc => ?_
    · obtain ⟨d, ds, hds⟩ := List.exists_cons_of_ne_nil (Nat.toDigits_ne_nil (b := 10) (n := p))
      rw [target, hds] at hc
      obtain rfl := Option.some.inj hc
      exact Text.isBlank_of_isDigit (Text.isDigit_toDigits (hds ▸ List.mem_cons_self))
    · rw [target, List.getLast?_append, List.getLast?_cons] at hc
      cases hreg : reg.toList.getLast? with
      | none =>
        rw [hreg] at hc
        obtain rfl := Option.some.inj hc
        rfl
      | some d =>
        rw [hreg] at hc
        obtain rfl := Option.some.inj hc
        exact hlast d hreg

theorem Writable.equality (h : a.Writable) : '=' ∉ a.target := by
  cases a with
  | memory var n => exact h.1.1.equality
  | register p reg n =>
    rw [target, List.mem_append, List.mem_cons, not_or, not_or]
    exact ⟨not_mem_toDigits rfl, by decide, h.2.1.equality⟩

theorem Writable.readTarget (h : a.Writable) : readTarget a.target a.value = some a := by
  cases a with
  | register p reg n =>
    rw [target, Atom.readTarget, Text.splitOnce_append (not_mem_toDigits rfl)]
    simp only [Text.trim_toDigits, h.2.1.trimmed, readWord_toDigits h.1, Option.map_some,
      String.ofList_toList]
    rfl
  | memory var n =>
    rw [target, Atom.readTarget, Text.splitOnce_eq_none h.1.2.2]
    simp only [List.isEmpty_iff, if_neg h.1.2.1, String.ofList_toList]
    rfl

theorem Writable.inRange (h : a.Writable) : InRange a.value := by
  cases a with
  | register p reg n => exact h.2.2
  | memory var n => exact h.2

/-- An atom is read back from its text with blanks around it. -/
theorem Writable.parse (h : a.Writable) (hl : ∀ c ∈ l, isBlank c = true)
    (hr : ∀ c ∈ r, isBlank c = true) : Atom.parse (l ++ (a.render.toList ++ r)) = .ok a := by
  have hsign : '=' ∉ l ++ a.target := by
    rw [List.mem_append, not_or]
    refine ⟨fun hmem => ?_, h.equality⟩
    exact absurd (hl '=' hmem) (by decide)
  have hsplit : Text.splitOnce '=' (l ++ (a.render.toList ++ r)) =
      some (l ++ a.target, digits a.value ++ r) := by
    rw [toList_render]
    simpa using Text.splitOnce_append hsign (digits a.value ++ r)
  have hvalue : trim (digits a.value ++ r) = digits a.value :=
    Text.trim_surround (l := []) (by simp) hr (trim_digits a.value)
  have htarget : trim (l ++ a.target) = a.target := by
    simpa using Text.trim_surround (r := []) hl (by simp) h.trim_target
  have hread : Atom.read? (l ++ (a.render.toList ++ r)) = some a := by
    rw [Atom.read?, hsplit]
    simp only [Option.bind_eq_bind, Option.bind_some, hvalue, htarget, readInt_digits h.inRange]
    exact h.readTarget
  rw [Atom.parse, hread]

/-- A text of an atom has no pair of signs that no name has, if they are not its own signs. -/
theorem Writable.not_pair {x y : Char} (h : a.Writable) (hname : ∀ s, Apart s → ¬ [x, y] <:+: s)
    (hequal : '=' ≠ x ∧ '=' ≠ y) (hcolon : ':' ≠ x ∧ ':' ≠ y) (hdash : x ≠ '-')
    (hdigit : x.isDigit = false) : ¬ [x, y] <:+: a.render.toList := by
  have hvalue : ¬ [x, y] <:+: digits a.value := fun hpair =>
    not_mem_digits hdash hdigit (hpair.subset List.mem_cons_self)
  rw [toList_render]
  refine Text.not_pair_append hequal.1 hequal.2 ?_ hvalue
  cases a with
  | memory var n => exact hname _ h.1.1
  | register p reg n =>
    have hnumber : ¬ [x, y] <:+: Nat.toDigits 10 p := fun hpair =>
      not_mem_toDigits hdigit (hpair.subset List.mem_cons_self)
    exact Text.not_pair_append hcolon.1 hcolon.2 hnumber (hname _ h.2.1)

theorem Writable.comma (h : a.Writable) : ',' ∉ a.render.toList := by
  have hdigits : ',' ∉ digits a.value := not_mem_digits (by decide) rfl
  have htarget : ',' ∉ a.target := by
    cases a with
    | memory var n => exact h.1.1.comma
    | register p reg n =>
      rw [target, List.mem_append, List.mem_cons, not_or, not_or]
      exact ⟨not_mem_toDigits rfl, by decide, h.2.1.comma⟩
  rw [toList_render, List.mem_append, List.mem_cons, not_or, not_or]
  exact ⟨htarget, by decide, hdigits⟩

theorem Writable.trim_render (h : a.Writable) : trim a.render.toList = a.render.toList := by
  have happend : a.render.toList = a.target ++ ['='] ++ digits a.value := by
    rw [toList_render, List.append_assoc]
    rfl
  rw [happend]
  exact Text.trim_around h.trim_target (trim_digits _) h.target_ne_nil (digits_ne_nil _) _

end Atom

namespace Outcome
variable {o : Outcome} {as : List Atom} {l : List Char}

def Writable (o : Outcome) : Prop := ∀ a ∈ o.atoms, a.Writable

def joined (sep : List Char) (as : List Atom) : List Char :=
  sep.intercalate (as.map fun a => a.render.toList)

theorem joined_singleton (sep : List Char) (a : Atom) : joined sep [a] = a.render.toList := by
  simp [joined]

theorem joined_cons_cons (sep : List Char) (a b : Atom) (as : List Atom) :
    joined sep (a :: b :: as) = a.render.toList ++ (sep ++ joined sep (b :: as)) := by
  simp [joined, List.intercalate_cons_cons]

theorem toList_render (h : o.atoms ≠ []) :
    o.render.toList = joined [' ', '/', '\\', ' '] o.atoms := by
  rw [render, if_neg (by simpa using h), String.toList_intercalate, List.map_map]
  rfl

theorem trim_joined (h : ∀ a ∈ as, a.Writable) (hne : as ≠ []) (sep : List Char) :
    trim (joined sep as) = joined sep as ∧ joined sep as ≠ [] := by
  have htext : ∀ a : Atom, a.render.toList ≠ [] := by
    intro a
    rw [Atom.toList_render]
    simp
  induction as with
  | nil => exact absurd rfl hne
  | cons a as ih =>
    rw [List.forall_mem_cons] at h
    cases as with
    | nil =>
      rw [joined_singleton]
      exact ⟨h.1.trim_render, htext a⟩
    | cons b as =>
      obtain ⟨htrim, hrest⟩ := ih h.2 (List.cons_ne_nil b as)
      rw [joined_cons_cons, ← List.append_assoc]
      refine ⟨Text.trim_around h.1.trim_render htrim (htext a) hrest sep, ?_⟩
      simp [hrest]

/-- The conjunctions are the only ones in the text: they become commas, and nothing else does. -/
theorem commas_joined (h : ∀ a ∈ as, a.Writable) :
    commas (joined [' ', '/', '\\', ' '] as) = joined [' ', ',', ' '] as := by
  have hslashes : ∀ a ∈ as, ¬ ['/', '\\'] <:+: a.render.toList := fun a ha =>
    (h a ha).not_pair (fun _ hs => hs.slashes) (by decide) (by decide) (by decide) rfl
  have hampersands : ∀ a ∈ as, ¬ ['&', '&'] <:+: a.render.toList := fun a ha =>
    (h a ha).not_pair (fun _ hs => hs.ampersands) (by decide) (by decide) (by decide) rfl
  have hfirst : Text.replace ['/', '\\'] [','] (joined [' ', '/', '\\', ' '] as) =
      joined [' ', ',', ' '] as := by
    clear hampersands h
    induction as with
    | nil => rfl
    | cons a as ih =>
      rw [List.forall_mem_cons] at hslashes
      cases as with
      | nil =>
        rw [joined_singleton, joined_singleton]
        exact Text.replace_of_not_infix hslashes.1
      | cons b as =>
        rw [joined_cons_cons, joined_cons_cons, ← ih hslashes.2]
        simp only [List.cons_append, List.nil_append]
        rw [Text.replace_pass hslashes.1 (by decide), Text.replace_cons (by decide),
          Text.replace_pair, Text.replace_cons (by decide)]
        rfl
  have hnone : ¬ ['&', '&'] <:+: joined [' ', ',', ' '] as := by
    clear hslashes hfirst h
    induction as with
    | nil => simp [joined]
    | cons a as ih =>
      rw [List.forall_mem_cons] at hampersands
      cases as with
      | nil =>
        rw [joined_singleton]
        exact hampersands.1
      | cons b as =>
        rw [joined_cons_cons]
        have hblank : ¬ ['&', '&'] <:+: [','] ++ ' ' :: joined [' ', ',', ' '] (b :: as) :=
          Text.not_pair_append (by decide) (by decide) (by decide) (ih hampersands.2)
        exact Text.not_pair_append (by decide) (by decide) hampersands.1 hblank
  rw [commas, hfirst]
  exact Text.replace_of_not_infix hnone

/-- By induction on the atoms: between two commas there is an atom with a blank on each side. -/
theorem parse_pieces (h : ∀ a ∈ as, a.Writable) (hne : as ≠ []) (hl : ∀ c ∈ l, isBlank c = true) :
    List.Forall₂ (fun s a => Atom.parse s = .ok a)
      (Text.split ',' (l ++ joined [' ', ',', ' '] as)) as := by
  have hblank : ∀ c ∈ [' '], isBlank c = true := List.forall_mem_singleton.2 rfl
  have hcomma : ',' ∉ l := fun hmem => absurd (hl ',' hmem) (by decide)
  induction as generalizing l with
  | nil => exact absurd rfl hne
  | cons a as ih =>
    rw [List.forall_mem_cons] at h
    cases as with
    | nil =>
      have hpiece := h.1.parse (r := []) hl (by simp)
      rw [List.append_nil] at hpiece
      rw [joined_singleton, Text.split_of_not_mem]
      · exact .cons hpiece .nil
      · rw [List.mem_append, not_or]
        exact ⟨hcomma, h.1.comma⟩
    | cons b as =>
      have hsplit : l ++ joined [' ', ',', ' '] (a :: b :: as) =
          (l ++ (a.render.toList ++ [' '])) ++ ',' ::
            ([' '] ++ joined [' ', ',', ' '] (b :: as)) := by
        rw [joined_cons_cons]
        simp
      have hnone : ',' ∉ l ++ (a.render.toList ++ [' ']) := by
        simp only [List.mem_append, not_or]
        exact ⟨hcomma, h.1.comma, by decide⟩
      rw [hsplit, Text.split_append hnone]
      exact .cons (h.1.parse hl hblank) (ih h.2 (List.cons_ne_nil b as) hblank (by decide))

/-- Outcomes whose names can be told apart from the signs around them are read back from their
texts. -/
theorem parse_written (o : Outcome) (h : o.Writable) : parse o.render = .ok o := by
  by_cases hne : o.atoms = []
  · obtain ⟨as⟩ := o
    obtain rfl : as = [] := hne
    rfl
  · obtain ⟨htrim, hsome⟩ := trim_joined h hne [' ', '/', '\\', ' ']
    have htrue : joined [' ', '/', '\\', ' '] o.atoms ≠ "true".toList := by
      intro heq
      obtain ⟨a, as, has⟩ := List.exists_cons_of_ne_nil hne
      have hmem : '=' ∈ joined [' ', '/', '\\', ' '] o.atoms := by
        rw [has]
        cases as <;> simp [joined_singleton, joined_cons_cons, Atom.toList_render]
      rw [heq] at hmem
      exact absurd hmem (by decide)
    have hpieces := parse_pieces (l := []) h hne (by simp)
    rw [List.nil_append] at hpieces
    rw [parse, toList_render hne, htrim]
    simp only [List.isEmpty_iff, hsome, htrue, or_self, if_false, commas_joined h]
    rw [mapM_eq_ok.2 hpieces]
    rfl

/-- Names with spaces, colons, single ampersands and slashes, and the least integer. -/
theorem parse_written_signs :
    Writable ⟨[.register 0 "a:b & /" Bounded.least, .memory "\\x y&" 7]⟩ ∧
      parse (render ⟨[.register 0 "a:b & /" Bounded.least, .memory "\\x y&" 7]⟩) =
        .ok ⟨[.register 0 "a:b & /" Bounded.least, .memory "\\x y&" 7]⟩ := by
  have hw : Writable ⟨[.register 0 "a:b & /" Bounded.least, .memory "\\x y&" 7]⟩ := by
    have hreg : Apart "a:b & /".toList :=
      ⟨by decide, by decide, by decide, by decide, by decide⟩
    have hvar : Apart "\\x y&".toList :=
      ⟨by decide, by decide, by decide, by decide, by decide⟩
    intro a ha
    rcases List.mem_cons.1 ha with rfl | ha
    · exact ⟨by decide, hreg, by decide⟩
    · obtain rfl := List.mem_singleton.1 ha
      exact ⟨⟨hvar, by decide, by decide⟩, by decide⟩
  exact ⟨hw, parse_written _ hw⟩

end Outcome
end Consistency
