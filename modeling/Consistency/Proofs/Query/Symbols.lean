import Mathlib.Data.List.Basic
import Consistency.Query

/-!
# Symbols of queries

Symbols are named after numbers. Those of one kind differ when the numbers do,
and those of different kinds always differ.
-/

set_option autoImplicit false

namespace Consistency

def digits (n : Nat) : List Char := Nat.toDigits 10 n

theorem toList_toString (n : Nat) : (toString n).toList = digits n := by
  simp [digits, Nat.toString_eq_repr, Nat.repr]

theorem digits_injective {m n : Nat} (h : digits m = digits n) : m = n := by
  have := congrArg (fun ds => Nat.ofDigitChars 10 ds 0) h
  simpa [digits, Nat.ofDigitChars_toDigits] using this

theorem underscore_not_mem (n : Nat) : '_' ∉ digits n := Nat.underscore_not_in_toDigits

/-- Two texts around the first separator. -/
theorem split_injective {sep : Char} {xs xs' ys ys' : List Char} (hx : sep ∉ xs) (hx' : sep ∉ xs')
    (h : xs ++ sep :: ys = xs' ++ sep :: ys') : xs = xs' ∧ ys = ys' := by
  induction xs generalizing xs' with
  | nil =>
    cases xs' with
    | nil => simpa using h
    | cons c cs =>
      simp only [List.nil_append, List.cons_append, List.cons.injEq] at h
      exact absurd (h.1 ▸ List.mem_cons_self) hx'
  | cons c cs ih =>
    cases xs' with
    | nil =>
      simp only [List.nil_append, List.cons_append, List.cons.injEq] at h
      exact absurd (h.1 ▸ List.mem_cons_self) hx
    | cons d ds =>
      simp only [List.cons_append, List.cons.injEq] at h
      obtain ⟨hcs, hys⟩ := ih (fun hm => hx (List.mem_cons_of_mem _ hm))
        (fun hm => hx' (List.mem_cons_of_mem _ hm)) h.2
      exact ⟨by rw [h.1, hcs], hys⟩

/-- Two numbers written with an underscore between them. -/
theorem numbered_injective {stem : String} {i j i' j' : Nat}
    (h : stem ++ toString i ++ "_" ++ toString j = stem ++ toString i' ++ "_" ++ toString j') :
    i = i' ∧ j = j' := by
  have hl := congrArg String.toList h
  simp only [String.toList_append, toList_toString, List.append_assoc] at hl
  have hl' := List.append_cancel_left hl
  obtain ⟨hi, hj⟩ := split_injective (underscore_not_mem i) (underscore_not_mem i') hl'
  exact ⟨digits_injective hi, digits_injective hj⟩

theorem rfSymbol_injective {r w r' w' : Nat} (h : rfSymbol r w = rfSymbol r' w') :
    r = r' ∧ w = w' := numbered_injective h

theorem coSymbol_injective {a b a' b' : Nat} (h : coSymbol a b = coSymbol a' b') :
    a = a' ∧ b = b' := numbered_injective h

theorem readSymbol_injective {t i t' i' : Nat} (h : readSymbol t i = readSymbol t' i') :
    t = t' ∧ i = i' := numbered_injective h

theorem choiceSymbol_injective {t k t' k' : Nat}
    (h : Thread.choiceSymbol t k = Thread.choiceSymbol t' k') : t = t' ∧ k = k' :=
  numbered_injective h

theorem Query.definitionSymbol_injective {j k : Nat}
    (h : definitionSymbol j = definitionSymbol k) : j = k := by
  have hl := congrArg String.toList h
  simp only [definitionSymbol, String.toList_append, toList_toString] at hl
  exact digits_injective (List.append_cancel_left hl)

def stem (x : String) : List Char := x.toList.take 2

@[simp] theorem stem_rfSymbol (r w : Nat) : stem (rfSymbol r w) = ['r', 'f'] := by
  simp [stem, rfSymbol]

@[simp] theorem stem_coSymbol (a b : Nat) : stem (coSymbol a b) = ['c', 'o'] := by
  simp [stem, coSymbol]

@[simp] theorem stem_readSymbol (t i : Nat) : stem (readSymbol t i) = ['r', 'v'] := by
  simp [stem, readSymbol]

@[simp] theorem stem_choiceSymbol (t k : Nat) : stem (Thread.choiceSymbol t k) = ['n', 'd'] := by
  simp [stem, Thread.choiceSymbol]

@[simp] theorem stem_definitionSymbol (k : Nat) :
    stem (Query.definitionSymbol k) = ['d', 'e'] := by
  simp [stem, Query.definitionSymbol]

end Consistency
