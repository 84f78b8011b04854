import Consistency.CommandLine
import Consistency.Proofs.Text

/-!
# Values of flags

A flag with its value in the same argument is read like one with its value in
the next argument, wherever a flag is expected. A switch is read alike whatever
value it carries.
-/

set_option autoImplicit false

namespace Consistency.CommandLine
variable {d : Draft} {arg flag value : String} {carried : Option String}
  {before rest rest' : List String}

def valuedFlags : List String :=
  ["--litmus", "--solver", "--model", "--timeout", "--jobs", "--step-bound", "--output-format"]

def switches : List String :=
  ["--first", "--subsumption", "--eager-errors", "--print-automata", "--verbose"]

def TakesNext (arg : String) : Prop :=
  (splitFlag arg).1 ∈ valuedFlags ∧ (splitFlag arg).2 = none

instance (arg : String) : Decidable (TakesNext arg) := inferInstanceAs (Decidable (_ ∧ _))

inductive Settled : List String → Prop where
  | nil : Settled []
  | single {arg : String} {rest : List String} (h : ¬ TakesNext arg) (hrest : Settled rest) :
    Settled (arg :: rest)
  | pair {arg value : String} {rest : List String} (h : TakesNext arg) (hrest : Settled rest) :
    Settled (arg :: value :: rest)

theorem valued?_isSome (d : Draft) (flag : String) :
    (valued? d flag).isSome = true ↔ flag ∈ valuedFlags := by
  unfold valued?
  split <;> simp_all [valuedFlags]

def give (d : Draft) (flag value : String) : Except UsageError Draft :=
  match valued? d flag with
  | some set => set value
  | none => .ok d

def proceed (rest : List String) : Invocation Draft → Except UsageError (Invocation Draft)
  | .check d => readArgs rest d
  | done => .ok done

theorem readArgs_carried (h : splitFlag arg = (flag, some value)) (hf : flag ∈ valuedFlags)
    (rest : List String) (d : Draft) :
    readArgs (arg :: rest) d = (give d flag value >>= readArgs rest) := by
  obtain ⟨set, hset⟩ := Option.isSome_iff_exists.1 ((valued?_isSome d flag).2 hf)
  rw [readArgs, h, give]
  simp only [hset]

theorem readArgs_next (h : splitFlag arg = (flag, none)) (hf : flag ∈ valuedFlags)
    (value : String) (rest : List String) (d : Draft) :
    readArgs (arg :: value :: rest) d = (give d flag value >>= readArgs rest) := by
  obtain ⟨set, hset⟩ := Option.isSome_iff_exists.1 ((valued?_isSome d flag).2 hf)
  rw [readArgs, h, give]
  simp only [hset]

theorem readArgs_plain (h : splitFlag arg = (flag, carried)) (hf : flag ∉ valuedFlags)
    (rest : List String) (d : Draft) :
    readArgs (arg :: rest) d = (readPlain d flag >>= proceed rest) := by
  have hnone : valued? d flag = none := by
    rw [← Option.not_isSome_iff_eq_none, valued?_isSome]
    exact hf
  rw [readArgs, h]
  simp only [hnone]
  refine congrArg _ (funext fun done => ?_)
  cases done <;> rfl

theorem proceed_congr (h : ∀ d, readArgs rest d = readArgs rest' d) :
    proceed rest = proceed rest' := by
  funext done
  cases done with
  | check d => exact h d
  | help => rfl
  | version => rfl

/-- By induction on the arguments before: what is read alike at first is read alike after them. -/
theorem Settled.congr (h : Settled before) (hrest : ∀ d, readArgs rest d = readArgs rest' d)
    (d : Draft) : readArgs (before ++ rest) d = readArgs (before ++ rest') d := by
  induction h generalizing d with
  | nil => exact hrest d
  | @single arg tail h _ ih =>
    rcases hs : splitFlag arg with ⟨flag, carried⟩
    rw [List.cons_append, List.cons_append]
    by_cases hf : flag ∈ valuedFlags
    · cases carried with
      | none => exact absurd ⟨by rwa [hs], by rw [hs]⟩ h
      | some value =>
        rw [readArgs_carried hs hf, readArgs_carried hs hf]
        exact congrArg _ (funext ih)
    · rw [readArgs_plain hs hf, readArgs_plain hs hf, proceed_congr ih]
  | @pair arg value tail h _ ih =>
    have hs : splitFlag arg = ((splitFlag arg).1, none) := by rw [← h.2]
    rw [List.cons_append, List.cons_append, List.cons_append, List.cons_append,
      readArgs_next hs h.1, readArgs_next hs h.1]
    exact congrArg _ (funext ih)

def Dashed (flag : String) : Prop := ['-', '-'] <+: flag.toList ∧ '=' ∉ flag.toList

theorem valued_dashed (h : flag ∈ valuedFlags) : Dashed flag := by
  revert flag
  unfold Dashed
  decide

theorem switch_dashed (h : flag ∈ switches) : Dashed flag ∧ flag ∉ valuedFlags := by
  revert flag
  unfold Dashed
  decide

theorem splitFlag_dashed (h : Dashed flag) : splitFlag flag = (flag, none) := by
  obtain ⟨⟨cs, hcs⟩, heq⟩ := h
  have hlist : flag.toList = '-' :: '-' :: cs := hcs.symm
  have hnone := Text.splitOnce_eq_none heq
  rw [hlist] at hnone
  rw [splitFlag, hlist]
  simp only [hnone]

theorem splitFlag_inline (h : Dashed flag) (value : String) :
    splitFlag (flag ++ "=" ++ value) = (flag, some value) := by
  obtain ⟨⟨cs, hcs⟩, heq⟩ := h
  have hlist : (flag ++ "=" ++ value).toList = '-' :: '-' :: (cs ++ '=' :: value.toList) := by
    simp [String.toList_append, ← hcs]
  have hsplit : Text.splitOnce '=' ('-' :: '-' :: (cs ++ '=' :: value.toList)) =
      some (flag.toList, value.toList) := by
    have happend := Text.splitOnce_append heq value.toList
    rwa [← hcs] at happend ⊢
  rw [splitFlag, hlist]
  simp only [hsplit, String.ofList_toList]

/-- Where a flag is expected, the value of a flag may be carried or come next, with the same
result. A switch may carry any value: it is read as if it carried none. -/
theorem parse_carried (before after : List String) (hb : Settled before) (flag value : String)
    (env : Option String) :
    (flag ∈ valuedFlags → parse (before ++ (flag ++ "=" ++ value) :: after) env =
      parse (before ++ flag :: value :: after) env) ∧
    (flag ∈ switches → parse (before ++ (flag ++ "=" ++ value) :: after) env =
      parse (before ++ flag :: after) env) := by
  constructor
  · intro hf
    have hd := valued_dashed hf
    have hsame : ∀ d, readArgs ((flag ++ "=" ++ value) :: after) d =
        readArgs (flag :: value :: after) d := by
      intro d
      rw [readArgs_carried (splitFlag_inline hd value) hf, readArgs_next (splitFlag_dashed hd) hf]
    rw [parse, parse, hb.congr hsame]
  · intro hf
    obtain ⟨hd, hplain⟩ := switch_dashed hf
    have hsame : ∀ d, readArgs ((flag ++ "=" ++ value) :: after) d =
        readArgs (flag :: after) d := by
      intro d
      rw [readArgs_plain (splitFlag_inline hd value) hplain,
        readArgs_plain (splitFlag_dashed hd) hplain]
    rw [parse, parse, hb.congr hsame]

/-- After `--model` with the value `--jobs`, a value may start with a dash and hold an equality
sign, and `--first=false` is `--first`. -/
theorem parse_carried_dash : Settled ["t.json", "--model", "--jobs"] ∧
    parse ["t.json", "--model", "--jobs", "--litmus=-a=b", "--verbose"] none =
      parse ["t.json", "--model", "--jobs", "--litmus", "-a=b", "--verbose"] none ∧
    parse ["t.json", "--model", "--jobs", "--first=false", "--verbose"] none =
      parse ["t.json", "--model", "--jobs", "--first", "--verbose"] none := by
  have hsettled : Settled ["t.json", "--model", "--jobs"] :=
    .single (by decide) (.pair (by decide) .nil)
  exact ⟨hsettled, (parse_carried _ ["--verbose"] hsettled "--litmus" "-a=b" none).1 (by decide),
    (parse_carried _ ["--verbose"] hsettled "--first" "false" none).2 (by decide)⟩

end Consistency.CommandLine
