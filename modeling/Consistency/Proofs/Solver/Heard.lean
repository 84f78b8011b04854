import Consistency.Proofs.Query.Comment
import Consistency.Solver.FiniteDomain
import Consistency.Solver.Request

/-!
# What solvers hear

A solver passes over the lines that start a comment. A comment whose text has no
line break is one such line; of any other, all that follows the first break is
read as commands.
-/

set_option autoImplicit false

namespace Consistency

namespace Text
variable {breaks : Char → Bool} {text text' : String}

structure LineBreaks (breaks : Char → Bool) : Prop where
  feed : breaks '\n' = true
  only : ∀ c, breaks c = true → c = '\n' ∨ c = '\r'

def linesAt (breaks : Char → Bool) (text : String) : List (List Char) :=
  text.toList.splitOnP breaks

def Unbroken (breaks : Char → Bool) (text : String) : Prop := ∀ c ∈ text.toList, breaks c = false

def isComment (line : List Char) : Bool := ";;".toList.isPrefixOf line

def heard (breaks : Char → Bool) (text : String) : List (List Char) :=
  (linesAt breaks text).filter fun line => !isComment line

theorem Unbroken.append (h : Unbroken breaks text) (h' : Unbroken breaks text') :
    Unbroken breaks (text ++ text') := by
  intro c hc
  rw [String.toList_append] at hc
  exact (List.mem_append.1 hc).elim (h c) (h' c)

theorem Unbroken.intercalate {sep : String} (hsep : Unbroken breaks sep) {texts : List String}
    (h : ∀ text ∈ texts, Unbroken breaks text) : Unbroken breaks (sep.intercalate texts) := by
  induction texts with
  | nil => exact fun c hc => absurd hc (by simp)
  | cons text rest ih =>
    rw [List.forall_mem_cons] at h
    cases rest with
    | nil =>
      rw [String.intercalate_singleton]
      exact h.1
    | cons next rest =>
      rw [String.intercalate_cons_cons]
      exact (h.1.append hsep).append (ih h.2)

theorem LineBreaks.unbroken (hb : LineBreaks breaks) (h : '\n' ∉ text.toList)
    (h' : '\r' ∉ text.toList) : Unbroken breaks text := by
  intro c hc
  refine Bool.eq_false_iff.2 fun hbreak => ?_
  rcases hb.only c hbreak with rfl | rfl
  · exact h hc
  · exact h' hc

theorem linesAt_of_unbroken (h : Unbroken breaks text) : linesAt breaks text = [text.toList] :=
  List.splitOnP_eq_singleton h

theorem linesAt_feed (hb : LineBreaks breaks) (text text' : String) :
    linesAt breaks (text ++ "\n" ++ text') = linesAt breaks text ++ linesAt breaks text' := by
  have hlist : (text ++ "\n" ++ text').toList = text.toList ++ '\n' :: text'.toList := by
    simp [String.toList_append]
  rw [linesAt, hlist, List.splitOnP_append_cons _ _ hb.feed]
  rfl

theorem heard_feed (hb : LineBreaks breaks) (text text' : String) :
    heard breaks (text ++ "\n" ++ text') = heard breaks text ++ heard breaks text' := by
  rw [heard, linesAt_feed hb, List.filter_append]
  rfl

theorem length_splitOnP (p : Char → Bool) (cs : List Char) :
    (cs.splitOnP p).length = cs.countP p + 1 := by
  induction cs with
  | nil => simp
  | cons c cs ih =>
    rw [List.splitOnP_cons_eq_if_modifyHead]
    cases hc : p c <;> simp [hc, ih]

theorem length_linesAt (breaks : Char → Bool) (text : String) :
    (linesAt breaks text).length = text.toList.countP breaks + 1 := length_splitOnP _ _

/-- What is put in front of a text comes into its first line. -/
theorem linesAt_append (h : Unbroken breaks text) (text' : String) :
    linesAt breaks (text ++ text') = (linesAt breaks text').modifyHead (text.toList ++ ·) := by
  rw [linesAt, String.toList_append]
  unfold Unbroken at h
  generalize text.toList = cs at h ⊢
  induction cs with
  | nil => cases hlines : linesAt breaks text' <;> exact hlines
  | cons c cs ih =>
    rw [List.forall_mem_cons] at h
    rw [List.cons_append, List.splitOnP_cons_eq_if_modifyHead, if_neg (by simp [h.1]), ih h.2,
      List.modifyHead_modifyHead]
    rfl

theorem splitOnP_append (p : Char → Bool) (cs ds : List Char) :
    (cs.splitOnP p).dropLast <+: (cs ++ ds).splitOnP p := by
  induction cs with
  | nil => simp
  | cons c cs ih =>
    have hne := List.splitOnP_ne_nil p cs
    rw [List.cons_append, List.splitOnP_cons_eq_if_modifyHead, List.splitOnP_cons_eq_if_modifyHead]
    split
    · rw [List.dropLast_cons_of_ne_nil hne]
      exact (List.prefix_cons_inj _).2 ih
    · cases hlines : cs.splitOnP p with
      | nil => exact absurd hlines hne
      | cons line rest =>
        rw [hlines] at ih
        cases rest with
        | nil => exact List.nil_prefix
        | cons next rest =>
          obtain ⟨last, hlast⟩ := ih
          rw [← hlast]
          exact ⟨last, rfl⟩

/-- Lines of a text stay lines when something is put around it, except for the first and the
last one. -/
theorem inner_line {before : String} (h : Unbroken breaks before) (after : String)
    {line : List Char} (hline : line ∈ (linesAt breaks text).tail.dropLast) :
    line ∈ (linesAt breaks (before ++ text ++ after)).tail := by
  rw [← List.tail_dropLast] at hline
  rw [String.append_assoc, linesAt_append h, List.tail_modifyHead, linesAt, String.toList_append]
  obtain ⟨rest, hrest⟩ := splitOnP_append breaks text.toList after.toList
  rw [← hrest]
  unfold linesAt at hline
  cases hlines : (text.toList.splitOnP breaks).dropLast with
  | nil =>
    rw [hlines] at hline
    exact absurd hline (by simp)
  | cons first inner =>
    rw [hlines] at hline
    exact List.mem_append_left rest hline

end Text

open Text

namespace Command
variable {breaks : Char → Bool} {text : String}

theorem linesAt_comment (hb : LineBreaks breaks) (text : String) :
    linesAt breaks (comment text).render =
      (linesAt breaks text).modifyHead (";; ".toList ++ ·) :=
  linesAt_append (hb.unbroken (by decide) (by decide)) text

theorem length_linesAt_comment (hb : LineBreaks breaks) (text : String) :
    (linesAt breaks (comment text).render).length = text.toList.countP breaks + 1 := by
  rw [linesAt_comment hb, List.length_modifyHead, length_linesAt]

/-- Of a comment, all is heard that comes after the first line. -/
theorem heard_comment (hb : LineBreaks breaks) (text : String) :
    heard breaks (comment text).render =
      (linesAt breaks text).tail.filter fun line => !isComment line := by
  rw [heard, linesAt_comment hb]
  cases linesAt breaks text <;> rfl

theorem heard_comment_of_unbroken (hb : LineBreaks breaks) (h : Unbroken breaks text) :
    heard breaks (comment text).render = [] := by
  rw [heard_comment hb, linesAt_of_unbroken h]
  rfl

/-- What is the same for all comments is the same for commands side by side. -/
theorem Beside.congr {P : String → Prop} {c c' : Command} {α : Type} {f : Command → α} {a : α}
    (hf : ∀ text, f (.comment text) = a) (h : Beside P c c') : f c = f c' := by
  cases h with
  | same _ => rfl
  | comments _ _ => rw [hf, hf]

theorem Beside.heard {c c' : Command} (hb : LineBreaks breaks)
    (h : Beside (Unbroken breaks) c c') : heard breaks c.render = heard breaks c'.render := by
  cases h with
  | same _ => rfl
  | comments h h' => rw [heard_comment_of_unbroken hb h, heard_comment_of_unbroken hb h']

end Command

namespace Script
variable {breaks : Char → Bool} {P : String → Prop} {s s' : Script} {c : Command}
  {line : List Char}

def Beside (P : String → Prop) (s s' : Script) : Prop :=
  List.Forall₂ (Command.Beside P) s.commands s'.commands

theorem Beside.map {α : Type} {f : Command → α} (h : s.Beside P s')
    (hf : ∀ c c', Command.Beside P c c' → f c = f c') :
    s.commands.map f = s'.commands.map f := by
  unfold Beside at h
  generalize s.commands = cs, s'.commands = cs' at h ⊢
  induction h with
  | nil => rfl
  | cons hc _ ih => rw [List.map_cons, List.map_cons, hf _ _ hc, ih]

theorem Beside.any {p : Command → Bool} (h : s.Beside P s')
    (hp : ∀ text, p (.comment text) = false) : s.commands.any p = s'.commands.any p := by
  have hmap := h.map (f := p) fun _ _ hc => hc.congr hp
  simpa only [List.any_map, Function.id_comp] using congrArg (List.any · id) hmap

theorem Beside.filterMap {α : Type} {f : Command → Option α} (h : s.Beside P s')
    (hf : ∀ text, f (.comment text) = none) :
    s.commands.filterMap f = s'.commands.filterMap f := by
  have hmap := h.map (f := f) fun _ _ hc => hc.congr hf
  simpa only [List.filterMap_map, Function.id_comp] using congrArg (List.filterMap id) hmap

theorem Beside.assertions (h : s.Beside P s') : s.assertions = s'.assertions :=
  h.filterMap fun _ => rfl

theorem Beside.declared (h : s.Beside P s') : s.declared = s'.declared := h.filterMap fun _ => rfl

theorem forM_map {α : Type} (cs : List α) (f : α → Encode Unit) :
    (cs.map f).forM id = cs.forM f := by
  induction cs with
  | nil => rfl
  | cons c cs ih =>
    show (f c >>= fun _ => (cs.map f).forM id) = f c >>= fun _ => cs.forM f
    rw [ih]

theorem Beside.declares (h : s.Beside P s') :
    s.commands.forM Encode.declareFrom = s'.commands.forM Encode.declareFrom := by
  have hmap := h.map (f := Encode.declareFrom) fun _ _ hc => hc.congr fun _ => rfl
  rw [← forM_map, hmap, forM_map]

/-- The built-in solver does not look at comments. -/
theorem Beside.decide (h : s.Beside P s') : s.decide = s'.decide := by
  funext solve
  have hencoder : Encoder.ofScript s = Encoder.ofScript s' := by
    rw [Encoder.ofScript, Encoder.ofScript, Encode.script, Encode.script, h.declares, h.assertions]
  have hholds : s.holdsUnder = s'.holdsUnder := by
    funext m
    rw [holdsUnder, holdsUnder, h.assertions]
  rw [Script.decide, Script.decide, hencoder, hholds, names, names, h.declared]

/-- Commands are heard one after the other. -/
theorem heard_render (hb : LineBreaks breaks) (c : Command) (cs : List Command) :
    heard breaks (render ⟨c :: cs⟩) = (c :: cs).flatMap fun c => heard breaks c.render := by
  unfold render
  induction cs generalizing c with
  | nil => simp
  | cons d cs ih =>
    simp only [List.map_cons, String.intercalate_cons_cons] at ih ⊢
    rw [heard_feed hb, ih d]
    rfl

theorem Beside.heard_render (hb : LineBreaks breaks) (h : s.Beside (Unbroken breaks) s') :
    heard breaks s.render = heard breaks s'.render := by
  have hmap := h.map (f := fun c => heard breaks c.render) fun _ _ hc => hc.heard hb
  obtain ⟨cs⟩ := s
  obtain ⟨cs'⟩ := s'
  cases h with
  | nil => rfl
  | cons _ _ =>
    rw [Script.heard_render hb, Script.heard_render hb, List.flatMap_def, hmap, List.flatMap_def]

theorem heard_behind (hb : LineBreaks breaks) {text : String} {p : Prop} [Decidable p]
    {x y : String}
    (h : heard breaks x = heard breaks y) :
    heard breaks ((if p then text ++ "\n" else "") ++ x) =
      heard breaks ((if p then text ++ "\n" else "") ++ y) := by
  split
  · rw [heard_feed hb, heard_feed hb, h]
  · rwa [String.empty_append, String.empty_append]

/-- If no comment has a line break, the texts sent to a solver differ in comment lines only. -/
theorem Beside.heard_request (hb : LineBreaks breaks) (h : s.Beside (Unbroken breaks) s') :
    heard breaks s.request = heard breaks s'.request := by
  have hlogic : s.logic = s'.logic := by rw [logic, logic, h.assertions]
  have hmodels := h.any (p := producesModels) fun _ => rfl
  have hchooses := h.any (p := choosesLogic) fun _ => rfl
  have hcheck := h.any (p := (· == .checkSat)) fun _ => rfl
  have hget := h.any (p := (· == .getModel)) fun _ => rfl
  simp only [request, hmodels, hchooses, hcheck, hget, hlogic]
  -- only the commands in the middle may differ
  generalize (if (!s'.commands.any (· == .checkSat)) = true then _ else "") ++ _ = footer
  rw [String.append_assoc, String.append_assoc, String.append_assoc, String.append_assoc,
    String.append_assoc, String.append_assoc]
  refine heard_behind hb (heard_behind hb ?_)
  rw [← String.append_assoc, ← String.append_assoc, heard_feed hb, heard_feed hb,
    h.heard_render hb]

theorem heard_render_of_mem (hb : LineBreaks breaks) (hc : c ∈ s.commands)
    (h : line ∈ heard breaks c.render) : line ∈ heard breaks s.render := by
  obtain ⟨cs⟩ := s
  cases cs with
  | nil => exact absurd hc (by simp)
  | cons d cs =>
    rw [heard_render hb]
    exact List.mem_flatMap.2 ⟨c, hc, h⟩

theorem mem_heard_behind (hb : LineBreaks breaks) {text x : String} {p : Prop} [Decidable p]
    (h : line ∈ heard breaks x) : line ∈ heard breaks ((if p then text ++ "\n" else "") ++ x) := by
  split
  · rw [heard_feed hb]
    exact List.mem_append_right _ h
  · rwa [String.empty_append]

theorem heard_request_of_mem (hb : LineBreaks breaks) (hc : c ∈ s.commands)
    (h : line ∈ heard breaks c.render) : line ∈ heard breaks s.request := by
  unfold request
  simp only []
  generalize (if (!s.commands.any (· == .checkSat)) = true then _ else "") ++ _ = footer
  rw [String.append_assoc, String.append_assoc, String.append_assoc]
  refine mem_heard_behind hb (mem_heard_behind hb ?_)
  rw [← String.append_assoc, heard_feed hb]
  exact List.mem_append_left _ (heard_render_of_mem hb hc h)

end Script
end Consistency
