import Consistency.Proofs.Check.Witness
import Consistency.Proofs.Query.Asserted
import Consistency.Proofs.Query.Comment
import Consistency.Proofs.Solver.Heard

/-!
# Names in queries

The names of threads, of the model and of its axioms come into the comments of a
query and nowhere else, so that they make no difference to the built-in solver. A
solver that is sent the text does not hear them either as long as no name breaks
a line; where the name of the model does, its inner lines are heard as commands.
-/

set_option autoImplicit false

namespace Consistency
open Query Text

namespace Check
variable {breaks : Char → Bool} {automata automata' : List Automaton} {m m' : MemoryModel}
  {g : EventGraph} {o : Outcome} {p : Precision} {s : GlobalState} {initial : List (String × Int)}
  {script : Script}

structure NamesUnbroken (breaks : Char → Bool) (threads : List String) (m : MemoryModel) :
    Prop where
  threads : ∀ name ∈ threads, Unbroken breaks name
  model : Unbroken breaks m.name
  axioms : ∀ a ∈ m.axioms, Unbroken breaks a.name

structure RestUnbroken (breaks : Char → Bool) (g : EventGraph) (o : Outcome) : Prop where
  events : ∀ e ∈ g.events, Unbroken breaks e.label
  outcome : Unbroken breaks o.render

theorem unbroken_render (hb : LineBreaks breaks)
    (hthreads : ∀ name ∈ g.threadNames, Unbroken breaks name)
    (hevents : ∀ e ∈ g.events, Unbroken breaks e.label) : Unbroken breaks g.render := by
  have howner : ∀ own, Unbroken breaks (g.ownerName own) := by
    intro own
    cases own with
    | init => exact (hb.unbroken (by decide) (by decide) : Unbroken breaks "init")
    | thread id =>
      cases hname : g.threadNames[id]? with
      | none =>
        rw [EventGraph.ownerName, hname]
        exact hb.unbroken (by decide) (by decide)
      | some name =>
        rw [EventGraph.ownerName, hname]
        exact hthreads name (List.mem_of_getElem? hname)
  refine Unbroken.intercalate (hb.unbroken (by decide) (by decide)) fun part hpart => ?_
  obtain ⟨own, -, rfl⟩ := List.mem_map.1 hpart
  refine ((howner own).append (hb.unbroken (by decide) (by decide))).append
    (Unbroken.intercalate (hb.unbroken (by decide) (by decide)) fun label hlabel => ?_)
  obtain ⟨e, he, rfl⟩ := List.mem_map.1 hlabel
  exact hevents e (Array.mem_toList_iff.1 (List.mem_of_mem_filter he))

theorem unbroken_titles (hb : LineBreaks breaks) (hnames : NamesUnbroken breaks g.threadNames m)
    (hrest : RestUnbroken breaks g o) : ∀ title ∈ titles g m o, Unbroken breaks title := by
  have hheadings : ∀ title ∈ headings, Unbroken breaks title := fun title h => by
    simp only [headings, List.mem_cons, List.not_mem_nil, or_false] at h
    rcases h with rfl | rfl | rfl | rfl | rfl <;> exact hb.unbroken (by decide) (by decide)
  intro title h
  simp only [titles, List.cons_append, List.mem_cons, List.mem_append, List.mem_map] at h
  rcases h with rfl | rfl | h | ⟨a, ha, rfl⟩
  · exact (((hb.unbroken (by decide) (by decide)).append hnames.model).append
      (hb.unbroken (by decide) (by decide))).append
        (unbroken_render hb hnames.threads hrest.events)
  · exact Unbroken.append (hb.unbroken (by decide) (by decide)) hrest.outcome
  · exact hheadings title h
  · exact Unbroken.append (hb.unbroken (by decide) (by decide)) (hnames.axioms a ha)

/-- Inner lines of the model's name are heard as commands. -/
theorem heard_of_model (hb : LineBreaks breaks) (h : encode g m o = .ok script)
    {line : List Char} (hline : line ∈ (linesAt breaks m.name).tail.dropLast)
    (hcommand : isComment line = false) : line ∈ heard breaks script.request := by
  obtain ⟨rest, hcommands⟩ := begins_of_encode h
  have hmem : .comment ("model " ++ m.name ++ ": " ++ g.render) ∈ script.commands := by
    simp [hcommands]
  refine Script.heard_request_of_mem hb hmem ?_
  have htext : "model " ++ m.name ++ ": " ++ g.render =
      "model " ++ m.name ++ (": " ++ g.render) := String.append_assoc
  rw [Command.heard_comment hb, htext]
  exact List.mem_filter.2 ⟨inner_line (hb.unbroken (by decide) (by decide)) _ hline,
    by simp [hcommand]⟩

/-- The query of a graph, and what becomes of it when threads, the model and its axioms have other
names. -/
structure NamesConfined (g g' : EventGraph) (m m' : MemoryModel) (o : Outcome)
    (script script' : Script) : Prop where
  /-- Names make a difference to comments only. -/
  commands : script.Beside (fun _ => True) script'
  /-- They make none to the built-in solver, whatever procedure for clauses it calls. -/
  answer : script.decide = script'.decide
  /-- In the text for other solvers, the lines that are not comments are the same. -/
  text : ∀ breaks, LineBreaks breaks → RestUnbroken breaks g o →
    NamesUnbroken breaks g.threadNames m → NamesUnbroken breaks g'.threadNames m' →
      heard breaks script.request = heard breaks script'.request
  /-- A comment is one line. -/
  line : ∀ breaks, LineBreaks breaks → RestUnbroken breaks g o →
    NamesUnbroken breaks g.threadNames m → ∀ title, .comment title ∈ script.commands →
      linesAt breaks (Command.comment title).render = [(Command.comment title).render.toList]
  /-- Where the name of the model has more than two lines, those in between are heard. -/
  leak : ∀ breaks, LineBreaks breaks → ∀ line ∈ (linesAt breaks m.name).tail.dropLast,
    isComment line = false → line ∈ heard breaks script.request

theorem line_of_unbroken (hb : LineBreaks breaks) (hnames : NamesUnbroken breaks g.threadNames m)
    (hrest : RestUnbroken breaks g o) (h : encode g m o = .ok script) {title : String}
    (htitle : .comment title ∈ script.commands) :
    linesAt breaks (Command.comment title).render = [(Command.comment title).render.toList] := by
  have htitles := unbroken_titles hb hnames hrest
  have hsame : m.Alike m := ⟨rfl, List.forall₂_same.2 fun _ _ => ⟨rfl, rfl⟩⟩
  obtain ⟨script', -, hbeside⟩ := encode_beside g.threadNames hsame htitles htitles h
  obtain ⟨c, -, hc⟩ := forall₂_mem_left hbeside htitle
  cases hc with
  | same hne => exact absurd rfl (hne title)
  | comments hline _ =>
    exact linesAt_of_unbroken (Unbroken.append (hb.unbroken (by decide) (by decide)) hline)

theorem namesConfined_of_alike {names : List String} (hm : m.Alike m')
    (h : encode g m o = .ok script) : ∃ script', encode (g.named names) m' o = .ok script' ∧
      NamesConfined g (g.named names) m m' o script script' := by
  obtain ⟨script', hscript', hbeside⟩ := encode_beside (P := fun _ => True) names hm
    (fun _ _ => trivial) (fun _ _ => trivial) h
  refine ⟨script', hscript', hbeside, Script.Beside.decide hbeside, ?_, ?_, ?_⟩
  · intro breaks hb hrest hnames hnames'
    obtain ⟨script'', hscript'', hlines⟩ := encode_beside names hm
      (unbroken_titles hb hnames hrest) (unbroken_titles hb hnames' ⟨hrest.events, hrest.outcome⟩) h
    obtain rfl := Except.ok.inj (hscript'.symm.trans hscript'')
    exact Script.Beside.heard_request hb hlines
  · exact fun breaks hb hrest hnames title htitle => line_of_unbroken hb hnames hrest h htitle
  · exact fun breaks hb line hline hcommand => heard_of_model hb h hline hcommand

/-- If programs differ in the names of their threads and models in their own and their axioms', they
reach the same states, and for each the queries differ in comments only. No other solver is told of
the names either, as long as none breaks a line. -/
theorem names_confined (automata automata' : List Automaton) (initial : List (String × Int))
    (p : Precision) (h : automata.map Automaton.anonymous = automata'.map Automaton.anonymous)
    (s : GlobalState) (hs : (Composition.ofAutomata automata initial).Reachable p s)
    (m m' : MemoryModel) (hm : m.Alike m') (o : Outcome) (script : Script)
    (hscript : encode (.ofState (.ofAutomata automata initial) s) m o = .ok script) :
    (Composition.ofAutomata automata' initial).Reachable p s ∧
      ∃ script', encode (.ofState (.ofAutomata automata' initial) s) m' o = .ok script' ∧
        NamesConfined (.ofState (.ofAutomata automata initial) s)
          (.ofState (.ofAutomata automata' initial) s) m m' o script script' := by
  refine ⟨Composition.reachable_of_anonymous h hs, ?_⟩
  rw [EventGraph.ofState_named (.ofAutomata automata initial) (.ofAutomata automata' initial)]
  exact namesConfined_of_alike hm hscript

def storingAs (name : String) : List Automaton := [.straightLine name [.store "x" (.int 1)]]

def storingStart : GlobalState := ((Composition.ofAutomata (storingAs "P") []).init 0).1

def storingGraph (name : String) : EventGraph :=
  .ofState (.ofAutomata (storingAs name) []) storingStart

theorem names_confined_storing : ∃ script script',
    encode (storingGraph "P") ⟨"m", [], []⟩ ⟨[]⟩ = .ok script ∧
    encode (storingGraph "Q") ⟨"n", [], []⟩ ⟨[]⟩ = .ok script' ∧
    NamesConfined (storingGraph "P") (storingGraph "Q") ⟨"m", [], []⟩ ⟨"n", [], []⟩ ⟨[]⟩
      script script' := by
  have hs := Composition.Reachable.init (c := .ofAutomata (storingAs "P") [])
    (p := ⟨.empty, none⟩) 0
  obtain ⟨script, hscript⟩ := exists_script (m := ⟨"m", [], []⟩) rfl (storingGraph "P") ⟨[]⟩
  obtain ⟨-, script', hscript', hconfined⟩ := names_confined (storingAs "P") (storingAs "Q") []
    ⟨.empty, none⟩ rfl storingStart hs ⟨"m", [], []⟩ ⟨"n", [], []⟩ ⟨rfl, .nil⟩ ⟨[]⟩ script hscript
  exact ⟨script, script', hscript, hscript', hconfined⟩

end Check
end Consistency
