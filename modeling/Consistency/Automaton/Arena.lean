import Consistency.Ordered.Set
import Consistency.Term.Printer

/-!
# Arenas of locations and edges

The table behind an automaton: numbered locations and numbered edges, whose
labels read and write registers and shared variables. The edges that leave a
location are listed a second time, at the location. A call that fails leaves the
table as it has made it by then.
-/

set_option autoImplicit false

namespace Consistency

inductive Label where
  | skip
  | assume (cond : Term)
  | assign (reg : String) (value : Term)
  | nondet (reg : String) (values : List Int)
  | load (reg var : String)
  | store (var : String) (value : Term)
  deriving DecidableEq, Repr, Inhabited

namespace Label

def render : Label → String
  | .skip => "skip"
  | .assume cond => "assume " ++ cond.render
  | .assign reg value => reg ++ " := " ++ value.render
  | .nondet reg values =>
    reg ++ " := nondet \x7b" ++ ", ".intercalate (values.map toString) ++ "\x7d"
  | .load reg var => reg ++ " := load " ++ var
  | .store var value => "store " ++ var ++ " " ++ value.render

def register? : Label → Option String
  | .assign reg _ | .nondet reg _ | .load reg _ => some reg
  | _ => none

def sharedVar? : Label → Option String
  | .load _ var | .store var _ => some var
  | _ => none

end Label

structure Edge where
  source : Nat
  target : Nat
  label : Label
  deriving DecidableEq, Repr, Inhabited

structure UnknownLocation where
  automaton : String
  location : Nat
  deriving DecidableEq, Repr, Inhabited

def UnknownLocation.message (e : UnknownLocation) : String :=
  "automaton '" ++ e.automaton ++ "' has no location " ++ toString e.location

structure Arena where
  name : String
  /-- For each location the numbers of the edges that leave it. -/
  leaving : List (List Nat)
  edges : List Edge
  initial : Nat
  finals : OrderedSet Nat
  deriving DecidableEq, Repr, Inhabited

namespace Arena

def single (name : String) : Arena := ⟨name, [[]], [], 0, .empty⟩

def locations (a : Arena) : Nat := a.leaving.length

def edge? (a : Arena) (id : Nat) : Option Edge := a.edges[id]?

def outgoing (a : Arena) (location : Nat) : List Nat := a.leaving[location]?.getD []

def isTerminal (a : Arena) (location : Nat) : Bool := (a.outgoing location).isEmpty

/-- Without marked locations, those that no edge leaves are final. -/
def isFinal (a : Arena) (location : Nat) : Bool :=
  if a.finals.isEmpty then a.isTerminal location else a.finals.contains location

def registers (a : Arena) : OrderedSet String :=
  .ofList (a.edges.filterMap fun e => e.label.register?)

def sharedVars (a : Arena) : OrderedSet String :=
  .ofList (a.edges.filterMap fun e => e.label.sharedVar?)

def renderEdge (a : Arena) (e : Edge) (id : Nat) : String :=
  let mark := if a.isFinal e.target then " [final]" else ""
  "  e" ++ toString id ++ ": L" ++ toString e.source ++ " -> L" ++ toString e.target ++ mark ++
    ": " ++ e.label.render ++ "\n"

def render (a : Arena) : String :=
  "process " ++ a.name ++ " (initial L" ++ toString a.initial ++ ")\n" ++
    String.join (a.edges.zipIdx.map fun (e, id) => a.renderEdge e id)

def enlarge (a : Arena) : Arena := { a with leaving := a.leaving ++ [[]] }

def connect (a : Arena) (source target : Nat) (label : Label) : Arena :=
  let made : Arena := { a with edges := a.edges ++ [⟨source, target, label⟩] }
  { made with leaving := made.leaving.modify source (· ++ [a.edges.length]) }

/-- Calls answer, or fail at a location; either leaves a table. -/
abbrev Building := EStateM UnknownLocation Arena

def Building.after {α : Type} (call : Building α) (a : Arena) : Arena :=
  match call.run a with
  | .ok _ b | .error _ b => b

def check (location : Nat) : Building Unit := do
  let a ← get
  if location < a.locations then return () else throw ⟨a.name, location⟩

def addLocation : Building Nat := modifyGet fun a => (a.locations, a.enlarge)

def addEdge (source target : Nat) (label : Label) : Building Nat := do
  check source
  check target
  modifyGet fun a => (a.edges.length, a.connect source target label)

def setInitial (location : Nat) : Building Unit := do
  check location
  modify fun a => { a with initial := location }

def markFinal (location : Nat) : Building Unit := do
  check location
  modify fun a => { a with finals := a.finals.insert location }

def prolong (a : Arena) (source : Nat) (label : Label) : Arena :=
  let larger := a.enlarge
  let leaving := larger.leaving.modify source (· ++ [a.edges.length])
  let listed : Arena := { larger with leaving := leaving }
  { listed with edges := listed.edges ++ [⟨source, a.locations, label⟩] }

def chain (a : Arena) (source : Nat) : List Label → Arena
  | [] => { a with finals := a.finals.insert source }
  | label :: labels => chain (a.prolong source label) a.locations labels

def straightLine (name : String) (labels : List Label) : Arena := chain (single name) 0 labels

def edgesFrom (edges : List Edge) (location : Nat) : List Nat :=
  (edges.zipIdx.filter fun e => e.1.source == location).map Prod.snd

def Indexed (a : Arena) : Prop := ∀ l, a.outgoing l = edgesFrom a.edges l

theorem edgesFrom_append (es : List Edge) (e : Edge) (l : Nat) :
    edgesFrom (es ++ [e]) l = edgesFrom es l ++ if e.source = l then [es.length] else [] := by
  rw [edgesFrom, List.zipIdx_append, List.filter_append, List.map_append, edgesFrom]
  by_cases h : e.source = l <;> simp [h]

theorem single_indexed (name : String) : (single name).Indexed := by
  rintro (_ | l) <;> rfl

variable {a : Arena} {source target : Nat} {label : Label}

theorem locations_enlarge (a : Arena) : a.enlarge.locations = a.locations + 1 := by
  simp [enlarge, locations]

theorem outgoing_enlarge (a : Arena) (l : Nat) : a.enlarge.outgoing l = a.outgoing l := by
  rw [outgoing, outgoing, enlarge]
  rcases Nat.lt_trichotomy l a.leaving.length with h | rfl | h
  · rw [List.getElem?_append_left h]
  · simp
  · rw [List.getElem?_eq_none (by simpa using Nat.succ_le_of_lt h),
      List.getElem?_eq_none (Nat.le_of_lt h)]

theorem locations_connect (a : Arena) (source target : Nat) (label : Label) :
    (a.connect source target label).locations = a.locations :=
  List.length_modify _ _ _

/-- A new edge is listed at its source. -/
theorem outgoing_connect (hs : source < a.locations) (target : Nat) (label : Label) (l : Nat) :
    (a.connect source target label).outgoing l =
      a.outgoing l ++ if source = l then [a.edges.length] else [] := by
  rw [outgoing, outgoing, connect, List.getElem?_modify]
  by_cases hl : source = l
  · subst hl
    have hlt : source < a.leaving.length := hs
    simp [List.getElem?_eq_getElem hlt]
  · simp [hl]

theorem Indexed.enlarge (h : a.Indexed) : a.enlarge.Indexed :=
  fun l => (outgoing_enlarge a l).trans (h l)

theorem Indexed.connect (h : a.Indexed) (hs : source < a.locations) (target : Nat) (label : Label) :
    (a.connect source target label).Indexed := by
  intro l
  rw [outgoing_connect hs, h l]
  exact (edgesFrom_append a.edges ⟨source, target, label⟩ l).symm

/-- In whichever order an edge is listed and made. -/
theorem prolong_eq (a : Arena) (source : Nat) (label : Label) :
    a.prolong source label = a.enlarge.connect source a.locations label := rfl

theorem Indexed.chain (h : a.Indexed) (hs : source < a.locations) (labels : List Label) :
    (a.chain source labels).Indexed := by
  induction labels generalizing a source with
  | nil => exact h
  | cons label labels ih =>
    rw [Arena.chain, prolong_eq]
    have hlt : source < a.enlarge.locations := by
      rw [locations_enlarge]
      exact Nat.lt_succ_of_lt hs
    refine ih (h.enlarge.connect hlt a.locations label) ?_
    rw [locations_connect, locations_enlarge]
    exact Nat.lt_succ_self _

theorem straightLine_indexed (name : String) (labels : List Label) :
    (straightLine name labels).Indexed :=
  (single_indexed name).chain Nat.zero_lt_one labels

section Calls
variable {α : Type}

theorem run_check (location : Nat) (a : Arena) : (check location).run a =
    if location < a.locations then .ok () a else .error ⟨a.name, location⟩ a := by
  unfold check
  by_cases h : location < a.locations <;> simp [h]

/-- A call goes no further than a check that fails. -/
theorem run_check_bind (location : Nat) (rest : Building α) (a : Arena) :
    (check location >>= fun _ => rest).run a =
      if location < a.locations then rest.run a else .error ⟨a.name, location⟩ a := by
  rw [EStateM.run_bind, run_check]
  by_cases h : location < a.locations <;> simp [h]

theorem after_check (location : Nat) (rest : Building α) (a : Arena) :
    Building.after (check location >>= fun _ => rest) a =
      if location < a.locations then rest.after a else a := by
  unfold Building.after
  rw [run_check_bind]
  by_cases h : location < a.locations <;> simp [h]

theorem run_addEdge (hs : source < a.locations) (ht : target < a.locations) (label : Label) :
    (addEdge source target label).run a = .ok a.edges.length (a.connect source target label) := by
  rw [addEdge, run_check_bind, if_pos hs, run_check_bind, if_pos ht]
  rfl

def Building.Keeps (call : Building α) : Prop := ∀ a : Arena, a.Indexed → (call.after a).Indexed

theorem addEdge_keeps (source target : Nat) (label : Label) :
    (addEdge source target label).Keeps := by
  intro a h
  rw [addEdge, after_check, after_check]
  split
  · next hs =>
    split
    · exact h.connect hs target label
    · exact h
  · exact h

theorem setInitial_keeps (location : Nat) : (setInitial location).Keeps := by
  intro a h
  rw [setInitial, after_check]
  split <;> exact h

theorem markFinal_keeps (location : Nat) : (markFinal location).Keeps := by
  intro a h
  rw [markFinal, after_check]
  split <;> exact h

end Calls
end Arena
end Consistency
