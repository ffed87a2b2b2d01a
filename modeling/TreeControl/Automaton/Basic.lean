import TreeControl.Automaton.Edge

/-! # Finite automata

A finite automaton has named states, numbered in the order in which they were added, an alphabet,
a set of transitions, possibly a start state, and accepting states.  Several transitions may leave
a state on one symbol, and transitions on the blank symbol read nothing.

An automaton can also carry its `arrivals`: for every symbol of the alphabet, the states that some
transition on it leads to.  They answer where a run may be after a symbol if nothing is known about
where it was before.  A change of states, alphabet or transitions discards them. -/

namespace TreeControl

/-- A finite automaton. -/
structure Automaton where
  /-- The names of the states; a state's number is its index. -/
  names : List String := []
  alphabet : OrdSet Symbol := ∅
  edges : OrdSet Edge := ∅
  start : Option Nat := none
  accepting : OrdSet Nat := ∅
  /-- For every symbol the states it leads to, if they were collected. -/
  arrivals : Option (OrdMap Symbol (OrdSet Nat)) := none
  deriving DecidableEq

namespace Automaton

instance : Inhabited Automaton := ⟨{}⟩

/-- Why building or running an automaton fails. -/
inductive Error where
  /-- No state has this name. -/
  | undefinedState (name : String)
  /-- A transition is labelled with a symbol outside the alphabet. -/
  | undefinedSymbol (symbol : Symbol)
  /-- There is a start state already. -/
  | duplicateStart (name : String)
  /-- There is no start state. -/
  | missingStart
  /-- A state has moves that read nothing. -/
  | epsilonTransitions (name : String)
  /-- The symbol cannot be read at this place. -/
  | noTransition (place : String) (symbol : Symbol)
  /-- The symbol is not in the alphabet. -/
  | unknownSymbol (symbol : Symbol)
  /-- The arrivals were not collected. -/
  | notPrepared
  deriving DecidableEq, Repr

/-- The wording of an error. -/
def Error.message : Error → String
  | undefinedState n => s!"undefined state '{n}'"
  | undefinedSymbol s => s!"undefined symbol '{s.name}'"
  | duplicateStart n => s!"start state is already set to '{n}'"
  | missingStart => "automaton has no start state"
  | epsilonTransitions n => s!"state '{n}' still has epsilon transitions"
  | noTransition place s => s!"no transition from {place} on '{s.name}'"
  | unknownSymbol s => s!"symbol '{s.name}' is not in the automaton alphabet"
  | notPrepared => "automaton was not prepared (call prepare or generate_dict)"

/-! ### Reading -/

/-- The number of states. -/
def size (A : Automaton) : Nat := A.names.length

/-- The number of the state with a name. -/
def stateId? (A : Automaton) (name : String) : Option Nat := A.names.idxOf? name

/-- The name of the state with a number. -/
def stateName? (A : Automaton) (id : Nat) : Option String := A.names[id]?

/-- The name of a state, or its number behind a hash sign if there is no such state. -/
def label (A : Automaton) (id : Nat) : String := (A.stateName? id).getD s!"#{id}"

/-- The states that a state leads to on a symbol. -/
def targets (A : Automaton) (id : Nat) (s : Symbol) : OrdSet Nat :=
  (A.edges.filter fun e => e.source = id && e.label = s).map Edge.target

@[simp] theorem mem_targets {A : Automaton} {p q : Nat} {s : Symbol} :
    q ∈ A.targets p s ↔ ⟨p, s, q⟩ ∈ A.edges := by
  rw [targets, OrdSet.mem_map]
  constructor
  · rintro ⟨e, mem, rfl⟩
    obtain ⟨he, h⟩ := OrdSet.mem_filter.1 mem
    simp only [Bool.and_eq_true, decide_eq_true_eq] at h
    obtain ⟨rfl, rfl⟩ := h
    exact he
  · intro h
    exact ⟨_, OrdSet.mem_filter.2 ⟨h, by simp⟩, rfl⟩

/-- The symbols on the transitions that leave a state. -/
def labelsFrom (A : Automaton) (id : Nat) : OrdSet Symbol :=
  (A.edges.filter fun e => e.source = id).map Edge.label

/-- Whether some move reads nothing. -/
def hasEpsilon (A : Automaton) : Bool := A.edges.toList.any Edge.isEpsilon

/-- Whether every move reads a symbol and no state has two transitions on one symbol. -/
def isDeterministic (A : Automaton) : Bool :=
  A.edges.toList.all fun e => !e.isEpsilon && (A.targets e.source e.label).size ≤ 1

/-! ### Building -/

/-- Adds a state, unless there is one of that name. -/
def addState (A : Automaton) (name : String) : Automaton :=
  if name ∈ A.names then A else { A with names := A.names ++ [name], arrivals := none }

/-- Adds a symbol to the alphabet. -/
def addSymbol (A : Automaton) (s : Symbol) : Automaton :=
  { A with alphabet := A.alphabet.insert s, arrivals := none }

/-- The number of a state that has to exist. -/
def findState (A : Automaton) (name : String) : Except Error Nat :=
  match A.stateId? name with
  | some id => .ok id
  | none => .error (.undefinedState name)

/-- Adds a transition between named states.  Its symbol is in the alphabet or blank. -/
def addEdge (A : Automaton) (source : String) (s : Symbol) (target : String) :
    Except Error Automaton := do
  let p ← A.findState source
  let q ← A.findState target
  if s.isBlank || s ∈ A.alphabet then
    return { A with edges := A.edges.insert ⟨p, s, q⟩, arrivals := none }
  else
    throw (.undefinedSymbol s)

/-- Chooses the start state, once and for all. -/
def setStart (A : Automaton) (name : String) : Except Error Automaton :=
  match A.start with
  | some id => .error (.duplicateStart (A.label id))
  | none => do return { A with start := some (← A.findState name) }

/-- Makes a state accepting. -/
def setAccepting (A : Automaton) (name : String) : Except Error Automaton := do
  let id ← A.findState name
  return { A with accepting := A.accepting.insert id }

end Automaton

end TreeControl
