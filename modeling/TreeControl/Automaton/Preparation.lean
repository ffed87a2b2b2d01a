import TreeControl.Automaton.Basic
import TreeControl.Order.Sorting
import TreeControl.Search
import TreeControl.Trace.Traced

/-! # Preparing an automaton

Before an automaton can be stepped through it is prepared, in three parts that can also be used
alone:

* `dropEpsilon` removes the moves that read nothing; every state takes over the other transitions
  of the states it could silently go to, and accepts if one of them does;
* `determinize` is the subset construction on the subsets reachable from the start state, numbered
  in the order of a breadth-first search that takes the symbols in order;
* `collectArrivals` notes for every symbol of the alphabet where its transitions lead. -/

namespace TreeControl.Automaton

/-! ### Moves that read nothing -/

/-- The states that a state can go to without reading, itself included.  The search finds a state
other than the first only at the end of a transition, which bounds it. -/
def closure (A : Automaton) (id : Nat) : OrdSet Nat :=
  .ofList (explore (fun p => (A.targets p .blank).toList) (A.edges.size + 1) [] [id])

/-- The transitions that a state has after its silent moves are removed. -/
def edgesThrough (A : Automaton) (id : Nat) : List Edge :=
  let reach := A.closure id
  (A.edges.toList.filter fun e => !e.isEpsilon && e.source ∈ reach).map
    ({ · with source := id })

/-- Removes the moves that read nothing and keeps the language. -/
def dropEpsilon (A : Automaton) : Traced Automaton := do
  let states := List.range A.size
  Traced.emit (.droppedEpsilon A.size)
  return { A with
    edges := .ofList (states.flatMap A.edgesThrough)
    accepting := .ofList (states.filter fun p => (A.closure p).toList.any (· ∈ A.accepting))
    arrivals := none }

/-! ### Subset construction -/

/-- The symbols on the transitions that leave a set of states. -/
def labelsFromSet (A : Automaton) (set : OrdSet Nat) : OrdSet Symbol :=
  (A.edges.filter fun e => e.source ∈ set).map Edge.label

/-- The states that a set of states leads to on a symbol. -/
def image (A : Automaton) (set : OrdSet Nat) (s : Symbol) : OrdSet Nat :=
  (A.edges.filter fun e => e.label = s && e.source ∈ set).map Edge.target

@[simp] theorem mem_labelsFromSet {A : Automaton} {set : OrdSet Nat} {s : Symbol} :
    s ∈ A.labelsFromSet set ↔ ∃ p ∈ set, ∃ q, ⟨p, s, q⟩ ∈ A.edges := by
  rw [labelsFromSet, OrdSet.mem_map]
  constructor
  · rintro ⟨e, mem, rfl⟩
    obtain ⟨he, h⟩ := OrdSet.mem_filter.1 mem
    exact ⟨e.source, of_decide_eq_true h, e.target, he⟩
  · rintro ⟨p, hp, q, he⟩
    exact ⟨_, OrdSet.mem_filter.2 ⟨he, decide_eq_true hp⟩, rfl⟩

@[simp] theorem mem_image {A : Automaton} {set : OrdSet Nat} {s : Symbol} {q : Nat} :
    q ∈ A.image set s ↔ ∃ p ∈ set, ⟨p, s, q⟩ ∈ A.edges := by
  rw [image, OrdSet.mem_map]
  constructor
  · rintro ⟨e, mem, rfl⟩
    obtain ⟨he, h⟩ := OrdSet.mem_filter.1 mem
    simp only [Bool.and_eq_true, decide_eq_true_eq] at h
    obtain ⟨rfl, hp⟩ := h
    exact ⟨e.source, hp, he⟩
  · rintro ⟨p, hp, he⟩
    exact ⟨_, OrdSet.mem_filter.2 ⟨he, by simp [hp]⟩, rfl⟩

/-- The sets that a set of states leads to, in the order of the symbols. -/
def successors (A : Automaton) (set : OrdSet Nat) : List (OrdSet Nat) :=
  (A.labelsFromSet set).toList.map (A.image set)

/-- The reachable sets of states, the start state alone first.  Every other one is a set of ends
of transitions, which bounds the search. -/
def subsets (A : Automaton) (start : Nat) : List (OrdSet Nat) :=
  explore A.successors (Nat.pow 2 A.edges.size + 1) [] [.singleton start]

/-- The names of the states of a set in ascending order, joined by underscores. -/
def setName (A : Automaton) (set : OrdSet Nat) : String :=
  "_".intercalate (sortTexts (set.toList.map A.label))

/-- Names for sets of states, each primed until no set before it has that name. -/
def nameSets (A : Automaton) (sets : List (OrdSet Nat)) : List String :=
  sets.foldl (fun taken set => taken ++ [unusedName '\'' taken (A.setName set)]) []

/-- The transitions between the sets of a list. -/
def subsetEdges (A : Automaton) (sets : List (OrdSet Nat)) : List Edge :=
  sets.zipIdx.flatMap fun (set, i) =>
    (A.labelsFromSet set).toList.map fun s => ⟨i, s, sets.idxOf (A.image set s)⟩

/-- The first state with a move that reads nothing. -/
def firstEpsilon? (A : Automaton) : Option Nat := (A.edges.toList.find? Edge.isEpsilon).map Edge.source

/-- The deterministic automaton whose states are the reachable sets of states. -/
def powerset (A : Automaton) (start : Nat) : Automaton :=
  let sets := A.subsets start
  { A with
    names := A.nameSets sets
    edges := .ofList (A.subsetEdges sets)
    start := some 0
    accepting := .ofList ((List.range sets.length).filter fun i =>
      (sets[i]?.getD ∅).toList.any (· ∈ A.accepting))
    arrivals := none }

/-- Makes an automaton deterministic.  It needs a start state and must not have moves that read
nothing. -/
def determinize (A : Automaton) : Attempt Error Automaton :=
  match A.start with
  | none => throw .missingStart
  | some start =>
    match A.firstEpsilon? with
    | some id => throw (.epsilonTransitions (A.label id))
    | none => do
      let D := A.powerset start
      Attempt.emit (.determinized A.size D.size)
      return D

/-! ### Arrivals -/

/-- The states that some transition on a symbol leads to. -/
def arrivalsOf (A : Automaton) (s : Symbol) : OrdSet Nat :=
  (A.edges.filter (·.label = s)).map Edge.target

@[simp] theorem mem_arrivalsOf {A : Automaton} {s : Symbol} {q : Nat} :
    q ∈ A.arrivalsOf s ↔ ∃ p, ⟨p, s, q⟩ ∈ A.edges := by
  rw [arrivalsOf, OrdSet.mem_map]
  constructor
  · rintro ⟨e, mem, rfl⟩
    obtain ⟨he, h⟩ := OrdSet.mem_filter.1 mem
    obtain rfl := of_decide_eq_true h
    exact ⟨e.source, he⟩
  · rintro ⟨p, he⟩
    exact ⟨_, OrdSet.mem_filter.2 ⟨he, by simp⟩, rfl⟩

/-- Notes for every symbol of the alphabet where its transitions lead. -/
def collectArrivals (A : Automaton) : Automaton :=
  { A with arrivals := some (.ofKeys A.alphabet A.arrivalsOf) }

/-! ### All together -/

/-- Prepares an automaton. -/
def prepare (A : Automaton) : Attempt Error Automaton := do
  let B ← ExceptT.lift A.dropEpsilon
  let D ← B.determinize
  return D.collectArrivals

/-- The automaton after an attempt to prepare it: one that cannot be made deterministic has still
lost the moves that read nothing. -/
def afterPrepare (A : Automaton) : Automaton :=
  match A.prepare.outcome with
  | .ok D => D
  | .error _ => A.dropEpsilon.value

end TreeControl.Automaton
