import TreeControl.Automaton.Preparation

/-! # Positions in a run

While a tree grows from its leaves, a part of a level may be read before anything to the left of
it.  A position says what is known about the state of the automaton: the state itself, nothing, or
a set of candidates. -/

namespace TreeControl

/-- What is known about the state of a run. -/
inductive Position where
  /-- The run is in this state. -/
  | known (id : Nat)
  /-- Nothing is known about what was read before. -/
  | unknown
  /-- The run is in one of these states. -/
  | among (ids : OrdSet Nat)
  deriving DecidableEq

/-- The position of a set of candidates: a single one is known. -/
def Position.ofSet (ids : OrdSet Nat) : Position :=
  match ids.toList with
  | [id] => .known id
  | _ => .among ids

namespace Automaton

/-- The one state that a state leads to on a symbol; none if there is no such state or more than
one. -/
def advance? (A : Automaton) (s : Symbol) (id : Nat) : Option Nat :=
  match (A.targets id s).toList with
  | [q] => some q
  | _ => none

/-- How a position is called when a symbol cannot be read there. -/
def placeText (A : Automaton) : Position → String
  | .known id =>
    match A.stateName? id with
    | some name => s!"state '{name}'"
    | none => s!"unknown state #{id}"
  | .unknown => "an unknown state"
  | .among ids => "states \x7b" ++ A.setName ids ++ "\x7d"

/-- Why a symbol cannot be read at a position. -/
def rejection (A : Automaton) (s : Symbol) (p : Position) : Error :=
  if s ∈ A.alphabet then .noTransition (A.placeText p) s else .unknownSymbol s

/-- Reads one symbol. -/
def step (A : Automaton) (s : Symbol) (p : Position) : Except Error Position :=
  match p with
  | .known id =>
    match A.advance? s id with
    | some q => .ok (.known q)
    | none => .error (A.rejection s p)
  | .unknown =>
    match A.arrivals with
    | none => .error .notPrepared
    | some arrivals =>
      let next := (arrivals.get? s).getD ∅
      if next.isEmpty then .error (A.rejection s p) else .ok (.ofSet next)
  | .among ids =>
    let next := .ofList (ids.toList.filterMap (A.advance? s))
    if next.isEmpty then .error (A.rejection s p) else .ok (.ofSet next)

/-- Reads a word symbol by symbol. -/
def walk (A : Automaton) (word : List Symbol) (p : Position) : Except Error Position :=
  word.foldlM (fun p s => A.step s p) p

/-- Whether a run at this position may be in an accepting state. -/
def isAccepting (A : Automaton) : Position → Bool
  | .known id => id ∈ A.accepting
  | .unknown => false
  | .among ids => ids.toList.any (· ∈ A.accepting)

/-- Reads a word from a state and tells whether it ends in an accepting state.  A missing transition
is a refusal, a symbol outside the alphabet an error. -/
def acceptsFrom (A : Automaton) : List Symbol → Nat → Except Error Bool
  | [], id => .ok (id ∈ A.accepting)
  | s :: ss, id =>
    match A.advance? s id with
    | some q => A.acceptsFrom ss q
    | none => if s ∈ A.alphabet then .ok false else .error (.unknownSymbol s)

/-- Reads a word from the start state. -/
def accepts (A : Automaton) (word : List Symbol) : Except Error Bool :=
  match A.start with
  | none => .error .missingStart
  | some id => A.acceptsFrom word id

end Automaton

end TreeControl
