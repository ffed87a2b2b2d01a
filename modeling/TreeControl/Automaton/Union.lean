import TreeControl.Automaton.Basic

/-! # Joining automata

Two automata are joined by adding to the first what the second has, call by call, with its states
found by their names, and by letting the start state of the first silently go to that of the second.
A call that fails ends this and leaves what was added before. -/

namespace TreeControl.Automaton

/-- A call that adds something to an automaton. -/
inductive Addition where
  | symbol (s : Symbol)
  | state (name : String)
  | accepting (name : String)
  | edge (source : String) (s : Symbol) (target : String)
  deriving DecidableEq, Repr

/-- Adds something to an automaton. -/
def add (A : Automaton) : Addition → Except Error Automaton
  | .symbol s => .ok (A.addSymbol s)
  | .state name => .ok (A.addState name)
  | .accepting name => A.setAccepting name
  | .edge source s target => A.addEdge source s target

/-- Makes calls one after the other until one fails.  The automaton that comes with the answer has
everything that was added before. -/
def addAll (A : Automaton) : List Addition → Except Error Unit × Automaton
  | [] => (.ok (), A)
  | c :: cs =>
    match A.add c with
    | .ok B => B.addAll cs
    | .error e => (.error e, A)

/-- The calls that add a state with a name and a number, and make it accepting if it is. -/
def stateAdditions (B : Automaton) (state : String × Nat) : List Addition :=
  .state state.1 :: if state.2 ∈ B.accepting then [.accepting state.1] else []

/-- The call that adds a transition between states of the same names. -/
def edgeAddition (B : Automaton) (e : Edge) : Addition :=
  .edge (B.label e.source) e.label (B.label e.target)

/-- The calls that add everything of an automaton but its start state. -/
def additions (B : Automaton) : List Addition :=
  B.alphabet.toList.map .symbol ++ B.names.zipIdx.flatMap B.stateAdditions ++
    B.edges.toList.map B.edgeAddition

/-- Joins an automaton to another one, both of which need a start state, and gives the first as it
is afterwards. -/
def joinInto (A B : Automaton) : Except Error Unit × Automaton :=
  match A.start, B.start with
  | some p, some q => A.addAll (B.additions ++ [.edge (A.label p) .blank (B.label q)])
  | _, _ => (.error .missingStart, A)

/-- The two automata as one, if they can be joined. -/
def join (A B : Automaton) : Except Error Automaton :=
  match A.joinInto B with
  | (.ok _, C) => .ok C
  | (.error e, _) => .error e

end TreeControl.Automaton
