import TreeControl.Automaton.Basic
import TreeControl.Order.Sorting

/-! # Automata as text

The listing of an automaton: states, alphabet, transitions, start state and accepting states, with
states in the order of their names and a quote inside a symbol written twice. -/

namespace TreeControl.Automaton

/-- A symbol in quotes, quotes inside it doubled. -/
def quoteSymbol (s : Symbol) : String :=
  "'" ++ String.ofList (s.name.toList.flatMap fun c => if c = '\'' then [c, c] else [c]) ++ "'"

/-- Texts in braces, separated by commas. -/
def braced (parts : List String) : String := "\x7b" ++ ", ".intercalate parts ++ "\x7d"

/-- The states in the order of their names. -/
def statesByName (A : Automaton) : List Nat :=
  (sortTexts A.names).filterMap A.stateId?

/-- The transitions that leave a state, one to a line, by symbol and then by the name of the
target. -/
def edgeLines (A : Automaton) (id : Nat) : List String :=
  (A.labelsFrom id).toList.flatMap fun s =>
    (sortTexts ((A.targets id s).toList.map A.label)).map fun target =>
      s!"    {A.label id} {quoteSymbol s} -> {target};\n"

/-- The listing of an automaton. -/
def text (A : Automaton) : String :=
  let states := A.statesByName
  "(\n" ++
    "  " ++ braced (states.map A.label) ++ ",\n" ++
    "  " ++ braced (A.alphabet.toList.map quoteSymbol) ++ ",\n" ++
    "  \x7b\n" ++ String.join (states.flatMap A.edgeLines) ++ "  \x7d,\n" ++
    "  " ++ (A.start.map A.label).getD "" ++ ",\n" ++
    "  " ++ braced ((states.filter (· ∈ A.accepting)).map A.label) ++ "\n" ++
    ")"

end TreeControl.Automaton
