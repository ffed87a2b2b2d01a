import TreeControl.Parser.Basic
import TreeControl.Token.Words

/-! # The demonstration program

The program reads words from its input and parses them with the grammar `S -> a S b | ''`, whose
levels have to be `S` or `a S b`.  It prints the levels of the tree, or says what is wrong. -/

namespace TreeControl.Demo

/-- The grammar: `a`s before as many `b`s. -/
def grammar : Except Grammar.Error Grammar := do
  let g ← Grammar.declareNonterminal {} ⟨"S"⟩
  let g ← g.declareTerminal ⟨"a"⟩
  let g ← g.declareTerminal ⟨"b"⟩
  let g ← g.addRule ⟨⟨"S"⟩, [⟨"a"⟩, ⟨"S"⟩, ⟨"b"⟩]⟩
  let g ← g.addRule ⟨⟨"S"⟩, []⟩
  g.setStart ⟨"S"⟩

/-- The automaton of the levels `S` and `a S b`. -/
def levels : Except Automaton.Error Automaton := do
  let A := [⟨"S"⟩, ⟨"a"⟩, ⟨"b"⟩].foldl Automaton.addSymbol {}
  let A := ["q0", "q1", "q2", "q3", "q4"].foldl Automaton.addState A
  let A ← A.addEdge "q0" ⟨"S"⟩ "q1"
  let A ← A.addEdge "q0" ⟨"a"⟩ "q2"
  let A ← A.addEdge "q2" ⟨"S"⟩ "q3"
  let A ← A.addEdge "q3" ⟨"b"⟩ "q4"
  let A ← A.setStart "q0"
  let A ← A.setAccepting "q1"
  A.setAccepting "q4"

/-- The table of the grammar under its levels. -/
def table : Except BuildError Table := do
  let g ← grammar.mapError .grammar
  let A ← levels.mapError .automaton
  (Table.build g { automaton := some A, report := true }).outcome

/-- Steps enough for any text: every word is shifted once and every reduction belongs to a word or
to the end. -/
def stepBound (text : String) : Nat := 2 * text.length + 3

/-- What the program answers with. -/
structure Response where
  code : Nat
  stdout : String
  stderr : String
  deriving DecidableEq, Repr

/-- The answer to an input that is refused. -/
def failure (message : String) : Response := ⟨1, "", message ++ "\n"⟩

/-- The answer to a text. -/
def respond (text : String) : Response :=
  match table with
  | .error e => failure e.message
  | .ok t =>
    match (Parser.parse t.setting (stepBound text) (Words.ofText text)).value with
    | some (.ok tree) => ⟨0, tree.text, ""⟩
    | some (.error e) => failure e.message
    | none => failure "the parse does not end"

/-- The answer to bytes, which have to be UTF-8. -/
def respondBytes (bytes : ByteArray) : Response :=
  match String.fromUTF8? bytes with
  | some text => respond text
  | none => failure "stream did not contain valid UTF-8"

end TreeControl.Demo
