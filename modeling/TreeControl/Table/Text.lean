import TreeControl.Table.Basic

/-! # Tables as text

A table is listed as lines of columns separated by tabulators: the terminals, the end of the input,
and the nonterminals without the new start symbol.  The machine of the groups can be drawn as a
graph; in the labels of its nodes the characters that markup reserves are written as entities. -/

namespace TreeControl.Table

/-! ### The listing -/

/-- The symbols of the columns. -/
def columns (t : Table) : List Symbol :=
  let start := (t.grammar.rules[0]?).map Rule.lhs
  t.grammar.terminals.toList ++ [.blank] ++
    t.grammar.nonterminals.toList.filter (some · ≠ start)

/-- The heading of a column. -/
def heading (s : Symbol) : String := if s.isBlank then "$" else s.name

/-- A line of the listing. -/
def listLine (first : String) (cells : List String) : String :=
  first ++ "\t" ++ "\t".intercalate cells ++ "\n"

/-- The table, one state to a line. -/
def text (t : Table) : String :=
  let columns := t.columns
  listLine "#" (columns.map heading) ++
    String.join (t.rows.zipIdx.map fun (row, state) =>
      listLine s!"{state}" (columns.map fun s => ((row.get? s).map Entry.text).getD ""))

/-! ### The graph -/

/-- A character in a label. -/
def escapeChar : Char → List Char
  | '&' => "&amp;".toList
  | '<' => "&lt;".toList
  | '>' => "&gt;".toList
  | c => [c]

/-- A text in a label. -/
def escape (s : String) : String := String.ofList (s.toList.flatMap escapeChar)

/-- The beginning of the drawing. -/
def graphHead : String :=
  "digraph G \x7b\n    node [\n        shape=\"box\",\n        style=\"rounded\",\n" ++
    "        penwidth=1,\n        width=2.0\n    ];\n"

/-- The node of a group: one line of its label for each item. -/
def graphNode (t : Table) (state : Nat) (group : Group) : String :=
  s!"s{state}[label=<" ++
    String.join (group.items.toList.map fun i => escape (t.grammar.itemText i) ++ "<br />") ++ ">]\n"

/-- The arrow of a transition, labelled with the bare name of the symbol. -/
def graphEdge (state : Nat) (x : Symbol × Nat) : String :=
  s!"s{state} -> s{x.2} [label=<{x.1.name}>]\n"

/-- The machine of the groups as a graph. -/
def graph (t : Table) : String :=
  graphHead ++
    String.join (t.groups.zipIdx.map fun (group, state) =>
      t.graphNode state group ++ String.join (group.transitions.entries.map (graphEdge state))) ++
    "\x7d\n"

end TreeControl.Table
