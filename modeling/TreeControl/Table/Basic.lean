import TreeControl.Automaton.Preparation
import TreeControl.Grammar.Prediction
import TreeControl.Table.Entry
import TreeControl.Table.Group

/-! # Parse tables

The table of a grammar has a row for every group of items.  A transition over a terminal is a shift
and one over a nonterminal a goto; a completed item asks for a reduction on every symbol that can
follow its left side, and completed rule 0 accepts at the end of the input.

Cells with several actions are kept if the policy allows it.  The table carries the precedence table
and the prepared level automaton with which the parser settles them. -/

namespace TreeControl

/-- A row of a parse table. -/
abbrev Row := OrdMap Symbol Entry

/-- A parse table with everything that a parse needs. -/
structure Table where
  /-- The grammar under its new start symbol; rule 0 is the accepting rule. -/
  grammar : Grammar
  /-- The groups of items, one for each state. -/
  groups : List Group
  /-- The rows, one for each state. -/
  rows : List Row
  precedence : Option Precedence
  /-- The level automaton, prepared. -/
  automaton : Option Automaton
  policy : Policy

/-- What a table is built with besides the grammar. -/
structure Means where
  precedence : Option Precedence := none
  /-- The level automaton, not yet prepared. -/
  automaton : Option Automaton := none
  order : ResolutionOrder := .precedenceFirst
  report : Bool := false
  /-- A policy in place of the one that fits these means. -/
  policy : Option Policy := none

/-- The policy in force: the one given, else the one that fits. -/
def Means.chosenPolicy (m : Means) : Policy :=
  m.policy.getD
    (((Policy.forMeans m.precedence.isSome m.automaton.isSome).withOrder m.order).withReport m.report)

namespace Table

/-! ### Reading -/

/-- The entry for a state and a symbol. -/
def entry? (t : Table) (state : Nat) (s : Symbol) : Option Entry :=
  (t.rows[state]?).bind (·.get? s)

/-- The state to go to after a reduction to a nonterminal. -/
def goto? (t : Table) (state : Nat) (s : Symbol) : Option Nat :=
  match t.entry? state s with
  | some (.goto q) => some q
  | _ => none

/-- The cells of a row with more than one action. -/
def rowConflicts (row : Row) : List (Symbol × Cell) :=
  row.entries.filterMap fun
    | (s, .act c) => if c.isConflict then some (s, c) else none
    | _ => none

/-- All cells with more than one action, with their states and symbols. -/
def conflicts (t : Table) : List (Nat × Symbol × Cell) :=
  t.rows.zipIdx.flatMap fun (row, state) => (rowConflicts row).map (state, ·)

/-! ### Filling -/

/-- What an item of a group puts into the row of the group. -/
def placements (g : Grammar) (p : Prediction) (group : Group) (i : Item) :
    List (Symbol × Placement) :=
  match g.rules[i.rule]? with
  | none => []
  | some r =>
    match r.rhs[i.marker]? with
    | none =>
      if i.rule = 0 then [(.blank, .accept)]
      else (p.follow r.lhs).toList.map (·, .reduce i.rule)
    | some s =>
      match group.transitions.get? s with
      | none => [(s, .deadEnd)]
      | some target => [(s, if g.isNonterminal s then .goto target else .shift target)]

/-- Puts something into a row. -/
def fillEntry (g : Grammar) (policy : Policy) (state : Nat) (row : Row)
    (x : Symbol × Placement) : Attempt BuildError Row := do
  let entry ← Site.place ⟨g, policy, state, x.1⟩ (row.get? x.1) x.2
  return row.insert x.1 entry

/-- The row of a group, filled item by item. -/
def fillRow (g : Grammar) (p : Prediction) (policy : Policy) (x : Group × Nat) :
    Attempt BuildError Row :=
  (x.1.items.toList.flatMap (placements g p x.1)).foldlM (fillEntry g policy x.2) ∅

/-! ### Building -/

/-- The prepared level automaton, if there is one. -/
def prepareLevels (m : Means) : Attempt BuildError (Option Automaton) :=
  match m.automaton with
  | none => pure none
  | some A => do
    let D ← A.prepare.adapt BuildError.automaton
    return some D

/-- Builds the table of a grammar. -/
def build (g : Grammar) (m : Means) : Attempt BuildError Table := do
  let grammar ← Attempt.ofExcept (g.augment.mapError .grammar)
  let automaton ← prepareLevels m
  let groups ← ExceptT.lift grammar.findGroups
  let prediction ← ExceptT.lift grammar.predict
  let rows ← groups.zipIdx.mapM (fillRow grammar prediction m.chosenPolicy)
  return { grammar, groups, rows, precedence := m.precedence, automaton, policy := m.chosenPolicy }

end Table

end TreeControl
