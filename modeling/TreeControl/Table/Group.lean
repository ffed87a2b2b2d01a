import TreeControl.Table.Item
import TreeControl.Trace.Traced

/-! # Groups of items

The groups of a grammar are the closed sets of items reachable from the item that begins rule 0, by
moving the marker over one symbol at a time.  They are the states of the parser, numbered in the
order of a breadth-first search that takes the symbols in order. -/

namespace TreeControl

/-- A group of items: a state of the parser. -/
structure Group where
  /-- The items, closed. -/
  items : OrdSet Item
  /-- The group reached over each symbol that stands behind a marker. -/
  transitions : OrdMap Symbol Nat
  deriving DecidableEq

namespace Grammar

/-- The symbols behind the markers of a set of items. -/
def expectedSymbols (g : Grammar) (items : OrdSet Item) : OrdSet Symbol :=
  .ofList (items.toList.filterMap g.expected?)

/-- The closed set of items after a symbol. -/
def itemsAfter (g : Grammar) (items : OrdSet Item) (s : Symbol) : OrdSet Item :=
  g.closeItems ((items.filter (g.expected? · = some s)).map Item.advance)

/-- The closed sets one symbol further, in the order of the symbols. -/
def itemsNext (g : Grammar) (items : OrdSet Item) : List (OrdSet Item) :=
  (g.expectedSymbols items).toList.map (g.itemsAfter items)

/-- The items of a grammar: every rule with the marker at every place. -/
def allItems (g : Grammar) : List Item :=
  g.rules.zipIdx.flatMap fun (r, i) => (List.range (r.rhs.length + 1)).map (⟨i, ·⟩)

/-- The item sets of all groups: the closed sets reachable from the beginning of rule 0.  There are
no more of them than sets of items. -/
def itemSets (g : Grammar) : List (OrdSet Item) :=
  explore g.itemsNext (Nat.pow 2 g.allItems.length) [] [g.closeItems (.singleton ⟨0, 0⟩)]

/-- The groups of a grammar; group 0 is where the parser starts. -/
def groups (g : Grammar) : List Group :=
  let sets := g.itemSets
  sets.map fun items =>
    ⟨items, .ofKeys (g.expectedSymbols items) fun s => sets.idxOf (g.itemsAfter items s)⟩

/-- Finds the groups and reports each of them and their number. -/
def findGroups (g : Grammar) : Traced (List Group) := do
  let found := g.groups
  Traced.emitAll ((List.range found.length).map .groupFound)
  Traced.emit (.groupsFound found.length g.rules.length)
  return found

end Grammar

end TreeControl
