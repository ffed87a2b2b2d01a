import TreeControl.Grammar.Basic

/-! # Items

An item is a rule with a marker that shows how much of the right side has been matched.  A set of
items is closed when, for every nonterminal behind a marker, it holds the rules of that nonterminal
with the marker in front. -/

namespace TreeControl

/-- A rule, by its number, with the number of symbols in front of the marker. -/
structure Item where
  rule : Nat
  marker : Nat
  deriving DecidableEq, Repr

namespace Item

/-- Items are ordered by rule, then by marker. -/
instance : Ord Item := ⟨compareLex (compareOn rule) (compareOn marker)⟩

instance : Std.TransOrd Item :=
  inferInstanceAs (Std.TransCmp (compareLex (compareOn rule) (compareOn marker)))

theorem compare_eq_iff {i j : Item} :
    compare i j = .eq ↔ compare i.rule j.rule = .eq ∧ compare i.marker j.marker = .eq := by
  show (Ordering.then _ _) = .eq ↔ _
  simp only [Ordering.then_eq_eq, compareOn]

instance : Std.LawfulEqOrd Item where
  eq_of_compare {i j} h := by
    obtain ⟨hr, hm⟩ := compare_eq_iff.1 h
    have hr := Std.LawfulEqCmp.eq_of_compare hr
    have hm := Std.LawfulEqCmp.eq_of_compare hm
    cases i; cases j; cases hr; cases hm; rfl

/-- The item with the marker one symbol further. -/
def advance (i : Item) : Item := ⟨i.rule, i.marker + 1⟩

end Item

namespace Grammar

/-- The symbol behind the marker. -/
def expected? (g : Grammar) (i : Item) : Option Symbol :=
  (g.rules[i.rule]?).bind (·.rhs[i.marker]?)

/-- The items that an item asks for: the rules of the nonterminal behind its marker. -/
def predicted (g : Grammar) (i : Item) : List Item :=
  match g.expected? i with
  | some s => if g.isNonterminal s then (g.rulesOf s).map fun r => ⟨r.1, 0⟩ else []
  | none => []

/-- The closed set of items that holds a set.  What the search adds is one item for each rule at
most. -/
def closeItems (g : Grammar) (items : OrdSet Item) : OrdSet Item :=
  .ofList (explore g.predicted (items.size + g.rules.length) [] items.toList)

/-- An item as text, with a bullet at the marker. -/
def itemText (g : Grammar) (i : Item) : String :=
  match g.rules[i.rule]? with
  | none => noRuleText i.rule
  | some r =>
    let symbols := r.rhs.map fun s => " " ++ g.symbolText s
    let bullet := if i.marker ≤ r.rhs.length then " •" else ""
    r.lhs.name ++ " →" ++ String.join (symbols.take i.marker) ++ bullet ++
      String.join (symbols.drop i.marker)

end Grammar

end TreeControl
