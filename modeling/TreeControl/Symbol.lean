import TreeControl.Order.OrdMap

/-! # Symbols

A symbol is a terminal, a nonterminal or an input of an automaton, known by its name alone.
Symbols are ordered by the code points of their names.  The symbol with the empty name is
special: it marks the end of the input for the parser, and it labels the moves of an automaton
that read nothing. -/

namespace TreeControl

/-- A terminal, a nonterminal or an automaton input, known by its name. -/
structure Symbol where
  name : String
  deriving DecidableEq, Repr

namespace Symbol

/-- The symbol without a name: end of input, or a move that reads nothing. -/
def blank : Symbol := ⟨""⟩

instance : Inhabited Symbol := ⟨blank⟩

/-- Whether this is the symbol without a name. -/
def isBlank (s : Symbol) : Bool := s.name.isEmpty

@[simp] theorem isBlank_iff {s : Symbol} : s.isBlank = true ↔ s = blank := by
  obtain ⟨name⟩ := s
  simp [isBlank, blank]

/-- The name in quotes, or a dollar sign for the blank symbol. -/
def quoted (s : Symbol) : String := if s.isBlank then "$" else "'" ++ s.name ++ "'"

/-! ### Order -/

instance : Ord Symbol := ⟨fun a b => compare a.name b.name⟩

theorem compare_def (a b : Symbol) : compare a b = compare a.name b.name := rfl

instance : Std.OrientedOrd Symbol where
  eq_swap {a b} := by
    rw [compare_def, compare_def]
    exact Std.OrientedCmp.eq_swap

instance : Std.TransOrd Symbol where
  isLE_trans {a b c} hab hbc := by
    rw [compare_def] at *
    exact Std.TransCmp.isLE_trans hab hbc

instance : Std.LawfulEqOrd Symbol where
  compare_self {a} := by rw [compare_def]; exact Std.ReflCmp.compare_self
  eq_of_compare {a b} h := by
    rw [compare_def] at h
    have : a.name = b.name := Std.LawfulEqCmp.eq_of_compare h
    cases a; cases b; cases this; rfl

end Symbol

end TreeControl
