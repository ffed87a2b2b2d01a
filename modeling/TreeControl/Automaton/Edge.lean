import TreeControl.Symbol

/-! # Transitions

A transition leads from a state to a state on a symbol.  Transitions are ordered by source, then
by symbol, then by target. -/

namespace TreeControl

/-- A transition of an automaton. -/
structure Edge where
  source : Nat
  /-- What is read; the blank symbol for a move that reads nothing. -/
  label : Symbol
  target : Nat
  deriving DecidableEq, Repr

namespace Edge

instance : Ord Edge :=
  ⟨compareLex (compareOn source) (compareLex (compareOn label) (compareOn target))⟩

instance : Std.TransOrd Edge :=
  inferInstanceAs (Std.TransCmp
    (compareLex (compareOn source) (compareLex (compareOn label) (compareOn target))))

theorem compare_def (e f : Edge) :
    compare e f = (compare e.source f.source).then
      ((compare e.label f.label).then (compare e.target f.target)) := rfl

theorem compare_eq_iff {e f : Edge} :
    compare e f = .eq ↔
      compare e.source f.source = .eq ∧ compare e.label f.label = .eq ∧
        compare e.target f.target = .eq := by
  simp only [compare_def, Ordering.then_eq_eq]

instance : Std.LawfulEqOrd Edge where
  eq_of_compare {e f} h := by
    obtain ⟨hs, hl, ht⟩ := compare_eq_iff.1 h
    have hs := Std.LawfulEqCmp.eq_of_compare hs
    have hl := Std.LawfulEqCmp.eq_of_compare hl
    have ht := Std.LawfulEqCmp.eq_of_compare ht
    cases e; cases f; cases hs; cases hl; cases ht; rfl

/-- Whether the move reads nothing. -/
def isEpsilon (e : Edge) : Bool := e.label.isBlank

end Edge

end TreeControl
