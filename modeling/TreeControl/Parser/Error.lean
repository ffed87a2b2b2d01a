import TreeControl.Token.Source
import TreeControl.Tree.Forest

/-! # Parse errors -/

namespace TreeControl

/-- Why an input is not parsed. -/
inductive ParseError where
  /-- The token is not a terminal of the grammar. -/
  | symbolNotInGrammar (symbol : Symbol) (location : Location)
  /-- The table has no action for the token. -/
  | noRuleForToken (symbol : Symbol) (state : Nat) (location : Location)
  /-- The stack does not end with the right side of the rule. -/
  | stackMismatch (rule : String) (expected : Symbol) (found : Option Symbol)
  /-- There is nowhere to go after a reduction. -/
  | missingGoto (state : Nat) (symbol : Symbol)
  /-- No means settles the conflict. -/
  | unhandledConflict (state : Nat) (symbol : Symbol) (location : Location)
  /-- No reduction keeps the levels acceptable. -/
  | noTreeConsistentRule (state : Nat) (symbol : Symbol) (location : Location)
  /-- More than one reduction keeps the levels acceptable. -/
  | ambiguousReduceReduce (state : Nat) (symbol : Symbol) (rules : List String)
      (location : Location)
  /-- Precedence refuses to decide. -/
  | precedence (cause : Precedence.Error) (location : Location)
  /-- The tree is refused. -/
  | tree (cause : TreeError) (location : Location)
  deriving DecidableEq, Repr

namespace ParseError

/-- What was found on the stack, if anything was. -/
def foundText : Option Symbol → String
  | none => "None"
  | some s => "Some(" ++ s.quoted ++ ")"

/-- The wording of an error. -/
def message : ParseError → String
  | symbolNotInGrammar s l => s!"{l.text}: symbol '{s.name}' is not in the grammar"
  | noRuleForToken s q l => s!"{l.text}: no rule for token '{s.name}' in state {q}"
  | stackMismatch r s found =>
    s!"stack does not match rule {r}: expected '{s.name}', found {foundText found}"
  | missingGoto q s => s!"no goto from state {q} on '{s.name}'"
  | unhandledConflict q s l => s!"{l.text}: unhandled conflict in state {q} on '{s.name}'"
  | noTreeConsistentRule q s l => s!"{l.text}: no tree-consistent rule in state {q} on '{s.name}'"
  | ambiguousReduceReduce q s rules l =>
    s!"{l.text}: ambiguous reduce/reduce in state {q} on '{s.name}': " ++ ", ".intercalate rules
  | precedence e l => s!"{l.text}: {e.message}"
  | tree e l => s!"{l.text}: {e.message}"

end ParseError

end TreeControl
