import TreeControl.Grammar.Basic
import TreeControl.Trace.Traced

/-! # What a symbol predicts

For every declared symbol of a grammar: whether it derives the empty string, which terminals can
begin what it derives, and which terminals can follow it in a derivation.  The blank symbol in a
follow set is the end of the input.

Both tables are found by passing over the rules until a pass brings nothing new; a pass sees what
it has just learned.  A pass that learns something adds a symbol to a set or makes a symbol
nullable, which `Grammar.predictionBound` limits. -/

namespace TreeControl

/-- What one symbol predicts. -/
structure Prospect where
  /-- The symbol derives the empty string. -/
  nullable : Bool := false
  /-- The terminals that begin what the symbol derives. -/
  first : OrdSet Symbol := ∅
  /-- The terminals, or the blank symbol, that come after the symbol. -/
  follow : OrdSet Symbol := ∅
  deriving DecidableEq

/-- What the declared symbols of a grammar predict. -/
structure Prediction where
  prospects : OrdMap Symbol Prospect
  deriving DecidableEq

namespace Prediction

instance : Inhabited Prediction := ⟨⟨∅⟩⟩

/-! ### Reading -/

/-- What a symbol predicts; a symbol without an entry predicts nothing. -/
def prospect (p : Prediction) (s : Symbol) : Prospect := (p.prospects.get? s).getD {}

/-- Whether a symbol derives the empty string. -/
def nullable (p : Prediction) (s : Symbol) : Bool := (p.prospect s).nullable

/-- The symbols that can follow a symbol. -/
def follow (p : Prediction) (s : Symbol) : OrdSet Symbol := (p.prospect s).follow

/-- Whether a sequence derives the empty string. -/
def allNullable (p : Prediction) (ss : List Symbol) : Bool := ss.all p.nullable

/-- The terminals that begin what a sequence derives. -/
def first (p : Prediction) : List Symbol → OrdSet Symbol
  | [] => ∅
  | s :: ss =>
    if p.nullable s then (p.prospect s).first ∪ p.first ss else (p.prospect s).first

/-! ### Learning -/

/-- Nothing known but that a terminal begins with itself. -/
def initial (g : Grammar) : Prediction :=
  ⟨.ofKeys (g.terminals ∪ g.nonterminals) fun s =>
    if g.isTerminal s then { first := .singleton s } else {}⟩

/-- What a rule says about emptiness and first symbols of its left side. -/
def learnFirst (p : Prediction) (r : Rule) : Prediction :=
  ⟨p.prospects.modify r.lhs fun row =>
    { row with
      nullable := row.nullable || p.allNullable r.rhs
      first := row.first ∪ p.first r.rhs }⟩

/-- One pass over the rules for emptiness and first symbols. -/
def passFirst (g : Grammar) (p : Prediction) : Prediction := g.rules.foldl learnFirst p

/-- More symbols that can follow a symbol. -/
def gainFollow (p : Prediction) (s : Symbol) (gained : OrdSet Symbol) : Prediction :=
  ⟨p.prospects.modify s fun row => { row with follow := row.follow ∪ gained }⟩

/-- What can come after a symbol that `rest` follows on the right side of a rule for `lhs`. -/
def after (p : Prediction) (lhs : Symbol) (rest : List Symbol) : OrdSet Symbol :=
  if p.allNullable rest then p.first rest ∪ p.follow lhs else p.first rest

/-- What the right side of a rule for `lhs` says about following symbols, from left to right. -/
def learnFollow (g : Grammar) (lhs : Symbol) : List Symbol → Prediction → Prediction
  | [], p => p
  | s :: rest, p =>
    learnFollow g lhs rest
      (if g.isNonterminal s then p.gainFollow s (p.after lhs rest) else p)

/-- One pass over the rules for following symbols. -/
def passFollow (g : Grammar) (p : Prediction) : Prediction :=
  g.rules.foldl (fun q r => learnFollow g r.lhs r.rhs q) p

/-- The end of the input follows the start symbol. -/
def endAfterStart (g : Grammar) (p : Prediction) : Prediction :=
  match g.start with
  | none => p
  | some s => p.gainFollow s (.singleton .blank)

end Prediction

namespace Grammar

/-- More passes than can learn something: every declared symbol gains each terminal and one
thing more at most once, and the last pass learns nothing. -/
def predictionBound (g : Grammar) : Nat :=
  (g.terminals.size + g.nonterminals.size) * (g.terminals.size + 1) + 1

/-- What the symbols of a grammar predict. -/
def predict (g : Grammar) : Traced Prediction := do
  let (p, passes) := saturate (Prediction.passFirst g) g.predictionBound (Prediction.initial g)
  Traced.emit (.firstKnown passes)
  let (q, passes) :=
    saturate (Prediction.passFollow g) g.predictionBound (p.endAfterStart g)
  Traced.emit (.followKnown passes)
  return q

end Grammar

end TreeControl
