import TreeControl.Search
import TreeControl.Symbol

/-! # Context-free grammars

A grammar has terminals, nonterminals, a numbered list of rules and possibly a start symbol.  It
grows by declarations: `declareTerminal`, `declareNonterminal`, `addRule` and `setStart` either
give the larger grammar or say what is wrong, so that a grammar made by them is well-formed.

`augment` adds a new start symbol whose only rule, rule 0, leads to the old one. -/

namespace TreeControl

/-- A rule of a context-free grammar.  Rules are told apart by their number, not their text. -/
structure Rule where
  lhs : Symbol
  rhs : List Symbol
  deriving DecidableEq, Repr

/-- A rule with the names of its symbols as they are. -/
def Rule.text (r : Rule) : String :=
  r.lhs.name ++ " ->" ++ String.join (r.rhs.map fun s => " " ++ s.name)

/-- A context-free grammar. -/
structure Grammar where
  terminals : OrdSet Symbol := ∅
  nonterminals : OrdSet Symbol := ∅
  /-- The rules; a rule's number is its index. -/
  rules : List Rule := []
  start : Option Symbol := none
  deriving DecidableEq

namespace Grammar

instance : Inhabited Grammar := ⟨{}⟩

/-- Why a declaration fails. -/
inductive Error where
  /-- A symbol needs a name. -/
  | emptyName
  /-- The symbol is declared already. -/
  | duplicateSymbol (symbol : Symbol)
  /-- A terminal stands on the left of a rule. -/
  | terminalOnLeft (symbol : Symbol)
  /-- The symbol is not declared. -/
  | unknownSymbol (symbol : Symbol)
  /-- The start symbol is not a nonterminal. -/
  | startNotNonterminal (symbol : Symbol)
  /-- There is no start symbol. -/
  | missingStart
  deriving DecidableEq, Repr

/-- The wording of an error. -/
def Error.message : Error → String
  | emptyName => "symbol name must not be empty"
  | duplicateSymbol s => s!"duplicate symbol '{s.name}'"
  | terminalOnLeft s => s!"left side of a rule must be a nonterminal, got terminal '{s.name}'"
  | unknownSymbol s => s!"unknown symbol '{s.name}'"
  | startNotNonterminal s => s!"start symbol '{s.name}' is not a nonterminal"
  | missingStart => "grammar has no start symbol"

/-! ### Symbols -/

/-- Whether a symbol is a terminal. -/
def isTerminal (g : Grammar) (s : Symbol) : Bool := s ∈ g.terminals

/-- Whether a symbol is a nonterminal. -/
def isNonterminal (g : Grammar) (s : Symbol) : Bool := s ∈ g.nonterminals

/-- Whether a symbol is declared. -/
def declares (g : Grammar) (s : Symbol) : Bool := g.isTerminal s || g.isNonterminal s

/-- Succeeds for a symbol that may be declared: it has a name and is new. -/
def checkNew (g : Grammar) (s : Symbol) : Except Error Unit :=
  if s.isBlank then .error .emptyName
  else if g.declares s then .error (.duplicateSymbol s)
  else .ok ()

/-- Declares a terminal. -/
def declareTerminal (g : Grammar) (s : Symbol) : Except Error Grammar := do
  g.checkNew s
  return { g with terminals := g.terminals.insert s }

/-- Declares a nonterminal. -/
def declareNonterminal (g : Grammar) (s : Symbol) : Except Error Grammar := do
  g.checkNew s
  return { g with nonterminals := g.nonterminals.insert s }

/-! ### Rules -/

/-- Appends a rule; its number is the number of rules before it. -/
def addRule (g : Grammar) (r : Rule) : Except Error Grammar :=
  if g.isTerminal r.lhs then .error (.terminalOnLeft r.lhs)
  else if !g.isNonterminal r.lhs then .error (.unknownSymbol r.lhs)
  else match r.rhs.find? (!g.declares ·) with
    | some s => .error (.unknownSymbol s)
    | none => .ok { g with rules := g.rules ++ [r] }

/-- Chooses the start symbol. -/
def setStart (g : Grammar) (s : Symbol) : Except Error Grammar :=
  if g.isNonterminal s then .ok { g with start := some s }
  else .error (.startNotNonterminal s)

/-- The rules of a nonterminal with their numbers. -/
def rulesOf (g : Grammar) (lhs : Symbol) : List (Nat × Rule) :=
  (g.rules.zipIdx.filter (·.1.lhs = lhs)).map fun p => (p.2, p.1)

/-! ### A new start symbol -/

/-- The names of all declared symbols. -/
def names (g : Grammar) : List String :=
  (g.terminals.toList ++ g.nonterminals.toList).map Symbol.name

/-- A symbol that is not declared: the name of `s` with one or more stars. -/
def starred (g : Grammar) (s : Symbol) : Symbol :=
  ⟨unusedName '*' g.names (s.name.push '*')⟩

/-- The grammar under a new start symbol whose only rule is rule 0 and leads to the old one. -/
def augment (g : Grammar) : Except Error Grammar :=
  match g.start with
  | none => .error .missingStart
  | some s =>
    .ok { g with
      nonterminals := g.nonterminals.insert (g.starred s)
      rules := ⟨g.starred s, [s]⟩ :: g.rules
      start := some (g.starred s) }

/-! ### Text -/

/-- A symbol in a rule: terminals are quoted, nonterminals are not. -/
def symbolText (g : Grammar) (s : Symbol) : String :=
  if g.isTerminal s then "'" ++ s.name ++ "'" else s.name

/-- What stands for a rule that does not exist. -/
def noRuleText (index : Nat) : String := s!"<rule {index}>"

/-- The rule of a number, with terminals quoted and an empty right side as two quotes. -/
def ruleText (g : Grammar) (index : Nat) : String :=
  match g.rules[index]? with
  | none => noRuleText index
  | some r =>
    r.lhs.name ++ " ->" ++
      if r.rhs.isEmpty then " ''" else String.join (r.rhs.map fun s => " " ++ g.symbolText s)

/-- The rules, one to a line, behind their numbers. -/
def text (g : Grammar) : String :=
  String.join ((List.range g.rules.length).map fun i => s!"{i}: {g.ruleText i}\n")

end Grammar

end TreeControl
