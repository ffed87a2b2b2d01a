import TreeControl.Parser.Decision

/-! # The parser

A parse moves from configuration to configuration: the stack of states, the forest of subtrees, the
token source and the lookahead.  `step` takes one action; `run` takes steps until the input is
accepted or refused, at most as many as it is given. -/

namespace TreeControl.Parser

variable {σ : Type} [TokenSource σ]

/-- How a parse is carried out. -/
structure Setting where
  table : Table
  order : ResolutionOrder

/-- A parse in progress. -/
structure Config (σ : Type) where
  /-- The stack, top first. -/
  frames : List Frame
  forest : Forest
  source : σ
  lookahead : Symbol

/-- What a step leads to. -/
inductive Progress (σ : Type) where
  | going (config : Config σ)
  | finished (tree : Tree)

/-- The stack of a parse that has not begun. -/
def bottom : List Frame := [⟨.blank, 0⟩]

/-- The place of the lookahead. -/
def Config.location (c : Config σ) : Location := TokenSource.location c.source

/-- The state on top of the stack. -/
def Config.state (c : Config σ) : Nat := (c.frames.head?.map Frame.state).getD 0

/-- Where a configuration has to decide. -/
def Config.decisionPoint (c : Config σ) (t : Table) : DecisionPoint :=
  ⟨t, c.frames, c.forest, c.lookahead, c.location⟩

/-- Reads the next token, which has to be a terminal or the end of the input. -/
def readToken (t : Table) (source : σ) : Except ParseError (Symbol × σ) :=
  let (token, source) := TokenSource.next source
  if token.isBlank || t.grammar.isTerminal token then .ok (token, source)
  else .error (.symbolNotInGrammar token (TokenSource.location source))

/-- The first configuration: an empty stack and the first token. -/
def begin (t : Table) (source : σ) : Except ParseError (Config σ) := do
  let (lookahead, source) ← readToken t source
  return { frames := bottom, forest := { automaton := t.automaton }, source, lookahead }

/-! ### Actions -/

/-- Shifts the lookahead and reads the next token. -/
def shift (t : Table) (c : Config σ) (target : Nat) : Attempt ParseError (Config σ) := do
  Attempt.emit (.shifted c.lookahead target)
  let forest ← Attempt.ofExcept
    ((c.forest.pushLeaf c.lookahead).mapError (ParseError.tree · c.location))
  let (lookahead, source) ← Attempt.ofExcept (readToken t c.source)
  return { frames := ⟨c.lookahead, target⟩ :: c.frames, forest, source, lookahead }

/-- Takes the symbols of a right side, last first, off the stack; the bottom frame stays. -/
def unwind (rule : String) : List Symbol → List Frame → Except ParseError (List Frame)
  | [], frames => .ok frames
  | s :: _, [] => .error (.stackMismatch rule s none)
  | s :: ss, f :: frames =>
    if f.symbol = s && !frames.isEmpty then unwind rule ss frames
    else .error (.stackMismatch rule s (some f.symbol))

/-- Reduces by a rule. -/
def reduce (t : Table) (c : Config σ) (rule : Nat) (known : Option (List Position)) :
    Attempt ParseError (Config σ) :=
  match t.grammar.rules[rule]? with
  | none => throw (.stackMismatch (Grammar.noRuleText rule) .blank none)
  | some r => do
    let text := t.grammar.ruleText rule
    let frames ← Attempt.ofExcept (unwind text r.rhs.reverse c.frames)
    let uncovered := (frames.head?.map Frame.state).getD 0
    match t.goto? uncovered r.lhs with
    | none => throw (.missingGoto uncovered r.lhs)
    | some target => do
      Attempt.emit (.reduced text target)
      let forest ← (c.forest.merge r known).adapt (ParseError.tree · c.location)
      return { c with frames := ⟨r.lhs, target⟩ :: frames, forest }

/-- Carries out a decision. -/
def act (t : Table) (c : Config σ) : Decision → Attempt ParseError (Config σ)
  | .shift target => shift t c target
  | .reduce rule known => reduce t c rule known

/-- Accepts the input: the levels have to be complete and there has to be one tree. -/
def accept (c : Config σ) : Attempt ParseError Tree := do
  Attempt.emit .accepted
  Attempt.ofExcept (c.forest.finalCheck.mapError (ParseError.tree · c.location))
  Attempt.ofExcept (c.forest.finish.mapError (ParseError.tree · c.location))

/-! ### Running -/

/-- Takes one step. -/
def step (s : Setting) (c : Config σ) : Attempt ParseError (Progress σ) := do
  Attempt.emit (.looking c.state c.lookahead)
  match s.table.entry? c.state c.lookahead with
  | some .accept => return .finished (← accept c)
  | some (.act cell) => do
    let decision ← (c.decisionPoint s.table).choose s.order cell
    return .going (← act s.table c decision)
  | _ => throw (.noRuleForToken c.lookahead c.state c.location)

/-- Takes steps until the end, but no more than a given number; `none` if that is too few. -/
def run (s : Setting) : Nat → Config σ → Traced (Option (Except ParseError Tree))
  | 0, _ => pure none
  | steps + 1, c => do
    match ← (step s c).run with
    | .error e => return some (.error e)
    | .ok (.finished t) => return some (.ok t)
    | .ok (.going c) => run s steps c

/-- Parses the tokens of a source in at most a given number of steps. -/
def parse (s : Setting) (steps : Nat) (source : σ) : Traced (Option (Except ParseError Tree)) :=
  match begin s.table source with
  | .error e => pure (some (.error e))
  | .ok c => run s steps c

end TreeControl.Parser

namespace TreeControl.Table

/-- The setting of a table's own policy. -/
def setting (t : Table) : Parser.Setting := ⟨t, t.policy.order⟩

end TreeControl.Table
