import TreeControl.Parser.Error
import TreeControl.Table.Basic

/-! # Deciding between actions

A cell with one candidate leaves no choice.  For a conflict the resolvers are asked in the order of
the policy.  Precedence speaks only while a shift competes with a reduction; if it is for reducing
and several reductions compete, the shift is out.  The levels keep the reductions that the level
automaton could still accept: a single one wins, and if there is none the shift does.  Several that
fit beside a shift are left to precedence, and if that does not settle it the ambiguity is the
error. -/

namespace TreeControl

/-- An entry of the parser's stack. -/
structure Frame where
  /-- The terminal shifted or the nonterminal reduced to; blank at the bottom. -/
  symbol : Symbol
  /-- The state behind it. -/
  state : Nat
  deriving DecidableEq, Repr

/-- What the parser does next. -/
inductive Decision where
  /-- Shift, and go to a state. -/
  | shift (state : Nat)
  /-- Reduce by a rule, perhaps with positions that are already known. -/
  | reduce (rule : Nat) (known : Option (List Position))
  deriving DecidableEq

/-- Where a decision is taken. -/
structure DecisionPoint where
  table : Table
  /-- The stack, top first. -/
  frames : List Frame
  forest : Forest
  lookahead : Symbol
  /-- The place of the lookahead. -/
  location : Location

namespace DecisionPoint

/-- The state on top of the stack. -/
def state (x : DecisionPoint) : Nat := (x.frames.head?.map Frame.state).getD 0

/-- The symbol nearest to the top of the stack that has a precedence. -/
def nearest? (x : DecisionPoint) (p : Precedence) : Option Symbol :=
  (x.frames.map Frame.symbol).find? p.binds

/-- What precedence says, if both the lookahead and some symbol on the stack have one. -/
def precedenceVerdict (x : DecisionPoint) : Attempt ParseError (Option Verdict) :=
  match x.table.precedence with
  | none => pure none
  | some p =>
    if p.binds x.lookahead then
      match x.nearest? p with
      | none => pure none
      | some s => do
        let v ← Attempt.ofExcept
          ((p.verdict s x.lookahead).mapError (ParseError.precedence · x.location))
        Attempt.emit (.compared s x.lookahead v)
        return some v
    else pure none

/-- The positions that a reduction leads to, if the levels allow it. -/
def fits (x : DecisionPoint) (rule : Nat) : Traced (Option (Nat × List Position)) :=
  match x.table.grammar.rules[rule]? with
  | none => pure none
  | some r =>
    match x.forest.preview r with
    | .ok ps => pure (some (rule, ps))
    | .error e => do
      Traced.emit (.ruledOut (x.table.grammar.ruleText rule) e.message)
      return none

/-- The reductions that the levels allow. -/
def fitting (x : DecisionPoint) (rules : List Nat) : Traced (List (Nat × List Position)) := do
  let found ← rules.mapM x.fits
  return found.filterMap id

/-- The error when several reductions fit. -/
def ambiguous (x : DecisionPoint) (rules : List Nat) : ParseError :=
  .ambiguousReduceReduce x.state x.lookahead (rules.map x.table.grammar.ruleText) x.location

/-- What remains of a conflict after a resolver. -/
inductive Resolution where
  /-- The conflict is settled. -/
  | settled (decision : Decision)
  /-- These candidates are left, and an error is due if nothing settles them. -/
  | undecided (shift : Option Nat) (reduces : List Nat) (due : Option ParseError)

/-- Lets precedence speak. -/
def askPrecedence (x : DecisionPoint) (shift : Option Nat) (reduces : List Nat)
    (due : Option ParseError) : Attempt ParseError Resolution :=
  match shift, reduces with
  | some target, r :: rs => do
    match ← x.precedenceVerdict with
    | none => return .undecided shift reduces due
    | some .shift => return .settled (.shift target)
    | some .reduce =>
      if rs.isEmpty then return .settled (.reduce r none)
      else return .undecided none reduces due
  | _, _ => return .undecided shift reduces due

/-- Lets the levels speak. -/
def askLevels (x : DecisionPoint) (shift : Option Nat) (reduces : List Nat)
    (due : Option ParseError) : Attempt ParseError Resolution :=
  if x.forest.automaton.isNone then return .undecided shift reduces due
  else do
    let valid ← ExceptT.lift (x.fitting reduces)
    match valid, shift with
    | [(r, ps)], _ => return .settled (.reduce r (some ps))
    | [], some target => return .settled (.shift target)
    | [], none => throw (.noTreeConsistentRule x.state x.lookahead x.location)
    | _, some _ => return .undecided shift (valid.map Prod.fst) (some (x.ambiguous (valid.map Prod.fst)))
    | _, none => throw (x.ambiguous (valid.map Prod.fst))

/-- Lets one resolver speak. -/
def ask (x : DecisionPoint) :
    Resolver → Option Nat → List Nat → Option ParseError → Attempt ParseError Resolution
  | .precedence => x.askPrecedence
  | .levels => x.askLevels

/-- Settles a conflict by asking resolvers one after the other. -/
def settle (x : DecisionPoint) : List Resolver → Option Nat → List Nat → Option ParseError →
    Attempt ParseError Decision
  | [], shift, reduces, due =>
    match due, shift, reduces with
    | some e, _, _ => throw e
    | none, none, [r] => return .reduce r none
    | none, _, _ => throw (.unhandledConflict x.state x.lookahead x.location)
  | resolver :: rest, shift, reduces, due => do
    match ← x.ask resolver shift reduces due with
    | .settled d => return d
    | .undecided shift reduces due => x.settle rest shift reduces due

/-- Decides what to do with a cell. -/
def choose (x : DecisionPoint) (order : ResolutionOrder) (c : Cell) : Attempt ParseError Decision :=
  if c.isConflict then x.settle order.resolvers c.shift c.reduces.toList none
  else
    match c.shift, c.reduces.min? with
    | some target, _ => return .shift target
    | none, some r => return .reduce r none
    | none, none => throw (.noRuleForToken x.lookahead x.state x.location)

end DecisionPoint

end TreeControl
