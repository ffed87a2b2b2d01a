import TreeControl.Automaton.Basic
import TreeControl.Grammar.Basic
import TreeControl.Policy
import TreeControl.Trace.Traced

/-! # Entries of a parse table

For a state and a terminal an entry holds a cell of candidate actions: a shift, reductions, or both.
For a nonterminal it holds the state to go to after a reduction.  Entries grow as actions are put
into them one by one; a policy says which conflicts may arise. -/

namespace TreeControl

/-- The candidate actions for a state and a terminal. -/
structure Cell where
  /-- The state to shift to. -/
  shift : Option Nat := none
  /-- The numbers of the rules to reduce by. -/
  reduces : OrdSet Nat := ∅
  deriving DecidableEq

namespace Cell

/-- A shift competes with a reduction. -/
def isShiftReduce (c : Cell) : Bool := c.shift.isSome && !c.reduces.isEmpty

/-- Reductions compete. -/
def isReduceReduce (c : Cell) : Bool := c.reduces.size > 1

/-- There is more than one candidate. -/
def isConflict (c : Cell) : Bool := c.isShiftReduce || c.isReduceReduce

/-- The candidates: the target of the shift and `s`, the rules of the reductions and `r`. -/
def text (c : Cell) : String :=
  "/".intercalate (c.shift.toList.map (fun q => s!"{q}s") ++ c.reduces.toList.map fun r => s!"{r}r")

end Cell

/-- An entry of a parse table. -/
inductive Entry where
  /-- The input is accepted. -/
  | accept
  /-- The state to go to after a reduction to a nonterminal. -/
  | goto (state : Nat)
  /-- Shift, reduce, or a choice of both. -/
  | act (cell : Cell)
  deriving DecidableEq

/-- An entry as it stands in the listing of a table. -/
def Entry.text : Entry → String
  | accept => "acc"
  | goto q => s!"{q}"
  | act c => c.text

/-- What is put into an entry. -/
inductive Placement where
  | accept
  | goto (state : Nat)
  | shift (state : Nat)
  | reduce (rule : Nat)
  /-- A symbol is expected but leads nowhere. -/
  | deadEnd
  deriving DecidableEq, Repr

/-- Why a table cannot be built. -/
inductive BuildError where
  /-- The grammar is at fault. -/
  | grammar (cause : Grammar.Error)
  /-- The level automaton is at fault. -/
  | automaton (cause : Automaton.Error)
  /-- A shift competes with a reduction. -/
  | shiftReduceConflict (state : Nat) (symbol : Symbol) (target : Nat) (rule : String)
  /-- Two reductions compete. -/
  | reduceReduceConflict (state : Nat) (symbol : Symbol) (first second : String)
  /-- The end of the input is accepted and asks for a reduction. -/
  | acceptConflict (state : Nat) (rule : String)
  /-- Two shifts lead to different states. -/
  | inconsistentShift (state : Nat) (symbol : Symbol) (first second : Nat)
  /-- Two gotos lead to different states. -/
  | inconsistentGoto (state : Nat) (symbol : Symbol) (first second : Nat)
  /-- A goto meets an action, or a symbol leads nowhere. -/
  | malformedCell (state : Nat) (symbol : Symbol)
  deriving DecidableEq, Repr

/-- The wording of an error. -/
def BuildError.message : BuildError → String
  | grammar e => e.message
  | automaton e => e.message
  | shiftReduceConflict q s t r =>
    s!"shift/reduce conflict in state {q} on '{s.name}': shift to {t} or reduce by {r}"
  | reduceReduceConflict q s r r2 =>
    s!"reduce/reduce conflict in state {q} on '{s.name}': {r} or {r2}"
  | acceptConflict q r => s!"accept conflicts with reduce by {r} in state {q}"
  | inconsistentShift q s t t2 => s!"inconsistent shift in state {q} on '{s.name}': {t} and {t2}"
  | inconsistentGoto q s t t2 => s!"inconsistent goto in state {q} on '{s.name}': {t} and {t2}"
  | malformedCell q s => s!"malformed table cell in state {q} on '{s.name}'"

/-! ### Filling -/

/-- What decides about conflicts in the entry of a state and a symbol. -/
structure Site where
  grammar : Grammar
  policy : Policy
  state : Nat
  symbol : Symbol

namespace Site

/-- Lets a shift stand beside a reduction, if the policy does. -/
def keepShiftReduce (site : Site) (target rule : Nat) : Attempt BuildError Unit :=
  let text := site.grammar.ruleText rule
  if !site.policy.allowShiftReduce then
    throw (.shiftReduceConflict site.state site.symbol target text)
  else if site.policy.report then
    Attempt.emit (.keptShiftReduce site.state site.symbol target text)
  else pure ()

/-- Lets two reductions stand beside each other, if the policy does. -/
def keepReduceReduce (site : Site) (rule other : Nat) : Attempt BuildError Unit :=
  let text := site.grammar.ruleText rule
  let otherText := site.grammar.ruleText other
  if !site.policy.allowReduceReduce then
    throw (.reduceReduceConflict site.state site.symbol text otherText)
  else if site.policy.report then
    Attempt.emit (.keptReduceReduce site.state site.symbol text otherText)
  else pure ()

/-- Adds a shift to a cell. -/
def addShift (site : Site) (c : Cell) (target : Nat) : Attempt BuildError Cell :=
  match c.shift with
  | some first =>
    if first = target then pure c
    else throw (.inconsistentShift site.state site.symbol first target)
  | none => do
    match c.reduces.min? with
    | some rule => site.keepShiftReduce target rule
    | none => pure ()
    return { c with shift := some target }

/-- Adds a reduction to a cell. -/
def addReduce (site : Site) (c : Cell) (rule : Nat) : Attempt BuildError Cell :=
  if rule ∈ c.reduces then pure c
  else do
    match c.shift with
    | some target => site.keepShiftReduce target rule
    | none => pure ()
    match c.reduces.min? with
    | some first => site.keepReduceReduce first rule
    | none => pure ()
    return { c with reduces := c.reduces.insert rule }

/-- Puts something into an entry, which may still be empty. -/
def place (site : Site) : Option Entry → Placement → Attempt BuildError Entry
  | _, .deadEnd => throw (.malformedCell site.state site.symbol)
  | none, .accept => pure .accept
  | none, .goto q => pure (.goto q)
  | none, .shift q => pure (.act { shift := some q })
  | none, .reduce r => pure (.act { reduces := .singleton r })
  | some .accept, .accept => pure .accept
  | some .accept, .reduce r => throw (.acceptConflict site.state (site.grammar.ruleText r))
  | some (.goto q), .goto q2 =>
    if q = q2 then pure (.goto q)
    else throw (.inconsistentGoto site.state site.symbol q q2)
  | some (.act c), .accept =>
    match c.reduces.min? with
    | some r => throw (.acceptConflict site.state (site.grammar.ruleText r))
    | none => throw (.malformedCell site.state site.symbol)
  | some (.act c), .shift q => return .act (← site.addShift c q)
  | some (.act c), .reduce r => return .act (← site.addReduce c r)
  | some _, _ => throw (.malformedCell site.state site.symbol)

end Site

end TreeControl
