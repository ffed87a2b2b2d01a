/-! # Conflict policies

A parse table may keep cells with several actions and leave the choice to the parser.  A policy
says which kinds of conflict are kept and in which order the parser tries to settle them. -/

namespace TreeControl

/-- The means of settling a conflict while parsing. -/
inductive Resolver where
  /-- Compare the lookahead with the symbols on the stack. -/
  | precedence
  /-- Check which reductions keep the levels of the tree acceptable. -/
  | levels
  deriving DecidableEq, Repr

/-- Which resolver is tried first. -/
inductive ResolutionOrder where
  | precedenceFirst
  | levelsFirst
  deriving DecidableEq, Repr, Inhabited

/-- Both resolvers, in order. -/
def ResolutionOrder.resolvers : ResolutionOrder → List Resolver
  | precedenceFirst => [.precedence, .levels]
  | levelsFirst => [.levels, .precedence]

/-- Which conflicts a table keeps, and how the parser settles them. -/
structure Policy where
  /-- Keep cells in which a shift competes with a reduction. -/
  allowShiftReduce : Bool := false
  /-- Keep cells in which reductions compete. -/
  allowReduceReduce : Bool := false
  order : ResolutionOrder := .precedenceFirst
  /-- Report every conflict that is kept. -/
  report : Bool := false
  deriving DecidableEq, Repr, Inhabited

namespace Policy

/-- No conflict is kept. -/
def strict : Policy := {}

/-- The policy that fits the means at hand: precedence or a level automaton can settle a shift
against a reduction, only a level automaton can settle two reductions. -/
def forMeans (precedence automaton : Bool) : Policy where
  allowShiftReduce := precedence || automaton
  allowReduceReduce := automaton

/-- The policy with another order of resolvers. -/
def withOrder (p : Policy) (order : ResolutionOrder) : Policy := { p with order }

/-- The policy with reports switched on or off. -/
def withReport (p : Policy) (report : Bool) : Policy := { p with report }

end Policy

end TreeControl
