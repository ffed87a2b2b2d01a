import TreeControl.Symbol

/-! # Operator precedence

A precedence table puts symbols into numbered groups; the group declared first binds tightest.
Faced with a symbol on the stack and a lookahead it says whether to reduce first or to shift:
the tighter group wins, and inside a group the associativity of the symbol on the stack
decides. -/

namespace TreeControl

/-- What happens between two symbols of one group. -/
inductive Associativity where
  /-- The stack is reduced. -/
  | left
  /-- The lookahead is shifted. -/
  | right
  /-- They may not meet. -/
  | nonassoc
  deriving DecidableEq, Repr

/-- The word for an associativity in a listing. -/
def Associativity.text : Associativity → String
  | left => "Left"
  | right => "Right"
  | nonassoc => "NonAssoc"

/-- What precedence decides between a shift and a reduction. -/
inductive Verdict where
  | shift
  | reduce
  deriving DecidableEq, Repr

/-- The word for a verdict in a trace. -/
def Verdict.text : Verdict → String
  | shift => "Shift"
  | reduce => "Reduce"

/-- How a symbol binds. -/
structure Binding where
  associativity : Associativity
  /-- The number of the group; a smaller number binds tighter. -/
  group : Nat
  deriving DecidableEq, Repr

/-- A precedence table. -/
structure Precedence where
  /-- The symbols with a precedence. -/
  bindings : OrdMap Symbol Binding := ∅
  /-- The number that the next group gets. -/
  groups : Nat := 0
  deriving DecidableEq

namespace Precedence

instance : Inhabited Precedence := ⟨{}⟩

/-- Why a declaration or a comparison fails. -/
inductive Error where
  /-- The symbol already belongs to a group. -/
  | duplicate (symbol : Symbol)
  /-- One of the two symbols belongs to no group. -/
  | missing (onStack lookahead : Symbol)
  /-- A non-associative symbol met one of its own group. -/
  | nonassociative (onStack : Symbol)
  deriving DecidableEq, Repr

/-- The wording of an error. -/
def Error.message : Error → String
  | duplicate s => s!"precedence for '{s.name}' is defined twice"
  | missing s t => s!"no precedence rule for symbols '{s.name}' and '{t.name}'"
  | nonassociative s => s!"non-associative token '{s.name}' is on the stack"

/-! ### Declaring groups -/

/-- Gives symbols a binding one after the other, up to the first that has one; that one is the
second component. -/
def bindAll (b : Binding) :
    List Symbol → OrdMap Symbol Binding → OrdMap Symbol Binding × Option Symbol
  | [], m => (m, none)
  | s :: ss, m => if m.contains s then (m, some s) else bindAll b ss (m.insert s b)

/-- Declares the next group.  At a symbol that already has a group the declaration stops: the
symbols before it stay bound, and the number of the group is not used up. -/
def declare (p : Precedence) (a : Associativity) (symbols : List Symbol) :
    Precedence × Except Error Unit :=
  match bindAll ⟨a, p.groups⟩ symbols p.bindings with
  | (m, none) => (⟨m, p.groups + 1⟩, .ok ())
  | (m, some s) => (⟨m, p.groups⟩, .error (.duplicate s))

/-! ### Comparing -/

/-- Whether a symbol belongs to a group. -/
def binds (p : Precedence) (s : Symbol) : Bool := p.bindings.contains s

/-- Decides between reducing below `onStack` and shifting `lookahead`. -/
def verdict (p : Precedence) (onStack lookahead : Symbol) : Except Error Verdict :=
  match p.bindings.get? onStack, p.bindings.get? lookahead with
  | some s, some l =>
    if s.group = l.group then
      match s.associativity with
      | .left => .ok .reduce
      | .right => .ok .shift
      | .nonassoc => .error (.nonassociative onStack)
    else if s.group < l.group then .ok .reduce
    else .ok .shift
  | _, _ => .error (.missing onStack lookahead)

/-! ### Listing -/

/-- One line per symbol: its name, the number of its group and the associativity. -/
def text (p : Precedence) : String :=
  String.join (p.bindings.entries.map fun e =>
    s!"{e.1.name}: {e.2.group}, {e.2.associativity.text}\n")

end Precedence

end TreeControl
