import TreeControl.Automaton.Preparation
import TreeControl.Automaton.Union

/-! # Calls

Whatever changes an automaton is a call: one of the operations with its arguments.  Some calls can
fail.  `A.call c` is what a call gives back together with the automaton as it is afterwards, whether
the call failed or not. -/

namespace TreeControl.Automaton

/-- An operation with its arguments, where `α` is what a second automaton is kept in. -/
inductive Call (α : Type) where
  | addState (name : String)
  | addSymbol (s : Symbol)
  | addEdge (source : String) (s : Symbol) (target : String)
  | setStart (name : String)
  | setAccepting (name : String)
  | dropEpsilon
  | determinize
  | collectArrivals
  | prepare
  | join (B : α)

/-- The call with the second automaton kept otherwise. -/
def Call.map {α β : Type} (f : α → β) : Call α → Call β
  | .addState name => .addState name
  | .addSymbol s => .addSymbol s
  | .addEdge source s target => .addEdge source s target
  | .setStart name => .setStart name
  | .setAccepting name => .setAccepting name
  | .dropEpsilon => .dropEpsilon
  | .determinize => .determinize
  | .collectArrivals => .collectArrivals
  | .prepare => .prepare
  | .join B => .join (f B)

/-- An operation that leaves the automaton as it was if it fails, with its answer if it succeeds. -/
def attempt {α : Type} (A : Automaton) (answer : α) :
    Except Error Automaton → Except Error α × Automaton
  | .ok B => (.ok answer, B)
  | .error e => (.error e, A)

/-- What a call gives back, which is a number only for a state that is added, and the automaton
afterwards.  A call to `prepare` that fails has dropped the silent moves, and one to `join` keeps
what was added before. -/
def call (A : Automaton) : Call Automaton → Except Error (Option Nat) × Automaton
  | .addState name => (.ok ((A.addState name).stateId? name), A.addState name)
  | .addSymbol s => (.ok none, A.addSymbol s)
  | .addEdge source s target => A.attempt none (A.addEdge source s target)
  | .setStart name => A.attempt none (A.setStart name)
  | .setAccepting name => A.attempt none (A.setAccepting name)
  | .dropEpsilon => (.ok none, A.dropEpsilon.value)
  | .determinize => A.attempt none A.determinize.outcome
  | .collectArrivals => (.ok none, A.collectArrivals)
  | .prepare => (A.prepare.outcome.map fun _ => none, A.afterPrepare)
  | .join B => ((A.joinInto B).1.map fun _ => none, (A.joinInto B).2)

/-- The automaton after a call. -/
def after (A : Automaton) (c : Call Automaton) : Automaton := (A.call c).2

/-- The automata that calls lead to, beginning with the empty one; what is joined comes about in the
same way. -/
inductive Reachable : Automaton → Prop
  | empty : Reachable {}
  | call {A : Automaton} (c : Call Automaton) :
      Reachable A → (∀ B, c = .join B → Reachable B) → Reachable (A.after c)

end TreeControl.Automaton
