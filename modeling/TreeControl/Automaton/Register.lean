import TreeControl.Automaton.Call
import TreeControl.Automaton.Text

/-! # Automata in a register

An automaton can be kept in two places that have to agree: a list of states, each with its own name and
its own rules, and a map from names to numbers of states.  The operations on such a register change
it step by step (`Register.Edit`), and a change made before a failure stays.

Numbers that one place holds are looked up in another.  If there is no such state, the operation
comes to an end with a failure of its own (`Failure.outOfRange`), which no caller is told to expect,
as does a loop that has used up its rounds (`Failure.unfinished`). -/

namespace TreeControl

/-- For a state and each symbol that it has rules for, where they lead. -/
abbrev Rules := OrdMap Symbol (OrdSet Nat)

/-- The rules with more states that a symbol leads to. -/
def Rules.add (m : Rules) (s : Symbol) (qs : OrdSet Nat) : Rules :=
  m.insert s ((m.get? s).getD ∅ ∪ qs)

/-- The rules with other rules added. -/
def Rules.addAll (m : Rules) (rules : List (Symbol × OrdSet Nat)) : Rules :=
  rules.foldl (fun m e => m.add e.1 e.2) m

namespace Register

/-- A state with everything that is kept about it. -/
structure State where
  name : String
  accepting : Bool := false
  rules : Rules := ∅
  deriving DecidableEq

/-- Why an operation on a register does not come to its end. -/
inductive Failure where
  /-- The operation is refused. -/
  | refused (reason : Automaton.Error)
  /-- A number that is looked up is that of no state. -/
  | outOfRange (id : Nat)
  /-- A loop has used up its rounds. -/
  | unfinished
  deriving DecidableEq, Repr

end Register

/-- An automaton as a list of states and a map from names to numbers. -/
structure Register where
  /-- A state's number is its index. -/
  states : List Register.State := []
  names : OrdMap String Nat := ∅
  alphabet : OrdSet Symbol := ∅
  start : Option Nat := none
  arrivals : Option Rules := none
  deriving DecidableEq

namespace Register

/-- A change of a register.  What was changed before a failure stays changed. -/
abbrev Edit := EStateM Failure Register

/-! ### Reading -/

/-- The state with a number that has to be in range. -/
def stateAt (states : List State) (id : Nat) : Except Failure State :=
  match states[id]? with
  | some st => .ok st
  | none => .error (.outOfRange id)

/-- The name of a state, or its number behind a hash sign if there is no such state. -/
def label (R : Register) (id : Nat) : String := (R.states[id]?.map State.name).getD s!"#{id}"

/-- The states that a state leads to on a symbol. -/
def targets (R : Register) (id : Nat) (s : Symbol) : OrdSet Nat :=
  (R.states[id]?.bind (·.rules.get? s)).getD ∅

/-! ### Building -/

/-- Gives up for a reason. -/
def refuse {α : Type} (reason : Automaton.Error) : Edit α := throw (.refused reason)

/-- Changes the state with a number that has to be in range. -/
def change (id : Nat) (f : State → State) : Edit Unit := do
  let R : Register ← get
  let _ ← MonadExcept.ofExcept (stateAt R.states id)
  set { R with states := R.states.modify id f }

/-- The number of a state that has to exist. -/
def findState (name : String) : Edit Nat := do
  match (← get).names.get? name with
  | some id => return id
  | none => refuse (.undefinedState name)

/-- Adds a state, unless there is one of that name, and gives its number. -/
def addState (name : String) : Edit Nat := do
  let R : Register ← get
  match R.names.get? name with
  | some id => return id
  | none =>
    let id := R.states.length
    set { R with
      states := R.states ++ [({ name := name } : State)]
      names := R.names.insert name id
      arrivals := none }
    return id

/-- Adds a symbol to the alphabet. -/
def addSymbol (s : Symbol) : Edit Unit :=
  modify fun R : Register => { R with alphabet := R.alphabet.insert s, arrivals := none }

/-- Adds a transition between named states.  Its symbol is in the alphabet or blank. -/
def addEdge (source : String) (s : Symbol) (target : String) : Edit Unit := do
  let p ← findState source
  let q ← findState target
  if s.isBlank || s ∈ (← get).alphabet then
    change p fun st => { st with rules := st.rules.add s (.singleton q) }
    modify fun R : Register => { R with arrivals := none }
  else
    refuse (.undefinedSymbol s)

/-- Chooses the start state, once and for all. -/
def setStart (name : String) : Edit Unit := do
  let R : Register ← get
  match R.start with
  | some p =>
    let st ← MonadExcept.ofExcept (stateAt R.states p)
    refuse (.duplicateStart st.name)
  | none =>
    let p ← findState name
    modify fun R : Register => { R with start := some p }

/-- Makes a state accepting. -/
def setAccepting (name : String) : Edit Unit := do
  let p ← findState name
  change p fun st => { st with accepting := true }

/-! ### Moves that read nothing -/

/-- The ends of the moves that read nothing. -/
def silentEnds (R : Register) : List Nat :=
  R.states.flatMap fun st => ((st.rules.get? .blank).getD ∅).toList

/-- The states that a state can go to without reading, itself included. -/
def closure (R : Register) (id : Nat) : OrdSet Nat :=
  .ofList (explore (fun p => (R.targets p .blank).toList) (R.silentEnds.length + 1) [] [id])

/-- Lets a state take over what another one does after reading. -/
def takeOver (p : Nat) (other : State) : Edit Unit := do
  other.rules.entries.forM fun e => do
    unless e.1.isBlank do
      change p fun st => { st with rules := st.rules.add e.1 e.2 }
  if other.accepting then
    change p fun st => { st with accepting := true }

/-- Removes the moves that read nothing.  What is taken over is always read from the register as it
was in the beginning. -/
def dropEpsilon : Edit Unit := do
  let R : Register ← get
  (List.range R.states.length).forM fun p => do
    (R.closure p).toList.forM fun q => do
      takeOver p (← MonadExcept.ofExcept (stateAt R.states q))
    change p fun st => { st with rules := st.rules.erase .blank }
  modify fun R : Register => { R with arrivals := none }

/-! ### Subset construction -/

/-- The names of the states of a set in ascending order, joined by underscores. -/
def setName (R : Register) (set : OrdSet Nat) : String :=
  "_".intercalate (sortTexts (set.toList.map R.label))

/-- The deterministic automaton while it is made. -/
structure Building where
  /-- The number of every set that was met. -/
  ids : OrdMap (OrdSet Nat) Nat
  /-- The sets by number. -/
  subsets : List (OrdSet Nat)
  /-- The states that stand for the sets. -/
  states : List State
  names : OrdMap String Nat
  /-- The numbers of the sets that are still to be visited. -/
  queue : List Nat

/-- The beginning, with the set of the start state alone. -/
def Building.first (start : Nat) (st : State) : Building where
  ids := (∅ : OrdMap (OrdSet Nat) Nat).insert (.singleton start) 0
  subsets := [.singleton start]
  states := [{ name := st.name, accepting := st.accepting }]
  names := (∅ : OrdMap String Nat).insert st.name 0
  queue := [0]

/-- The number of a set; one that is new gets a number and a state. -/
def Building.number (R : Register) (b : Building) (set : OrdSet Nat) :
    Except Failure (Nat × Building) :=
  match b.ids.get? set with
  | some id => .ok (id, b)
  | none => do
    let id := b.states.length
    let name := unusedName '\'' b.names.keys (R.setName set)
    let accepting ← set.toList.anyM fun q => (stateAt R.states q).map State.accepting
    return (id, {
      ids := b.ids.insert set id
      subsets := b.subsets ++ [set]
      states := b.states ++ [{ name := name, accepting := accepting }]
      names := b.names.insert name id
      queue := b.queue ++ [id] })

/-- Lets the state that is visited lead to the state of a set. -/
def Building.follow (R : Register) (current : Nat) (b : Building) (e : Symbol × OrdSet Nat) :
    Except Failure Building := do
  let (id, b) ← b.number R e.2
  let _ ← stateAt b.states current
  return { b with states := b.states.modify current fun st =>
    { st with rules := st.rules.insert e.1 (.singleton id) } }

/-- What the states of a set lead to together. -/
def unitedRules (R : Register) (set : OrdSet Nat) : Except Failure Rules :=
  set.toList.foldlM (fun m q => (stateAt R.states q).map fun st => m.addAll st.rules.entries) ∅

/-- Visits a set. -/
def Building.visit (R : Register) (current : Nat) (b : Building) : Except Failure Building :=
  match b.subsets[current]? with
  | none => .error (.outOfRange current)
  | some set => do (← R.unitedRules set).entries.foldlM (follow R current) b

/-- Visits one set after the other until none is left. -/
def Building.run (R : Register) : Nat → Building → Except Failure Building
  | 0, b => if b.queue.isEmpty then .ok b else .error .unfinished
  | rounds + 1, b =>
    match b.queue with
    | [] => .ok b
    | current :: queue => do run R rounds (← visit R current { b with queue := queue })

/-- Makes the automaton deterministic.  It needs a start state and must not have moves that read
nothing.  There are no more sets of states than rounds. -/
def determinize : Edit Unit := do
  let R : Register ← get
  match R.start with
  | none => refuse .missingStart
  | some start =>
    match R.states.find? (·.rules.contains .blank) with
    | some st => refuse (.epsilonTransitions st.name)
    | none =>
      let st ← MonadExcept.ofExcept (stateAt R.states start)
      let b ← MonadExcept.ofExcept (Building.run R (Nat.pow 2 R.states.length) (.first start st))
      set { R with states := b.states, names := b.names, start := some 0, arrivals := none }

/-! ### Arrivals -/

/-- For every symbol of the alphabet, the states that rules for it lead to. -/
def collected (R : Register) : Rules :=
  (R.states.flatMap (·.rules.entries)).foldl (fun m e => m.modify e.1 (· ∪ e.2))
    (.ofKeys R.alphabet fun _ => ∅)

/-- Notes for every symbol of the alphabet where its transitions lead. -/
def collectArrivals : Edit Unit := modify fun R : Register => { R with arrivals := some R.collected }

/-- Prepares the automaton. -/
def prepare : Edit Unit := do
  dropEpsilon
  determinize
  collectArrivals

/-! ### Joining -/

/-- Adds a state of another register. -/
def joinState (st : State) : Edit Unit := do
  let _ ← addState st.name
  if st.accepting then setAccepting st.name

/-- Adds the rules of a state of another register, which finds the ends by their names. -/
def joinRules (other : List State) (st : State) : Edit Unit :=
  st.rules.entries.forM fun e =>
    e.2.toList.forM fun q => do
      let target ← MonadExcept.ofExcept (stateAt other q)
      addEdge st.name e.1 target.name

/-- Adds everything of another register but its start state. -/
def addRegister (other : Register) : Edit Unit := do
  other.alphabet.toList.forM addSymbol
  other.states.forM joinState
  other.states.forM (joinRules other.states)

/-- Adds everything of another register and lets the start state silently go to that of the other
one. -/
def join (other : Register) : Edit Unit := do
  let R : Register ← get
  match R.start, other.start with
  | some p, some q =>
    addRegister other
    let source ← MonadExcept.ofExcept (stateAt (← get).states p)
    let target ← MonadExcept.ofExcept (stateAt other.states q)
    addEdge source.name .blank target.name
  | _, _ => refuse .missingStart

/-! ### Calls -/

/-- Carries out a call. -/
def perform : Automaton.Call Register → Edit (Option Nat)
  | .addState name => do return some (← addState name)
  | .addSymbol s => do addSymbol s; return none
  | .addEdge source s target => do addEdge source s target; return none
  | .setStart name => do setStart name; return none
  | .setAccepting name => do setAccepting name; return none
  | .dropEpsilon => do dropEpsilon; return none
  | .determinize => do determinize; return none
  | .collectArrivals => do collectArrivals; return none
  | .prepare => do prepare; return none
  | .join other => do join other; return none

/-- The register after a call, whether it fails or not. -/
def after (R : Register) (c : Automaton.Call Register) : Register :=
  match (perform c).run R with
  | .ok _ R' => R'
  | .error _ R' => R'

/-- The registers that calls lead to, beginning with the empty one; what is joined comes about in the
same way. -/
inductive Reachable : Register → Prop
  | empty : Reachable {}
  | call {R : Register} (c : Automaton.Call Register) :
      Reachable R → (∀ S, c = .join S → Reachable S) → Reachable (R.after c)

/-! ### Runs and the listing -/

/-- The one state that a state leads to on a symbol. -/
def advance? (R : Register) (s : Symbol) (id : Nat) : Option Nat :=
  match (R.targets id s).toList with
  | [q] => some q
  | _ => none

/-- Reads a word from a state and tells whether it ends in an accepting state. -/
def acceptsFrom (R : Register) : List Symbol → Nat → Except Failure Bool
  | [], id => (stateAt R.states id).map State.accepting
  | s :: ss, id =>
    match R.advance? s id with
    | some q => R.acceptsFrom ss q
    | none => if s ∈ R.alphabet then .ok false else .error (.refused (.unknownSymbol s))

/-- Reads a word from the start state. -/
def accepts (R : Register) (word : List Symbol) : Except Failure Bool :=
  match R.start with
  | none => .error (.refused .missingStart)
  | some id => R.acceptsFrom word id

/-- The transitions of a state on a symbol, one to a line, by the name of the target. -/
def edgeLines (R : Register) (st : State) (e : Symbol × OrdSet Nat) :
    Except Failure (List String) := do
  let names ← e.2.toList.mapM fun q => (stateAt R.states q).map State.name
  return (sortTexts names).map fun target =>
    s!"    {st.name} {Automaton.quoteSymbol e.1} -> {target};\n"

/-- The name of the start state, or nothing if there is none. -/
def startName (R : Register) : Except Failure String :=
  match R.start with
  | none => .ok ""
  | some p => (stateAt R.states p).map State.name

/-- The listing of the automaton, with its states in the order of their names. -/
def text (R : Register) : Except Failure String := do
  let states ← (R.names.entries.map Prod.snd).mapM (stateAt R.states)
  let lines ← states.mapM fun st => st.rules.entries.mapM (R.edgeLines st)
  let start ← R.startName
  return "(\n" ++
    "  " ++ Automaton.braced (states.map State.name) ++ ",\n" ++
    "  " ++ Automaton.braced (R.alphabet.toList.map Automaton.quoteSymbol) ++ ",\n" ++
    "  \x7b\n" ++ String.join lines.flatten.flatten ++ "  \x7d,\n" ++
    "  " ++ start ++ ",\n" ++
    "  " ++ Automaton.braced ((states.filter State.accepting).map State.name) ++ "\n" ++
    ")"

end Register

end TreeControl
