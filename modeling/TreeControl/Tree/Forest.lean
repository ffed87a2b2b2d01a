import TreeControl.Automaton.Position
import TreeControl.Grammar.Basic
import TreeControl.Tree.Basic

/-! # Growing a tree under a level automaton

A parse builds its tree from the leaves.  A forest is the stack of the subtrees built so far: a
shift pushes a leaf, a reduction merges the topmost subtrees under a new root.

If the forest has a level automaton, every subtree also keeps, level by level, the position of the
automaton after the subtree's part of that level.  The bottom subtree begins every level, so its
positions start from the start state.  For the others it is unknown what stands to their left;
their levels are read again, symbol by symbol, when a reduction puts them to the right of a
sibling. -/

namespace TreeControl

/-- Why a tree cannot grow or be finished. -/
inductive TreeError where
  /-- Levels cannot be checked without an automaton. -/
  | noAutomaton
  /-- A rule needs more subtrees than there are. -/
  | stackUnderflow (rule : Rule) (available : Nat)
  /-- The level automaton refuses a symbol. -/
  | rejected (depth : Nat) (symbol : Symbol) (cause : Automaton.Error)
  /-- A level does not end in an accepting state. -/
  | unfinishedLevel (depth : Nat) (level : List Symbol)
  /-- There is not exactly one tree. -/
  | notSingleRoot (count : Nat)
  deriving DecidableEq, Repr

/-- The wording of an error. -/
def TreeError.message : TreeError → String
  | noAutomaton => "can't check tree levels without a level automaton"
  | stackUnderflow r n =>
    s!"rule {r.text} needs {r.rhs.length} subtrees but only {n} are on the stack"
  | rejected d s e =>
    s!"symbol '{s.name}' at depth {d} is rejected by the level automaton: {e.message}"
  | unfinishedLevel d level =>
    s!"level {d} ({Tree.levelText level}) is not in a final state at column {level.length}"
  | notSingleRoot n => s!"expected a single root, found {n} subtrees"

/-- A subtree with the positions of the level automaton behind its levels. -/
structure Subtree where
  tree : Tree
  positions : List Position

/-- The subtrees of an unfinished tree. -/
structure Forest where
  /-- What checks the levels, if anything does. -/
  automaton : Option Automaton := none
  /-- The subtrees, the rightmost and latest first. -/
  stack : List Subtree := []
  /-- The number that the next node gets. -/
  nextId : Nat := 0

namespace Forest

/-- The subtrees from left to right. -/
def trees (f : Forest) : List Tree := (f.stack.map Subtree.tree).reverse

/-- The levels of all subtrees, joined from left to right. -/
def levels (f : Forest) : List (List Symbol) := Tree.levelsAll f.trees

/-! ### Reading levels -/

/-- Where the level automaton starts a level: at its start state if nothing stands to the left,
anywhere otherwise. -/
def seed (A : Automaton) (leftmost : Bool) : Except TreeError Position :=
  if leftmost then
    match A.start with
    | some id => .ok (.known id)
    | none => .error (.rejected 0 .blank .missingStart)
  else .ok .unknown

/-- Reads a symbol at a depth. -/
def readSymbol (A : Automaton) (depth : Nat) (p : Position) (s : Symbol) :
    Except TreeError Position :=
  (A.step s p).mapError (.rejected depth s)

/-- Reads levels behind the positions reached so far; a level without a position begins at
`seed`. -/
def readLevels (A : Automaton) (seed : Position) :
    Nat → List (List Symbol) → List Position → Except TreeError (List Position)
  | _, [], ps => .ok ps
  | depth, level :: levels, ps => do
    let p ← level.foldlM (readSymbol A depth) (ps.headD seed)
    let rest ← readLevels A seed (depth + 1) levels ps.tail
    return p :: rest

/-! ### Growing -/

/-- Pushes a leaf. -/
def pushLeaf (f : Forest) (s : Symbol) : Except TreeError Forest := do
  let positions ← match f.automaton with
    | none => pure []
    | some A => do
      let p ← seed A f.stack.isEmpty
      let q ← readSymbol A 0 p s
      pure [q]
  return { f with
    stack := ⟨.node f.nextId s [], positions⟩ :: f.stack
    nextId := f.nextId + 1 }

/-- The subtrees that a rule would merge, from left to right, and the subtrees below them. -/
def split (f : Forest) (r : Rule) : Except TreeError (List Subtree × List Subtree) :=
  if r.rhs.length ≤ f.stack.length then
    .ok ((f.stack.take r.rhs.length).reverse, f.stack.drop r.rhs.length)
  else .error (.stackUnderflow r f.stack.length)

/-- The positions behind the levels of subtrees side by side: the first keeps its own, the others
are read again behind it. -/
def readSiblings (A : Automaton) (seed : Position) : List Subtree → Except TreeError (List Position)
  | [] => .ok []
  | t :: ts => ts.foldlM (fun ps u => readLevels A seed 1 u.tree.levels ps) t.positions

/-- The positions behind the levels of the subtree that a rule would make, without making it. -/
def preview (f : Forest) (r : Rule) : Except TreeError (List Position) :=
  match f.automaton with
  | none => .error .noAutomaton
  | some A => do
    let (merged, below) ← f.split r
    let p ← seed A below.isEmpty
    let rest ← readSiblings A p merged
    let head ← readSymbol A 0 p r.lhs
    return head :: rest

/-- The positions that a reduction stores: those given, else those that the levels yield. -/
def positionsFor (f : Forest) (r : Rule) : Option (List Position) → Except TreeError (List Position)
  | some ps => .ok ps
  | none => if f.automaton.isSome then f.preview r else .ok []

/-- Merges the topmost subtrees under a new root.  Positions already known from `preview` need not
be computed again. -/
def merge (f : Forest) (r : Rule) (known : Option (List Position)) : Attempt TreeError Forest := do
  let positions ← Attempt.ofExcept (f.positionsFor r known)
  let (merged, below) ← Attempt.ofExcept (f.split r)
  let tree := Tree.node f.nextId r.lhs (merged.map Subtree.tree)
  Attempt.emit (.merged r.text tree.depth)
  return { f with stack := ⟨tree, positions⟩ :: below, nextId := f.nextId + 1 }

/-! ### Finishing -/

/-- The first level, of those that have a position, that does not end in an accepting state. -/
def unfinished? (A : Automaton) (t : Subtree) : Option TreeError :=
  (t.positions.zipIdx.find? fun p => !A.isAccepting p.1).map fun p =>
    .unfinishedLevel p.2 (t.tree.levels[p.2]?.getD [])

/-- Checks that every level of the leftmost subtree ends in an accepting state. -/
def finalCheck (f : Forest) : Except TreeError Unit :=
  match f.automaton, f.stack.getLast? with
  | some A, some t =>
    match unfinished? A t with
    | some e => .error e
    | none => .ok ()
  | _, _ => .ok ()

/-- The finished tree: the only one there is. -/
def finish (f : Forest) : Except TreeError Tree :=
  match f.stack with
  | [t] => .ok t.tree
  | ts => .error (.notSingleRoot ts.length)

end Forest

end TreeControl
