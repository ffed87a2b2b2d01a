import TreeControl.Symbol

/-! # Derivation trees

A derivation tree is a node with a symbol and a list of subtrees.  Every node carries a number:
nodes are numbered in the order in which a parse makes them, children before their parent.

A tree is read by levels: level `d` holds the symbols at depth `d` from left to right.  Trees side
by side are read as one by joining their levels. -/

namespace TreeControl

/-- Joins two lists of levels side by side; the longer one goes on alone. -/
def joinLevels {α : Type} : List (List α) → List (List α) → List (List α)
  | [], ls => ls
  | ls, [] => ls
  | k :: ks, l :: ls => (k ++ l) :: joinLevels ks ls

@[simp] theorem joinLevels_nil {α : Type} (ls : List (List α)) : joinLevels ls [] = ls := by
  cases ls <;> rfl

/-- What stands at a depth is what stood there on the left and then on the right. -/
theorem getD_joinLevels {α : Type} (ks ls : List (List α)) (d : Nat) :
    (joinLevels ks ls).getD d [] = ks.getD d [] ++ ls.getD d [] := by
  induction ks generalizing ls d with
  | nil => simp [joinLevels]
  | cons k ks ih =>
    cases ls with
    | nil => simp
    | cons l ls =>
      cases d with
      | zero => rfl
      | succ d => exact ih ls d

/-- Joined levels are as many as there were on the deeper side. -/
theorem length_joinLevels {α : Type} (ks ls : List (List α)) :
    (joinLevels ks ls).length = max ks.length ls.length := by
  induction ks generalizing ls with
  | nil => simp [joinLevels]
  | cons k ks ih =>
    cases ls with
    | nil => simp
    | cons l ls =>
      rw [joinLevels, List.length_cons, ih, List.length_cons, List.length_cons]
      omega

/-- A derivation tree with numbered nodes. -/
inductive Tree where
  | node (id : Nat) (symbol : Symbol) (children : List Tree)
  deriving Repr

namespace Tree

/-- The number of the root. -/
def id : Tree → Nat
  | node id _ _ => id

/-- The symbol at the root. -/
def symbol : Tree → Symbol
  | node _ symbol _ => symbol

/-- The subtrees below the root. -/
def children : Tree → List Tree
  | node _ _ children => children

/-! ### Levels -/

mutual

/-- The symbols of every level, top to bottom. -/
def levels : Tree → List (List Symbol)
  | node _ s ts => [s] :: levelsAll ts

/-- The levels of trees that stand side by side. -/
def levelsAll : List Tree → List (List Symbol)
  | [] => []
  | t :: ts => joinLevels t.levels (levelsAll ts)

end

mutual

/-- The number of levels. -/
def depth : Tree → Nat
  | node _ _ ts => depthAll ts + 1

/-- The number of levels of trees that stand side by side. -/
def depthAll : List Tree → Nat
  | [] => 0
  | t :: ts => max t.depth (depthAll ts)

end

mutual

/-- The depth of a tree is the number of its levels. -/
theorem length_levels : (t : Tree) → t.levels.length = t.depth
  | node _ _ ts => by rw [levels, depth, List.length_cons, length_levelsAll ts]

theorem length_levelsAll : (ts : List Tree) → (levelsAll ts).length = depthAll ts
  | [] => rfl
  | t :: ts => by rw [levelsAll, depthAll, length_joinLevels, length_levels t, length_levelsAll ts]

end

/-! ### Leaves and nodes -/

mutual

/-- The symbols of the nodes without children, from left to right. -/
def leaves : Tree → List Symbol
  | node _ s [] => [s]
  | node _ _ (t :: ts) => t.leaves ++ leavesAll ts

/-- The leaves of trees that stand side by side. -/
def leavesAll : List Tree → List Symbol
  | [] => []
  | t :: ts => t.leaves ++ leavesAll ts

end

mutual

/-- The nodes of a tree, children before their parent. -/
def subtrees : Tree → List Tree
  | node id s ts => subtreesAll ts ++ [node id s ts]

/-- The nodes of trees that stand side by side. -/
def subtreesAll : List Tree → List Tree
  | [] => []
  | t :: ts => t.subtrees ++ subtreesAll ts

end

/-! ### Text -/

/-- A level as text: the names of its symbols with blanks between them. -/
def levelText (level : List Symbol) : String := " ".intercalate (level.map Symbol.name)

/-- The levels as texts, top to bottom. -/
def levelTexts (t : Tree) : List String := t.levels.map levelText

/-- The levels, one to a line, behind their depths. -/
def text (t : Tree) : String :=
  String.join (t.levelTexts.zipIdx.map fun (level, depth) => s!"{depth}: {level}\n")

end Tree

end TreeControl
