import TreeControl.Proofs.Grammar.Derivation
import TreeControl.Proofs.Tree.Positions

/-! # Forests laid out in an arena

A forest can be kept without trees: an arena (`Arena`) has one list of nodes, each with the numbers
of its children, and a stack of blocks, each with the number of a root and, level by level, the
numbers of the nodes below it.  A reduction appends a node and splices the levels of the blocks that
it takes off the stack.  These operations change the arena step by step, and a change made before a failure would
stay (`Arena.Edit`).

Every forest has its arena (`Forest.arena`).  While the nodes of a forest are numbered in the order in
which they are made, children before their parent and one tree after the other (`Forest.Numbered`), a
call does to the arena of a forest what it does to the forest: it gives the same answer and leaves the
arena of the forest afterwards behind (`Forest.Numbered.call_arena`). -/

namespace TreeControl

/-! ### Arenas -/

/-- A node of an arena, with the numbers of its children from left to right. -/
structure Node where
  symbol : Symbol
  children : List Nat
  deriving DecidableEq, Repr

/-- A subtree of an arena. -/
structure Arena.Block where
  root : Nat
  /-- The nodes of every level from left to right, top to bottom. -/
  levels : List (List Nat)
  positions : List Position
  deriving DecidableEq

/-- The nodes and the subtrees of an unfinished tree. -/
structure Arena where
  automaton : Option Automaton := none
  /-- A node's number is its index. -/
  nodes : List Node := []
  /-- The subtrees, the leftmost and earliest first. -/
  stack : List Arena.Block := []

namespace Arena

/-- A change of an arena.  What was changed before a failure stays changed. -/
abbrev Edit := ExceptT TreeError (StateM Arena)

/-- What a change of an arena gives and the arena afterwards. -/
def Edit.on {α : Type} (x : Edit α) (a : Arena) : Except TreeError α × Arena := x.run.run a

/-- The symbol of a node. -/
def symbolOf (nodes : List Node) (i : Nat) : Symbol := (nodes[i]?.map Node.symbol).getD .blank

/-- The symbols of levels of nodes. -/
def symbols (nodes : List Node) (levels : List (List Nat)) : List (List Symbol) :=
  levels.map (·.map (symbolOf nodes))

/-- Appends a node and gives its number. -/
def addNode (s : Symbol) (children : List Nat) : Edit Nat := do
  let a : Arena ← get
  set { a with nodes := a.nodes ++ [Node.mk s children] }
  return a.nodes.length

/-- The positions behind a leaf that is pushed. -/
def leafPositions (a : Arena) (s : Symbol) : Except TreeError (List Position) :=
  match a.automaton with
  | none => .ok []
  | some A => do
    let p ← Forest.seed A a.stack.isEmpty
    let q ← Forest.readSymbol A 0 p s
    return [q]

/-- Pushes a leaf. -/
def pushLeaf (s : Symbol) : Edit Unit := do
  let positions ← MonadExcept.ofExcept ((← get).leafPositions s)
  let root ← addNode s []
  modify fun a : Arena => { a with stack := a.stack ++ [⟨root, [[root]], positions⟩] }

/-- The number of subtrees that a rule leaves alone. -/
def splitPoint (a : Arena) (r : Rule) : Except TreeError Nat :=
  if r.rhs.length ≤ a.stack.length then .ok (a.stack.length - r.rhs.length)
  else .error (.stackUnderflow r a.stack.length)

/-- Reads the levels of subtrees side by side; the first keeps its positions. -/
def readBlocks (A : Automaton) (seed : Position) :
    List (List (List Symbol) × List Position) → Except TreeError (List Position)
  | [] => .ok []
  | b :: bs => bs.foldlM (fun ps c => Forest.readLevels A seed 1 c.1 ps) b.2

/-- The positions behind the levels of the subtree that a rule would make. -/
def preview (a : Arena) (r : Rule) : Except TreeError (List Position) :=
  match a.automaton with
  | none => .error .noAutomaton
  | some A => do
    let k ← a.splitPoint r
    let p ← Forest.seed A (k == 0)
    let rest ← readBlocks A p ((a.stack.drop k).map fun b => (symbols a.nodes b.levels, b.positions))
    let head ← Forest.readSymbol A 0 p r.lhs
    return head :: rest

/-- The positions that a reduction stores. -/
def positionsFor (a : Arena) (r : Rule) : Option (List Position) → Except TreeError (List Position)
  | some ps => .ok ps
  | none => if a.automaton.isSome then a.preview r else .ok []

/-- Merges the topmost subtrees under a new root. -/
def merge (r : Rule) (known : Option (List Position)) : Edit Unit := do
  let positions ← MonadExcept.ofExcept ((← get).positionsFor r known)
  let k ← MonadExcept.ofExcept ((← get).splitPoint r)
  let children := (← get).stack.drop k
  modify fun a : Arena => { a with stack := a.stack.take k }
  let levels := children.foldl (fun levels c => joinLevels levels c.levels) []
  let root ← addNode r.lhs (children.map Block.root)
  modify fun a : Arena => { a with stack := a.stack ++ [⟨root, [root] :: levels, positions⟩] }

/-- Performs a call. -/
def perform : Forest.Call → Edit (List Position)
  | .push s => do
    pushLeaf s
    return []
  | .preview r => do MonadExcept.ofExcept ((← get).preview r)
  | .merge r known => do
    merge r known
    return []

/-- The answer to a call and the arena afterwards. -/
def call (a : Arena) (c : Forest.Call) : Except TreeError (List Position) × Arena :=
  (perform c).on a

variable {α β : Type} {a : Arena} {r : Rule} {known : Option (List Position)} {s : Symbol}
  {ps : List Position} {k : Nat} {e : TreeError}

/-! ### What a call does to an arena -/

theorem Edit.on_bind (x : Edit α) (f : α → Edit β) (a : Arena) :
    (x >>= f).on a =
      match (x.on a).1 with
      | .ok v => (f v).on (x.on a).2
      | .error e => (.error e, (x.on a).2) := by
  show ExceptT.bindCont f (x.on a).1 (x.on a).2 = _
  cases (x.on a).1 <;> rfl

theorem Edit.on_pure (v : α) (a : Arena) : (pure v : Edit α).on a = (.ok v, a) := rfl

theorem Edit.on_get (a : Arena) : (get : Edit Arena).on a = (.ok a, a) := rfl

theorem Edit.on_set (a b : Arena) : (set b : Edit PUnit).on a = (.ok ⟨⟩, b) := rfl

theorem Edit.on_modify (f : Arena → Arena) (a : Arena) :
    (modify f : Edit PUnit).on a = (.ok ⟨⟩, f a) := rfl

theorem Edit.on_ofExcept (x : Except TreeError α) (a : Arena) :
    (MonadExcept.ofExcept x : Edit α).on a = (x, a) := by
  cases x <;> rfl

theorem call_preview (a : Arena) (r : Rule) : a.call (.preview r) = (a.preview r, a) := by
  simp only [call, perform, Edit.on_bind, Edit.on_get, Edit.on_ofExcept]

/-- The arena after a reduction that leaves `k` subtrees alone. -/
def merged (a : Arena) (r : Rule) (ps : List Position) (k : Nat) : Arena :=
  { a with
    nodes := a.nodes ++ [⟨r.lhs, (a.stack.drop k).map Block.root⟩]
    stack := a.stack.take k ++ [⟨a.nodes.length, [a.nodes.length] ::
      (a.stack.drop k).foldl (fun levels c => joinLevels levels c.levels) [], ps⟩] }

/-- A reduction asks everything that it may fail at before it changes anything. -/
theorem call_merge (a : Arena) (r : Rule) (known : Option (List Position)) :
    a.call (.merge r known) =
      match a.positionsFor r known, a.splitPoint r with
      | .error e, _ => (.error e, a)
      | .ok _, .error e => (.error e, a)
      | .ok ps, .ok k => (.ok [], a.merged r ps k) := by
  simp only [call, perform, merge, addNode, Edit.on_bind, Edit.on_get, Edit.on_ofExcept]
  cases a.positionsFor r known with
  | error e => rfl
  | ok ps =>
    cases a.splitPoint r with
    | error e => rfl
    | ok k => rfl

theorem leafPositions_eq (a : Arena) (s : Symbol) :
    a.leafPositions s = a.positionsFor ⟨s, []⟩ none := by
  unfold leafPositions positionsFor preview splitPoint
  cases a.automaton with
  | none => rfl
  | some A =>
    have hempty : a.stack.isEmpty = (a.stack.length == 0) := by
      cases a.stack <;> rfl
    simp only [List.length_nil, Nat.zero_le, if_true, Nat.sub_zero, List.drop_length, List.map_nil,
      readBlocks, hempty, Option.isSome_some, bind, Except.bind]

/-- Pushing a leaf is reducing by a rule with nothing on its right side. -/
theorem call_push (a : Arena) (s : Symbol) : a.call (.push s) = a.call (.merge ⟨s, []⟩ none) := by
  have hsplit : a.splitPoint ⟨s, []⟩ = .ok a.stack.length := by simp [splitPoint]
  rw [call_merge, hsplit, ← leafPositions_eq]
  simp only [call, perform, pushLeaf, addNode, Edit.on_bind, Edit.on_get, Edit.on_ofExcept]
  cases a.leafPositions s with
  | error e => rfl
  | ok ps =>
    simp only [Edit.on_set, Edit.on_pure, Edit.on_modify, merged, List.drop_length, List.take_length,
      List.map_nil, List.foldl_nil]

theorem call_of_error {c : Forest.Call} (h : (a.call c).1 = .error e) : (a.call c).2 = a := by
  have merge_of_error : ∀ {r known}, (a.call (.merge r known)).1 = .error e →
      (a.call (.merge r known)).2 = a := by
    intro r known h
    rw [call_merge] at h ⊢
    split at h
    · rfl
    · rfl
    · cases h
  cases c with
  | push s =>
    rw [call_push] at h ⊢
    exact merge_of_error h
  | preview r => rw [call_preview]
  | merge r known => exact merge_of_error h

end Arena

/-! ### The levels of a tree, node by node -/

namespace Tree

mutual

/-- The subtrees of a tree whose roots stand on each level, from left to right and top to bottom. -/
def rows : Tree → List (List Tree)
  | node id s ts => [node id s ts] :: rowsAll ts

/-- The rows of trees that stand side by side. -/
def rowsAll : List Tree → List (List Tree)
  | [] => []
  | t :: ts => joinLevels t.rows (rowsAll ts)

end

end Tree

theorem map_joinLevels {α β : Type} (f : α → β) (ks ls : List (List α)) :
    (joinLevels ks ls).map (·.map f) = joinLevels (ks.map (·.map f)) (ls.map (·.map f)) := by
  induction ks generalizing ls with
  | nil => rfl
  | cons k ks ih =>
    cases ls with
    | nil => simp
    | cons l ls => simp [joinLevels, ih]

theorem mem_of_mem_joinLevels {α : Type} {ks ls : List (List α)} {row : List α} {x : α}
    (hrow : row ∈ joinLevels ks ls) (hx : x ∈ row) :
    (∃ k ∈ ks, x ∈ k) ∨ ∃ l ∈ ls, x ∈ l := by
  induction ks generalizing ls with
  | nil => exact .inr ⟨row, by simpa [joinLevels] using hrow, hx⟩
  | cons k ks ih =>
    cases ls with
    | nil => exact .inl ⟨row, by simpa using hrow, hx⟩
    | cons l ls =>
      rw [joinLevels, List.mem_cons] at hrow
      rcases hrow with rfl | hrow
      · rcases List.mem_append.1 hx with hx | hx
        · exact .inl ⟨k, List.mem_cons_self, hx⟩
        · exact .inr ⟨l, List.mem_cons_self, hx⟩
      · rcases ih hrow with ⟨k', hk, hx⟩ | ⟨l', hl, hx⟩
        · exact .inl ⟨k', List.mem_cons_of_mem k hk, hx⟩
        · exact .inr ⟨l', List.mem_cons_of_mem l hl, hx⟩

namespace Tree

mutual

theorem map_symbol_rows : (t : Tree) → t.rows.map (·.map symbol) = t.levels
  | node _ _ ts => by
    rw [rows, levels, List.map_cons, map_symbol_rowsAll ts]
    rfl

theorem map_symbol_rowsAll : (ts : List Tree) → (rowsAll ts).map (·.map symbol) = levelsAll ts
  | [] => rfl
  | t :: ts => by rw [rowsAll, levelsAll, map_joinLevels, map_symbol_rows t, map_symbol_rowsAll ts]

end

mutual

theorem mem_subtrees_of_mem_rows : (t : Tree) → ∀ row ∈ t.rows, ∀ u ∈ row, u ∈ t.subtrees
  | node _ _ ts => by
    intro row hrow u hu
    rw [rows, List.mem_cons] at hrow
    rw [subtrees, List.mem_append]
    rcases hrow with rfl | hrow
    · exact .inr hu
    · exact .inl (mem_subtreesAll_of_mem_rowsAll ts row hrow u hu)

theorem mem_subtreesAll_of_mem_rowsAll :
    (ts : List Tree) → ∀ row ∈ rowsAll ts, ∀ u ∈ row, u ∈ subtreesAll ts
  | [] => by simp [rowsAll]
  | t :: ts => by
    intro row hrow u hu
    rw [subtreesAll, List.mem_append]
    rcases mem_of_mem_joinLevels hrow hu with ⟨k, hk, hu⟩ | ⟨l, hl, hu⟩
    · exact .inl (mem_subtrees_of_mem_rows t k hk u hu)
    · exact .inr (mem_subtreesAll_of_mem_rowsAll ts l hl u hu)

end

theorem subtreesAll_eq_flatMap (ts : List Tree) : subtreesAll ts = ts.flatMap subtrees := by
  induction ts with
  | nil => rfl
  | cons t ts ih => rw [subtreesAll, ih, List.flatMap_cons]

theorem subtreesAll_append (ts us : List Tree) :
    subtreesAll (ts ++ us) = subtreesAll ts ++ subtreesAll us := by
  simp only [subtreesAll_eq_flatMap, List.flatMap_append]

/-- The node of an arena that stands for the root of a tree. -/
def toNode (t : Tree) : Node := ⟨t.symbol, t.children.map id⟩

end Tree

/-! ### The arena of a forest -/

/-- The block of an arena that stands for a subtree. -/
def Subtree.block (t : Subtree) : Arena.Block :=
  ⟨t.tree.id, t.tree.rows.map (·.map Tree.id), t.positions⟩

namespace Forest

/-- The arena of a forest: its nodes in the order in which they were made, and a block for every
subtree. -/
def arena (f : Forest) : Arena where
  automaton := f.automaton
  nodes := (Tree.subtreesAll f.trees).map Tree.toNode
  stack := (f.stack.map Subtree.block).reverse

/-- The nodes are numbered from 0 on, one tree after the other, each child before its parent. -/
def Numbered (f : Forest) : Prop := (Tree.subtreesAll f.trees).map Tree.id = List.range f.nextId

variable {f g : Forest} {r : Rule} {known : Option (List Position)} {ps : List Position} {t u : Tree}

theorem Numbered.length_nodes (hf : f.Numbered) : f.arena.nodes.length = f.nextId := by
  have h := congrArg List.length hf
  simpa [arena] using h

theorem Numbered.getElem?_nodes (hf : f.Numbered) (hu : u ∈ Tree.subtreesAll f.trees) :
    f.arena.nodes[u.id]? = some u.toNode := by
  obtain ⟨i, hi, rfl⟩ := List.mem_iff_getElem.1 hu
  have hid : ((Tree.subtreesAll f.trees).map Tree.id)[i]? = (List.range f.nextId)[i]? := by
    rw [hf]
  have hlt : i < f.nextId := by
    have h := congrArg List.length hf
    simp only [List.length_map, List.length_range] at h
    omega
  simp only [List.getElem?_map, List.getElem?_eq_getElem hi, Option.map_some,
    List.getElem?_range hlt, Option.some.injEq] at hid
  rw [hid, arena, List.getElem?_map, List.getElem?_eq_getElem hi, Option.map_some]

theorem Numbered.symbolOf_eq (hf : f.Numbered) (hu : u ∈ Tree.subtreesAll f.trees) :
    Arena.symbolOf f.arena.nodes u.id = u.symbol := by
  rw [Arena.symbolOf, hf.getElem?_nodes hu]
  rfl

/-- The levels of a block are read like those of the subtree that it stands for. -/
theorem Numbered.symbols_block (hf : f.Numbered) {t : Subtree} (ht : t ∈ f.stack) :
    Arena.symbols f.arena.nodes t.block.levels = t.tree.levels := by
  rw [← Tree.map_symbol_rows, Arena.symbols, Subtree.block, List.map_map]
  refine List.map_congr_left fun row hrow => ?_
  rw [Function.comp_apply, List.map_map]
  refine List.map_congr_left fun u hu => hf.symbolOf_eq (Tree.mem_subtreesAll_iff.2 ⟨t.tree, ?_, ?_⟩)
  · simpa [trees] using ⟨t, ht, rfl⟩
  · exact t.tree.mem_subtrees_of_mem_rows row hrow u hu

/-! ### What a call does to the arena of a forest -/

theorem readSiblings_eq (A : Automaton) (p : Position) (ts : List Subtree) :
    readSiblings A p ts = Arena.readBlocks A p (ts.map fun t => (t.tree.levels, t.positions)) := by
  cases ts with
  | nil => rfl
  | cons t ts => rw [List.map_cons, readSiblings, Arena.readBlocks, List.foldlM_map]

theorem splitPoint_arena (f : Forest) (r : Rule) :
    f.arena.splitPoint r = if r.rhs.length ≤ f.stack.length then
      .ok (f.stack.length - r.rhs.length) else .error (.stackUnderflow r f.stack.length) := by
  simp only [Arena.splitPoint, arena, List.length_reverse, List.length_map]

theorem drop_stack_arena (h : r.rhs.length ≤ f.stack.length) :
    f.arena.stack.drop (f.stack.length - r.rhs.length) =
      (f.stack.take r.rhs.length).reverse.map Subtree.block := by
  rw [arena, List.drop_reverse, List.length_map, Nat.sub_sub_self h, ← List.map_take,
    List.map_reverse]

theorem take_stack_arena (h : r.rhs.length ≤ f.stack.length) :
    f.arena.stack.take (f.stack.length - r.rhs.length) =
      ((f.stack.drop r.rhs.length).map Subtree.block).reverse := by
  rw [arena, List.take_reverse, List.length_map, Nat.sub_sub_self h, List.map_drop]

theorem Numbered.preview_arena (hf : f.Numbered) (r : Rule) : f.arena.preview r = f.preview r := by
  unfold Arena.preview preview
  rw [splitPoint_arena, split, show f.arena.automaton = f.automaton from rfl]
  cases f.automaton with
  | none => rfl
  | some A =>
    by_cases hle : r.rhs.length ≤ f.stack.length
    · have hempty : (f.stack.length - r.rhs.length == 0) =
          (f.stack.drop r.rhs.length).isEmpty := by
        rw [Bool.eq_iff_iff, beq_iff_eq, List.isEmpty_iff, List.drop_eq_nil_iff]
        omega
      have hread : ((f.stack.take r.rhs.length).reverse.map Subtree.block).map
            (fun b => (Arena.symbols f.arena.nodes b.levels, b.positions)) =
          (f.stack.take r.rhs.length).reverse.map fun t => (t.tree.levels, t.positions) := by
        rw [List.map_map]
        refine List.map_congr_left fun t ht => Prod.ext (hf.symbols_block ?_) rfl
        exact List.mem_of_mem_take (List.mem_reverse.1 ht)
      simp only [if_pos hle, bind, Except.bind, hempty, drop_stack_arena hle, hread,
        readSiblings_eq]
    · simp only [if_neg hle, bind, Except.bind]

theorem Numbered.positionsFor_arena (hf : f.Numbered) (r : Rule) (known : Option (List Position)) :
    f.arena.positionsFor r known = f.positionsFor r known := by
  unfold Arena.positionsFor positionsFor
  rw [hf.preview_arena r]
  rfl

theorem subtreesAll_reduced (f : Forest) (r : Rule) (ps : List Position) :
    Tree.subtreesAll (f.reduced r ps).trees = Tree.subtreesAll f.trees ++ [f.reduct r] := by
  have htrees : f.trees = ((f.stack.drop r.rhs.length).map Subtree.tree).reverse ++
      (f.stack.take r.rhs.length).reverse.map Subtree.tree := by
    rw [List.map_reverse, ← List.reverse_append, ← List.map_append, List.take_append_drop]
    rfl
  have hreduced : (f.reduced r ps).trees =
      ((f.stack.drop r.rhs.length).map Subtree.tree).reverse ++ [f.reduct r] := by
    simp [trees, reduced]
  rw [hreduced, htrees, Tree.subtreesAll_append, Tree.subtreesAll_append, List.append_assoc]
  simp [reduct, Tree.subtreesAll, Tree.subtrees]

theorem Numbered.reduced (hf : f.Numbered) (r : Rule) (ps : List Position) :
    (f.reduced r ps).Numbered := by
  rw [Numbered, subtreesAll_reduced, List.map_append, hf, Forest.reduced, List.range_succ]
  rfl

theorem foldl_joinLevels_block (ts : List Subtree) (levels : List (List Nat)) :
    (ts.map Subtree.block).foldl (fun levels c => joinLevels levels c.levels) levels =
      joinLevels levels ((Tree.rowsAll (ts.map Subtree.tree)).map (·.map Tree.id)) := by
  induction ts generalizing levels with
  | nil => simp [Tree.rowsAll]
  | cons t ts ih =>
    rw [List.map_cons, List.foldl_cons, ih, List.map_cons, Tree.rowsAll, map_joinLevels,
      joinLevels_assoc]
    rfl

/-- The arena of a reduced forest: the new node comes last, and its block has the levels of those
that it takes the place of, side by side. -/
theorem Numbered.arena_reduced (hf : f.Numbered) (hle : r.rhs.length ≤ f.stack.length)
    (ps : List Position) :
    (f.reduced r ps).arena = f.arena.merged r ps (f.stack.length - r.rhs.length) := by
  have hnodes : (f.reduced r ps).arena.nodes = f.arena.nodes ++ [(f.reduct r).toNode] := by
    rw [arena, subtreesAll_reduced, List.map_append]
    rfl
  have hstack : (f.reduced r ps).arena.stack =
      ((f.stack.drop r.rhs.length).map Subtree.block).reverse ++
        [Subtree.block ⟨f.reduct r, ps⟩] := by
    rw [arena, Forest.reduced, List.map_cons, List.reverse_cons]
  have hchildren : (f.reduct r).toNode =
      ⟨r.lhs, ((f.stack.take r.rhs.length).reverse.map Subtree.block).map Arena.Block.root⟩ := by
    rw [List.map_map]
    simp only [reduct, Tree.toNode, Tree.children, Tree.symbol, List.map_map]
    rfl
  have hblock : Subtree.block ⟨f.reduct r, ps⟩ = ⟨f.nextId, [f.nextId] ::
      ((f.stack.take r.rhs.length).reverse.map Subtree.block).foldl
        (fun levels c => joinLevels levels c.levels) [], ps⟩ := by
    rw [foldl_joinLevels_block]
    rfl
  rw [Arena.merged, drop_stack_arena hle, take_stack_arena hle, hf.length_nodes, ← hchildren,
    ← hblock, ← hnodes, ← hstack]
  rfl

theorem outcome_merge (f : Forest) (r : Rule) (known : Option (List Position)) :
    (f.merge r known).outcome =
      match f.positionsFor r known with
      | .error e => .error e
      | .ok ps => if r.rhs.length ≤ f.stack.length then .ok (f.reduced r ps)
        else .error (.stackUnderflow r f.stack.length) := by
  unfold merge split
  simp only [Attempt.outcome_bind, Attempt.outcome_ofExcept, Attempt.outcome_emit,
    Attempt.outcome_pure]
  cases f.positionsFor r known with
  | error e => rfl
  | ok ps =>
    by_cases hle : r.rhs.length ≤ f.stack.length
    · simp only [if_pos hle]
      rfl
    · simp only [if_neg hle]
      rfl

theorem Numbered.merge_arena (hf : f.Numbered) (r : Rule) (known : Option (List Position)) :
    f.arena.call (.merge r known) =
        ((f.call (.merge r known)).1, (f.call (.merge r known)).2.arena) ∧
      (f.call (.merge r known)).2.Numbered := by
  rw [Arena.call_merge, call, outcome_merge, hf.positionsFor_arena, splitPoint_arena]
  cases f.positionsFor r known with
  | error e => exact ⟨rfl, hf⟩
  | ok ps =>
    by_cases hle : r.rhs.length ≤ f.stack.length
    · simp only [if_pos hle]
      exact ⟨by rw [hf.arena_reduced hle], hf.reduced r ps⟩
    · simp only [if_neg hle]
      exact ⟨trivial, hf⟩

/-- A call does to the arena of a forest what it does to the forest. -/
theorem Numbered.call_arena (hf : f.Numbered) (c : Call) :
    f.arena.call c = ((f.call c).1, (f.call c).2.arena) ∧ (f.call c).2.Numbered := by
  cases c with
  | push s =>
    rw [Arena.call_push, call_push]
    exact hf.merge_arena ⟨s, []⟩ none
  | preview r =>
    rw [Arena.call_preview, hf.preview_arena]
    exact ⟨rfl, hf⟩
  | merge r known => exact hf.merge_arena r known

/-! ### Calls one after the other -/

/-- The forest after calls one after the other; one that fails is passed over. -/
def ofCalls (levels : Option Automaton) (cs : List Call) : Forest :=
  cs.foldl (fun f c => (f.call c).2) { automaton := levels }

end Forest

/-- The arena after calls one after the other; one that fails is passed over. -/
def Arena.ofCalls (levels : Option Automaton) (cs : List Forest.Call) : Arena :=
  cs.foldl (fun a c => (a.call c).2) { automaton := levels }

theorem Forest.arena_ofCalls (levels : Option Automaton) (cs : List Forest.Call) :
    (Forest.ofCalls levels cs).arena = Arena.ofCalls levels cs ∧
      (Forest.ofCalls levels cs).Numbered := by
  induction cs using List.reverseRecOn with
  | nil => exact ⟨rfl, rfl⟩
  | append_singleton cs c ih =>
    obtain ⟨harena, hf⟩ := ih
    obtain ⟨hcall, hf'⟩ := hf.call_arena c
    rw [ofCalls, Arena.ofCalls, List.foldl_concat, List.foldl_concat]
    exact ⟨by rw [← Arena.ofCalls, ← harena, hcall]; rfl, hf'⟩

end TreeControl
