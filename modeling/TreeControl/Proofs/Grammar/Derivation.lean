import TreeControl.Proofs.Grammar.Built
import TreeControl.Token.Source
import TreeControl.Tree.Basic

/-! # Derivation trees of a grammar

A grammar permits a node if it is a terminal without children or a nonterminal whose children are the
right side of one of its rules; a tree is derived if every node is permitted (`Grammar.Derives`).  The
sentence of a derived tree is its yield: the terminal leaves from left to right.

`TokenSource.Supplies` says which sentence a token source holds: the tokens before the first blank
one. -/

namespace TreeControl

namespace Tree

mutual

/-- The tree with the numbers of its nodes forgotten. -/
def shape : Tree → Tree
  | node _ s ts => node 0 s (shapeAll ts)

/-- The shapes of trees that stand side by side. -/
def shapeAll : List Tree → List Tree
  | [] => []
  | t :: ts => t.shape :: shapeAll ts

end

theorem shapeAll_eq_map (ts : List Tree) : shapeAll ts = ts.map shape := by
  induction ts with
  | nil => rfl
  | cons t ts ih => rw [shapeAll, ih, List.map_cons]

theorem shape_node (id : Nat) (s : Symbol) (ts : List Tree) :
    (node id s ts).shape = node 0 s (ts.map shape) := by
  rw [shape, shapeAll_eq_map]

mutual

/-- The numbers of the nodes do not matter for the levels. -/
theorem levels_shape : (t : Tree) → t.shape.levels = t.levels
  | node id s ts => by rw [shape, levels, levels, levelsAll_shapeAll ts]

theorem levelsAll_shapeAll : (ts : List Tree) → levelsAll (shapeAll ts) = levelsAll ts
  | [] => rfl
  | t :: ts => by rw [shapeAll, levelsAll, levelsAll, levels_shape t, levelsAll_shapeAll ts]

end

mutual

theorem leaves_shape : (t : Tree) → t.shape.leaves = t.leaves
  | node _ _ [] => rfl
  | node _ _ (t :: ts) => by
    rw [shape, shapeAll, leaves, leaves, leaves_shape t, leavesAll_shapeAll ts]

theorem leavesAll_shapeAll : (ts : List Tree) → leavesAll (shapeAll ts) = leavesAll ts
  | [] => rfl
  | t :: ts => by rw [shapeAll, leavesAll, leavesAll, leaves_shape t, leavesAll_shapeAll ts]

end

theorem leavesAll_eq_flatMap (ts : List Tree) : leavesAll ts = ts.flatMap leaves := by
  induction ts with
  | nil => rfl
  | cons t ts ih => rw [leavesAll, ih, List.flatMap_cons]

theorem mem_subtreesAll_iff {u : Tree} {ts : List Tree} :
    u ∈ subtreesAll ts ↔ ∃ t ∈ ts, u ∈ t.subtrees := by
  induction ts with
  | nil => simp [subtreesAll]
  | cons t ts ih => simp [subtreesAll, ih]

end Tree

/-! ### Derivations -/

namespace Grammar

/-- What a grammar allows at a node: a terminal stands alone, and the children of another symbol are
the right side of a rule for it. -/
def Permits (g : Grammar) (t : Tree) : Prop :=
  if t.symbol ∈ g.terminals then t.children = []
  else ⟨t.symbol, t.children.map Tree.symbol⟩ ∈ g.rules

/-- Every node of a tree is allowed. -/
def Derives (g : Grammar) (t : Tree) : Prop := ∀ u ∈ t.subtrees, g.Permits u

instance (g : Grammar) (t : Tree) : Decidable (g.Permits t) :=
  inferInstanceAs (Decidable (if t.symbol ∈ g.terminals then t.children = []
    else ⟨t.symbol, t.children.map Tree.symbol⟩ ∈ g.rules))

instance (g : Grammar) (t : Tree) : Decidable (g.Derives t) :=
  inferInstanceAs (Decidable (∀ u ∈ t.subtrees, g.Permits u))

/-- The terminal leaves of a tree from left to right. -/
def yield (g : Grammar) (t : Tree) : List Symbol := t.leaves.filter g.isTerminal

/-- The terminal leaves of trees that stand side by side. -/
def yieldAll (g : Grammar) (ts : List Tree) : List Symbol := ts.flatMap g.yield

variable {g G : Grammar} {s top start : Symbol} {t : Tree} {ts us : List Tree} {id : Nat}

theorem derives_node_iff :
    g.Derives (.node id s ts) ↔ g.Permits (.node id s ts) ∧ ∀ t ∈ ts, g.Derives t := by
  unfold Derives
  simp only [Tree.subtrees, List.mem_append, List.mem_singleton, Tree.mem_subtreesAll_iff]
  constructor
  · intro h
    exact ⟨h _ (.inr rfl), fun t ht u hu => h u (.inl ⟨t, ht, hu⟩)⟩
  · rintro ⟨h, hts⟩ u (⟨t, ht, hu⟩ | rfl)
    · exact hts t ht u hu
    · exact h

theorem derives_leaf_iff (hs : s ∈ g.terminals) : g.Derives (.node id s ts) ↔ ts = [] := by
  have permits : g.Permits (.node id s ts) ↔ ts = [] := by
    simp [Permits, Tree.symbol, Tree.children, hs]
  rw [derives_node_iff, permits]
  constructor
  · exact fun h => h.1
  · rintro rfl
    exact ⟨rfl, by simp⟩

theorem derives_rule_iff (hs : ¬ s ∈ g.terminals) :
    g.Derives (.node id s ts) ↔
      ⟨s, ts.map Tree.symbol⟩ ∈ g.rules ∧ ∀ t ∈ ts, g.Derives t := by
  have permits : g.Permits (.node id s ts) ↔ ⟨s, ts.map Tree.symbol⟩ ∈ g.rules := by
    simp [Permits, Tree.symbol, Tree.children, hs]
  rw [derives_node_iff, permits]

theorem yield_leaf (hs : s ∈ g.terminals) : g.yield (.node id s []) = [s] := by
  simp [yield, Tree.leaves, hs]

/-- A node that is no terminal has the sentence of its children, also if it has none. -/
theorem yield_node (hs : ¬ s ∈ g.terminals) : g.yield (.node id s ts) = g.yieldAll ts := by
  unfold yield yieldAll
  cases ts with
  | nil => simp [Tree.leaves, hs]
  | cons t ts =>
    rw [Tree.leaves, Tree.leavesAll_eq_flatMap, List.filter_append, List.filter_flatMap]
    rfl

theorem yield_shape (t : Tree) : g.yield t.shape = g.yield t := by
  rw [yield, yield, Tree.leaves_shape]

theorem yieldAll_cons : g.yieldAll (t :: ts) = g.yield t ++ g.yieldAll ts := List.flatMap_cons

theorem yieldAll_append : g.yieldAll (ts ++ us) = g.yieldAll ts ++ g.yieldAll us :=
  List.flatMap_append

theorem mem_terminals_of_mem_yield (h : s ∈ g.yield t) : s ∈ g.terminals :=
  isTerminal_iff.1 (List.mem_filter.1 h).2

theorem Augments.derives (h : G.Augments g top start) (ht : g.Derives t) : G.Derives t := by
  intro u hu
  have := ht u hu
  unfold Permits at this ⊢
  rw [h.terminals_eq, h.rules_eq]
  split
  · rename_i hs
    rwa [if_pos hs] at this
  · rename_i hs
    rw [if_neg hs] at this
    exact List.mem_cons_of_mem _ this

theorem Augments.yield_eq (h : G.Augments g top start) : G.yield = g.yield := by
  unfold Grammar.yield isTerminal
  rw [h.terminals_eq]

end Grammar

/-! ### Sentences of token sources -/

namespace TokenSource

variable {σ : Type} [TokenSource σ] {source : σ} {v w : List Symbol}

/-- A source hands out the symbols of a list, none of them blank, and then a blank one. -/
def Supplies (source : σ) : List Symbol → Prop
  | [] => (next source).1 = .blank
  | s :: w => (next source).1 = s ∧ s ≠ .blank ∧ Supplies (next source).2 w

theorem Supplies.unique (hv : Supplies source v) (hw : Supplies source w) : v = w := by
  induction v generalizing source w with
  | nil =>
    cases w with
    | nil => rfl
    | cons s w => exact absurd (hw.1.symm.trans hv) hw.2.1
  | cons s v ih =>
    cases w with
    | nil => exact absurd (hv.1.symm.trans hw) hv.2.1
    | cons s' w =>
      rw [ih hv.2.2 hw.2.2, ← hv.1, ← hw.1]

end TokenSource

end TreeControl
