import Mathlib.Data.List.GetD
import Mathlib.Order.Bounds.Defs
import TreeControl.Proofs.Loops
import TreeControl.Proofs.Tree.Arena

/-! # Walking through an arena

The children of the nodes of an arena say what its subtrees are.  A path (`follow`) says at every node
which child comes next, and going down from all nodes of a level gives the next one (`descend`).

After any calls the subtrees of an arena are numbered one after the other in post-order, and the
levels of each are those that going down from its root gives (`Arena.Tidy`).  In a finished tree
exactly one path leads to each node, the levels are as many as the longest path has nodes, they list
the nodes in breadth-first order, and a walk with a stack comes to the leaves from left to right
(`FlatTree.Sound`).  Together, `Forest.arena_invariant`. -/

namespace TreeControl

/-! ### Going down -/

namespace Arena

/-- The children of a node. -/
def childrenOf (nodes : List Node) (i : Nat) : List Nat := (nodes[i]?.map Node.children).getD []

/-- The nodes a number of levels below given ones, from left to right. -/
def descend (nodes : List Node) : Nat → List Nat → List Nat
  | 0, is => is
  | d + 1, is => descend nodes d (is.flatMap (childrenOf nodes))

/-- The node at the end of a path. -/
def follow (nodes : List Node) : Nat → List Nat → Option Nat
  | i, [] => some i
  | i, k :: path => (childrenOf nodes i)[k]?.bind fun j => follow nodes j path

variable {nodes : List Node} {is : List Nat} {d j : Nat}

theorem mem_descend_iff :
    j ∈ descend nodes d is ↔ ∃ i ∈ is, ∃ path, path.length = d ∧ follow nodes i path = some j := by
  induction d generalizing is with
  | zero =>
    simp only [descend, List.length_eq_zero_iff, exists_eq_left, follow, Option.some.injEq]
    simp
  | succ d ih =>
    rw [descend, ih]
    constructor
    · rintro ⟨m, hm, path, hlen, hpath⟩
      obtain ⟨i, hi, hm⟩ := List.mem_flatMap.1 hm
      obtain ⟨k, hk⟩ := List.mem_iff_getElem?.1 hm
      exact ⟨i, hi, k :: path, by rw [List.length_cons, hlen], by rw [follow, hk]; exact hpath⟩
    · rintro ⟨i, hi, path, hlen, hpath⟩
      cases path with
      | nil => simp at hlen
      | cons k path =>
        obtain ⟨m, hm, hpath⟩ := Option.bind_eq_some_iff.1 hpath
        exact ⟨m, List.mem_flatMap.2 ⟨i, hi, List.mem_of_getElem? hm⟩, path,
          Nat.succ.inj hlen, hpath⟩

/-! ### Numbering in post-order -/

/-- The nodes of a subtree listed in post-order, every node behind those below its children. -/
inductive PostOrder (nodes : List Node) : Nat → List Nat → Prop
  | node {i : Nat} {n : Node} {below : List (List Nat)} : nodes[i]? = some n →
      List.Forall₂ (PostOrder nodes) n.children below → PostOrder nodes i (below.flatten ++ [i])

/-- Subtrees that are numbered one after the other in post-order, each up to its root, from a number
on to the last one. -/
inductive Laid (nodes : List Node) : Nat → List Block → Prop
  | nil : Laid nodes nodes.length []
  | cons {first : Nat} {b : Block} {bs : List Block} : first ≤ b.root →
      PostOrder nodes b.root (List.range' first (b.root + 1 - first)) →
      Laid nodes (b.root + 1) bs → Laid nodes first (b :: bs)

/-- The subtrees have consecutive numbers in post-order, and their levels are right. -/
structure Tidy (a : Arena) : Prop where
  laid : Laid a.nodes 0 a.stack
  /-- A level has the nodes that are so many levels below the root, and no other. -/
  levels : ∀ b ∈ a.stack, ∀ d, b.levels.getD d [] = descend a.nodes d [b.root]
  filled : ∀ b ∈ a.stack, [] ∉ b.levels

end Arena

/-! ### Finished trees -/

/-- A finished tree of an arena. -/
structure FlatTree where
  nodes : List Node
  root : Nat
  levels : List (List Nat)
  deriving DecidableEq

/-- The finished tree: the only one there is. -/
def Arena.finish (a : Arena) : Except TreeError FlatTree :=
  match a.stack with
  | [b] => .ok ⟨a.nodes, b.root, b.levels⟩
  | bs => .error (.notSingleRoot bs.length)

namespace FlatTree

/-- The number of levels. -/
def depth (t : FlatTree) : Nat := t.levels.length

/-- The symbols of every level, top to bottom. -/
def symbols (t : FlatTree) : List (List Symbol) := Arena.symbols t.nodes t.levels

/-- One turn of a walk with a stack, which collects the symbols of the nodes without children.  It
cannot go on at a number that no node has. -/
def gather (nodes : List Node) : List Symbol × List Nat → Option (List Symbol × List Nat)
  | (_, []) => none
  | (found, i :: stack) => nodes[i]?.map fun n =>
    (if n.children.isEmpty then found ++ [n.symbol] else found, n.children ++ stack)

/-- One turn of a breadth-first walk, which lists the nodes. -/
def broaden (nodes : List Node) : List Nat × List Nat → Option (List Nat × List Nat)
  | (_, []) => none
  | (seen, i :: queue) => nodes[i]?.map fun n => (seen ++ [i], queue ++ n.children)

/-- A finished tree is a tree, and its levels and leaves are those that walking through it gives. -/
structure Sound (t : FlatTree) : Prop where
  /-- No path leads out of the tree. -/
  inside : ∀ path i, Arena.follow t.nodes t.root path = some i → i < t.nodes.length
  once : ∀ i < t.nodes.length, ∃! path, Arena.follow t.nodes t.root path = some i
  /-- The depth is the number of nodes on the longest path. -/
  height : IsGreatest {n | ∃ path i, Arena.follow t.nodes t.root path = some i ∧
    path.length + 1 = n} t.depth
  rows : ∀ d, t.levels.getD d [] = Arena.descend t.nodes d [t.root]
  /-- Level after level the nodes are in breadth-first order. -/
  breadthFirst : Ends (broaden t.nodes) ([], [t.root]) (t.levels.flatten, [])
  /-- The walk is over when it has come to every node without children. -/
  leaves : Ends (gather t.nodes) ([], [t.root])
    ((t.nodes.filter (·.children.isEmpty)).map Node.symbol, [])

variable {nodes : List Node} {levels : List (List Nat)} {root : Nat} {is : List Nat}

theorem lt_length_iff (hlevels : ∀ d, levels.getD d [] = Arena.descend nodes d [root])
    (hfilled : [] ∉ levels) (d : Nat) :
    d < levels.length ↔ ∃ path i, Arena.follow nodes root path = some i ∧ path.length = d := by
  have hmem : d < levels.length ↔ ∃ i, i ∈ levels.getD d [] := by
    constructor
    · intro hd
      rw [List.getD_eq_getElem _ _ hd]
      refine List.exists_mem_of_ne_nil _ fun hnil => hfilled ?_
      exact hnil ▸ List.getElem_mem hd
    · rintro ⟨i, hi⟩
      by_contra hd
      rw [List.getD_eq_default _ _ (by omega)] at hi
      cases hi
  rw [hmem, hlevels]
  simp only [Arena.mem_descend_iff, List.mem_singleton, exists_eq_left]
  exact exists_comm.trans (exists_congr fun path => exists_congr fun i => and_comm)

theorem isGreatest_length (hlevels : ∀ d, levels.getD d [] = Arena.descend nodes d [root])
    (hfilled : [] ∉ levels) :
    IsGreatest {n | ∃ path i, Arena.follow nodes root path = some i ∧ path.length + 1 = n}
      levels.length := by
  have hlt := lt_length_iff hlevels hfilled
  have hpos : 0 < levels.length := (hlt 0).2 ⟨[], root, rfl, rfl⟩
  constructor
  · obtain ⟨path, i, hpath, hlen⟩ := (hlt (levels.length - 1)).1 (by omega)
    exact ⟨path, i, hpath, by omega⟩
  · rintro n ⟨path, i, hpath, rfl⟩
    exact (hlt path.length).2 ⟨path, i, hpath, rfl⟩

/-- A breadth-first walk lists nodes at the beginning of its queue and puts their children at the
end. -/
theorem ends_broaden_row {s : List Nat × List Nat} (seen queue : List Nat)
    (his : ∀ i ∈ is, i < nodes.length)
    (h : Ends (broaden nodes) (seen ++ is, queue ++ is.flatMap (Arena.childrenOf nodes)) s) :
    Ends (broaden nodes) (seen, is ++ queue) s := by
  induction is generalizing seen queue with
  | nil => simpa using h
  | cons i is ih =>
    have hnode := List.getElem?_eq_getElem (his i List.mem_cons_self)
    refine .next (by rw [List.cons_append, broaden, hnode, Option.map_some]) ?_
    rw [List.append_assoc]
    refine ih (seen ++ [i]) _ (fun j hj => his j (List.mem_cons_of_mem i hj)) ?_
    simpa [Arena.childrenOf, hnode] using h

/-- A breadth-first walk lists level after level. -/
theorem ends_broaden (seen : List Nat)
    (hlevels : ∀ d, levels.getD d [] = Arena.descend nodes d is)
    (hin : ∀ level ∈ levels, ∀ i ∈ level, i < nodes.length) :
    Ends (broaden nodes) (seen, is) (seen ++ levels.flatten, []) := by
  induction levels generalizing is seen with
  | nil =>
    obtain rfl : [] = is := hlevels 0
    rw [List.flatten_nil, List.append_nil]
    exact .stop rfl
  | cons level levels ih =>
    obtain rfl : level = is := hlevels 0
    have hrow : ∀ i ∈ level, i < nodes.length := hin level List.mem_cons_self
    have hend := ih (seen ++ level) (fun d => hlevels (d + 1))
      fun l hl => hin l (List.mem_cons_of_mem level hl)
    rw [List.append_assoc] at hend
    simpa using ends_broaden_row seen [] hrow hend

end FlatTree

/-! ### Trees whose nodes are stored -/

/-- If the lists of several things share nothing, what one of them has says which it is. -/
theorem index_unique {α β : Type} {f : α → List β} {xs : List α} (h : (xs.flatMap f).Nodup)
    {k l : Nat} {a b : α} {x : β} (hk : xs[k]? = some a) (hl : xs[l]? = some b) (ha : x ∈ f a)
    (hb : x ∈ f b) : k = l := by
  obtain ⟨-, hpair⟩ := List.nodup_flatMap.1 h
  rw [List.pairwise_iff_getElem] at hpair
  obtain ⟨hk', rfl⟩ := List.getElem?_eq_some_iff.1 hk
  obtain ⟨hl', rfl⟩ := List.getElem?_eq_some_iff.1 hl
  rcases Nat.lt_trichotomy k l with hlt | heq | hgt
  · exact (hpair k l hk' hl' hlt ha hb).elim
  · exact heq
  · exact (hpair l k hl' hk' hgt hb ha).elim

namespace Tree

theorem self_mem_subtrees (t : Tree) : t ∈ t.subtrees := by
  cases t with
  | node i s ts => exact List.mem_append_right _ List.mem_cons_self

theorem mem_subtrees_of_mem_children {t c u : Tree} (hc : c ∈ t.children) (hu : u ∈ c.subtrees) :
    u ∈ t.subtrees := by
  cases t with
  | node i s ts => exact List.mem_append_left _ (mem_subtreesAll_iff.2 ⟨c, hc, hu⟩)

/-- The nodes of a tree stand in a list where their numbers say. -/
def StoredIn (t : Tree) (nodes : List Node) : Prop :=
  ∀ u ∈ t.subtrees, nodes[u.id]? = some u.toNode

/-- The subtree at the end of a path. -/
def at? : Tree → List Nat → Option Tree
  | t, [] => some t
  | t, k :: path => t.children[k]?.bind fun c => c.at? path

variable {nodes : List Node} {t c u v : Tree} {ts us : List Tree} {d : Nat} {p q : List Nat}

theorem StoredIn.child (h : t.StoredIn nodes) (hc : c ∈ t.children) : c.StoredIn nodes :=
  fun u hu => h u (mem_subtrees_of_mem_children hc hu)

theorem StoredIn.childrenOf (h : t.StoredIn nodes) :
    Arena.childrenOf nodes t.id = t.children.map id := by
  rw [Arena.childrenOf, h t t.self_mem_subtrees]
  rfl

/-! ### Levels -/

theorem rowsAll_append (ts us : List Tree) :
    rowsAll (ts ++ us) = joinLevels (rowsAll ts) (rowsAll us) := by
  induction ts with
  | nil => rfl
  | cons t ts ih => rw [List.cons_append, rowsAll, ih, rowsAll, joinLevels_assoc]

theorem rowsAll_singleton (t : Tree) : rowsAll [t] = t.rows := by
  rw [rowsAll, rowsAll, joinLevels_nil]

theorem getD_zero_rowsAll (ts : List Tree) : (rowsAll ts).getD 0 [] = ts := by
  induction ts with
  | nil => rfl
  | cons t ts ih =>
    rw [rowsAll, getD_joinLevels, ih]
    cases t
    rfl

theorem getD_succ_rowsAll (ts : List Tree) (d : Nat) :
    (rowsAll ts).getD (d + 1) [] = (rowsAll (ts.flatMap children)).getD d [] := by
  induction ts with
  | nil => rfl
  | cons t ts ih =>
    rw [rowsAll, getD_joinLevels, ih, List.flatMap_cons, rowsAll_append, getD_joinLevels]
    cases t
    rfl

theorem descend_roots (h : ∀ t ∈ ts, t.StoredIn nodes) (d : Nat) :
    Arena.descend nodes d (ts.map id) = ((rowsAll ts).getD d []).map id := by
  induction d generalizing ts with
  | zero => rw [Arena.descend, getD_zero_rowsAll]
  | succ d ih =>
    have hchildren : (ts.map id).flatMap (Arena.childrenOf nodes) =
        (ts.flatMap children).map id := by
      rw [List.flatMap_map, List.map_flatMap]
      exact List.flatMap_congr fun t ht => (h t ht).childrenOf
    have hstored : ∀ c ∈ ts.flatMap children, c.StoredIn nodes := by
      intro c hc
      obtain ⟨t, ht, hc⟩ := List.mem_flatMap.1 hc
      exact (h t ht).child hc
    rw [Arena.descend, hchildren, ih hstored, getD_succ_rowsAll]

/-- The levels that a block keeps of a tree are those that going down from its root gives. -/
theorem StoredIn.getD_rows (h : t.StoredIn nodes) (d : Nat) :
    (t.rows.map (·.map id)).getD d [] = Arena.descend nodes d [t.id] := by
  have hdown := descend_roots (List.forall_mem_singleton.2 h) d
  rw [rowsAll_singleton, List.map_singleton] at hdown
  rw [hdown, List.getD_eq_getElem?_getD, List.getD_eq_getElem?_getD, List.getElem?_map]
  cases t.rows[d]? <;> rfl

theorem nil_notMem_rows (t : Tree) : [] ∉ t.rows.map (·.map id) := by
  intro h
  obtain ⟨row, hrow, hnil⟩ := List.mem_map.1 h
  have hlevel : row.map symbol ∈ t.levels := by
    rw [← map_symbol_rows]
    exact List.mem_map_of_mem hrow
  rw [List.map_eq_nil_iff] at hnil
  exact t.ne_nil_of_mem_levels _ hlevel (by rw [hnil, List.map_nil])

/-! ### Paths -/

theorem StoredIn.follow (h : t.StoredIn nodes) (p : List Nat) :
    Arena.follow nodes t.id p = (t.at? p).map id := by
  induction p generalizing t with
  | nil => rfl
  | cons k p ih =>
    rw [Arena.follow, at?, h.childrenOf, List.getElem?_map]
    cases hk : t.children[k]? with
    | none => rfl
    | some c => exact ih (h.child (List.mem_of_getElem? hk))

theorem mem_subtrees_of_at? (h : t.at? p = some u) : u ∈ t.subtrees := by
  induction p generalizing t with
  | nil =>
    rw [at?, Option.some.injEq] at h
    exact h ▸ t.self_mem_subtrees
  | cons k p ih =>
    obtain ⟨c, hc, h⟩ := Option.bind_eq_some_iff.1 h
    exact mem_subtrees_of_mem_children (List.mem_of_getElem? hc) (ih h)

mutual

theorem exists_at? : (t : Tree) → ∀ u ∈ t.subtrees, ∃ p, t.at? p = some u
  | node i s ts => by
    intro u hu
    rw [subtrees, List.mem_append, List.mem_singleton] at hu
    rcases hu with hu | rfl
    · obtain ⟨k, c, hk, p, hp⟩ := exists_at?_all ts u hu
      exact ⟨k :: p, by rw [at?, children, hk]; exact hp⟩
    · exact ⟨[], rfl⟩

theorem exists_at?_all : (ts : List Tree) → ∀ u ∈ subtreesAll ts,
    ∃ (k : Nat) (c : Tree), ts[k]? = some c ∧ ∃ p, c.at? p = some u
  | [] => by simp [subtreesAll]
  | t :: ts => by
    intro u hu
    rw [subtreesAll, List.mem_append] at hu
    rcases hu with hu | hu
    · exact ⟨0, t, rfl, exists_at? t u hu⟩
    · obtain ⟨k, c, hk, hp⟩ := exists_at?_all ts u hu
      exact ⟨k + 1, c, hk, hp⟩

end

/-- The numbers of the nodes of a tree, in post-order. -/
def numbers (t : Tree) : List Nat := t.subtrees.map id

theorem map_id_subtreesAll (ts : List Tree) : (subtreesAll ts).map id = ts.flatMap numbers := by
  rw [subtreesAll_eq_flatMap, List.map_flatMap]
  rfl

theorem subtreesAll_singleton (t : Tree) : subtreesAll [t] = t.subtrees := by
  rw [subtreesAll, subtreesAll, List.append_nil]

theorem numbers_eq : (t : Tree) → t.numbers = t.children.flatMap numbers ++ [t.id]
  | node i s ts => by
    rw [numbers, subtrees, List.map_append, map_id_subtreesAll]
    rfl

theorem id_mem_numbers_of_at? (h : t.at? p = some u) : u.id ∈ t.numbers :=
  List.mem_map_of_mem (mem_subtrees_of_at? h)

theorem id_ne_of_at?_cons {k : Nat} (h : t.numbers.Nodup) (hu : t.at? (k :: p) = some u) :
    u.id ≠ t.id := by
  rw [numbers_eq, List.nodup_append] at h
  obtain ⟨c, hc, hu⟩ := Option.bind_eq_some_iff.1 hu
  have hmem : u.id ∈ t.children.flatMap numbers :=
    List.mem_flatMap.2 ⟨c, List.mem_of_getElem? hc, id_mem_numbers_of_at? hu⟩
  exact h.2.2 u.id hmem t.id List.mem_cons_self

theorem at?_unique (h : t.numbers.Nodup) (hu : t.at? p = some u) (hv : t.at? q = some v)
    (huv : u.id = v.id) : p = q := by
  induction p generalizing t q with
  | nil =>
    cases q with
    | nil => rfl
    | cons l q =>
      cases hu
      exact absurd huv.symm (id_ne_of_at?_cons h hv)
  | cons k p ih =>
    cases q with
    | nil =>
      cases hv
      exact absurd huv (id_ne_of_at?_cons h hu)
    | cons l q =>
      obtain ⟨c, hc, hu⟩ := Option.bind_eq_some_iff.1 hu
      obtain ⟨c', hc', hv⟩ := Option.bind_eq_some_iff.1 hv
      rw [numbers_eq, List.nodup_append] at h
      -- Only below one child is there such a number, and both paths lead below that child.
      obtain rfl : k = l := index_unique h.1 hc hc' (id_mem_numbers_of_at? hu)
        (huv ▸ id_mem_numbers_of_at? hv)
      obtain rfl : c = c' := Option.some.inj (hc.symm.trans hc')
      have hnodup := (List.nodup_flatMap.1 h.1).1 c (List.mem_of_getElem? hc)
      rw [ih hnodup hu hv]

/-! ### Post-order -/

mutual

theorem StoredIn.postOrder : (t : Tree) → t.StoredIn nodes → Arena.PostOrder nodes t.id t.numbers
  | node i s ts => by
    intro h
    have hnode : nodes[i]? = some ⟨s, ts.map id⟩ := h (node i s ts) (self_mem_subtrees _)
    rw [numbers_eq]
    exact .node hnode (postOrder_all ts fun c hc => h.child hc)

theorem postOrder_all : (ts : List Tree) → (∀ t ∈ ts, t.StoredIn nodes) →
    List.Forall₂ (Arena.PostOrder nodes) (ts.map id) (ts.map numbers)
  | [] => fun _ => .nil
  | t :: ts => fun h => .cons (StoredIn.postOrder t (h t List.mem_cons_self))
      (postOrder_all ts fun c hc => h c (List.mem_cons_of_mem t hc))

end

/-- Trees whose numbers go on from a first one are laid out one after the other. -/
theorem laid_blocks {ts : List Subtree} {first : Nat} (h : ∀ t ∈ ts, t.tree.StoredIn nodes)
    (hnumbers : ts.flatMap (fun t => t.tree.numbers) =
      List.range' first (nodes.length - first)) (hfirst : first ≤ nodes.length) :
    Arena.Laid nodes first (ts.map Subtree.block) := by
  induction ts generalizing first with
  | nil =>
    have hlen := List.range'_eq_nil_iff.1 hnumbers.symm
    obtain rfl : first = nodes.length := by omega
    exact .nil
  | cons t ts ih =>
    -- The numbers of the first tree are a beginning of the range, and its root comes last there.
    have hroot : t.block.root = t.tree.id := rfl
    rw [List.flatMap_cons] at hnumbers
    obtain ⟨m, hm, hnum, hrest⟩ := List.range'_eq_append_iff.1 hnumbers.symm
    obtain ⟨k, hk, -, hid⟩ := List.range'_eq_append_iff.1 (hnum.symm.trans t.tree.numbers_eq)
    have hlen : 1 = m - k := by simpa using congrArg List.length hid
    rw [← hlen, List.range'_one, List.singleton_inj] at hid
    have hm' : m = t.tree.id + 1 - first := by omega
    refine .cons (by omega) ?_ (ih ?_ ?_ (by omega))
    · rw [hroot, ← hm', ← hnum]
      exact StoredIn.postOrder t.tree (h t List.mem_cons_self)
    · exact fun u hu => h u (List.mem_cons_of_mem t hu)
    · rw [hrest]
      congr 1 <;> omega

/-! ### Leaves -/

mutual

theorem leaves_eq : (t : Tree) → t.leaves = (t.subtrees.filter (·.children.isEmpty)).map symbol
  | node _ _ [] => rfl
  | node i s (t :: ts) => by
    rw [leaves, leaves_eq t, leavesAll_eq ts]
    simp [subtrees, subtreesAll, children]

theorem leavesAll_eq :
    (ts : List Tree) → leavesAll ts = ((subtreesAll ts).filter (·.children.isEmpty)).map symbol
  | [] => rfl
  | t :: ts => by
    rw [leavesAll, leaves_eq t, leavesAll_eq ts, subtreesAll, List.filter_append, List.map_append]

end

mutual

/-- A walk comes to the leaves of a tree before it goes on with the rest of its stack. -/
theorem ends_gather : (t : Tree) → t.StoredIn nodes → ∀ {found stack s},
    Ends (FlatTree.gather nodes) (found ++ t.leaves, stack) s →
    Ends (FlatTree.gather nodes) (found, t.id :: stack) s
  | node i s ts => by
    intro h found stack s' hend
    have hnode : nodes[i]? = some ⟨s, ts.map id⟩ := h (node i s ts) (self_mem_subtrees _)
    cases ts with
    | nil => exact .next (by rw [id, FlatTree.gather, hnode]; rfl) hend
    | cons t ts =>
      refine .next (by rw [id, FlatTree.gather, hnode]; rfl) ?_
      exact ends_gather_all (t :: ts) (fun c hc => h.child hc) hend

theorem ends_gather_all : (ts : List Tree) → (∀ t ∈ ts, t.StoredIn nodes) → ∀ {found stack s},
    Ends (FlatTree.gather nodes) (found ++ leavesAll ts, stack) s →
    Ends (FlatTree.gather nodes) (found, ts.map id ++ stack) s
  | [] => by
    intro _ found stack s hend
    simpa [leavesAll] using hend
  | t :: ts => by
    intro h found stack s hend
    refine ends_gather t (h t List.mem_cons_self) ?_
    refine ends_gather_all ts (fun c hc => h c (List.mem_cons_of_mem t hc)) ?_
    rw [List.append_assoc]
    exact hend

end

/-- A tree without subtrees. -/
def flat (t : Tree) : FlatTree := ⟨t.subtrees.map toNode, t.id, t.rows.map (·.map id)⟩

theorem leaves_flat (t : Tree) :
    t.leaves = (t.flat.nodes.filter (·.children.isEmpty)).map Node.symbol := by
  rw [leaves_eq, flat, List.filter_map, List.map_map]
  simp [Function.comp_def, toNode]

/-- A stored tree with all numbers below the number of its nodes can be walked through. -/
theorem StoredIn.sound (h : t.StoredIn t.flat.nodes)
    (hnumbers : t.numbers = List.range t.flat.nodes.length) : t.flat.Sound where
  inside := by
    intro p i hp
    obtain ⟨u, hu, rfl⟩ := Option.map_eq_some_iff.1 ((h.follow p).symm.trans hp)
    rw [← List.mem_range, ← hnumbers]
    exact id_mem_numbers_of_at? hu
  once := by
    intro i hi
    rw [← List.mem_range, ← hnumbers] at hi
    obtain ⟨u, hu, rfl⟩ := List.mem_map.1 hi
    obtain ⟨p, hp⟩ := exists_at? t u hu
    refine ⟨p, (h.follow p).trans (congrArg (Option.map id) hp), fun q hq => ?_⟩
    obtain ⟨v, hv, hvu⟩ := Option.map_eq_some_iff.1 ((h.follow q).symm.trans hq)
    exact at?_unique (hnumbers ▸ List.nodup_range) hv hp hvu
  height := FlatTree.isGreatest_length h.getD_rows t.nil_notMem_rows
  rows := h.getD_rows
  breadthFirst := by
    refine FlatTree.ends_broaden [] h.getD_rows fun level hlevel i hi => ?_
    obtain ⟨row, hrow, rfl⟩ := List.mem_map.1 hlevel
    obtain ⟨u, hu, rfl⟩ := List.mem_map.1 hi
    rw [← List.mem_range, ← hnumbers]
    exact List.mem_map_of_mem (mem_subtrees_of_mem_rows t row hrow u hu)
  leaves := by
    rw [← leaves_flat]
    exact ends_gather t h (.stop rfl)

end Tree

namespace Forest

variable {f : Forest} {t : Tree}

theorem Numbered.storedIn (hf : f.Numbered) (ht : t ∈ f.trees) : t.StoredIn f.arena.nodes :=
  fun _ hu => hf.getElem?_nodes (Tree.mem_subtreesAll_iff.2 ⟨t, ht, hu⟩)

theorem mem_arena_stack_iff {b : Arena.Block} :
    b ∈ f.arena.stack ↔ ∃ t ∈ f.stack, t.block = b := by
  rw [arena, List.mem_reverse, List.mem_map]

theorem tree_mem_trees {t : Subtree} (ht : t ∈ f.stack) : t.tree ∈ f.trees :=
  List.mem_reverse.2 (List.mem_map_of_mem ht)

theorem Numbered.tidy (hf : f.Numbered) : f.arena.Tidy where
  laid := by
    have hstack : f.arena.stack = f.stack.reverse.map Subtree.block := List.map_reverse.symm
    have hnumbers : f.stack.reverse.flatMap (fun t => t.tree.numbers) =
        List.range' 0 (f.arena.nodes.length - 0) := by
      rw [Nat.sub_zero, hf.length_nodes, ← List.range_eq_range', ← hf, Tree.map_id_subtreesAll,
        trees, ← List.map_reverse, List.flatMap_map]
    rw [hstack]
    refine Tree.laid_blocks (fun t ht => ?_) hnumbers (Nat.zero_le _)
    exact hf.storedIn (tree_mem_trees (List.mem_reverse.1 ht))
  levels := by
    intro b hb d
    obtain ⟨t, ht, rfl⟩ := mem_arena_stack_iff.1 hb
    exact (hf.storedIn (tree_mem_trees ht)).getD_rows d
  filled := by
    intro b hb
    obtain ⟨t, -, rfl⟩ := mem_arena_stack_iff.1 hb
    exact t.tree.nil_notMem_rows

theorem finish_arena (f : Forest) : f.arena.finish = f.finish.map Tree.flat := by
  obtain ⟨levels, stack, nextId⟩ := f
  match stack with
  | [] => rfl
  | [t] =>
    simp only [finish, Arena.finish, arena, trees, List.map_singleton, List.reverse_singleton,
      Tree.subtreesAll_singleton]
    rfl
  | t :: u :: ts =>
    unfold Arena.finish
    split
    · rename_i b hb
      have hlen := congrArg List.length hb
      simp [arena] at hlen
    · simp only [arena, List.length_reverse, List.length_map]
      rfl

theorem nodes_of_finish (h : f.finish = .ok t) : f.arena.nodes = t.flat.nodes := by
  rw [arena, finish_iff_trees.1 h, Tree.subtreesAll_singleton]
  rfl

theorem Numbered.sound (hf : f.Numbered) (h : f.finish = .ok t) : t.flat.Sound := by
  have htrees := finish_iff_trees.1 h
  have hstored : t.StoredIn t.flat.nodes := by
    rw [← nodes_of_finish h]
    exact hf.storedIn (htrees ▸ List.mem_cons_self)
  refine hstored.sound ?_
  rw [← nodes_of_finish h, hf.length_nodes, ← hf, htrees, Tree.subtreesAll_singleton]
  rfl

theorem Numbered.symbols_flat (hf : f.Numbered) (h : f.finish = .ok t) :
    t.flat.symbols = t.levels := by
  rw [FlatTree.symbols, ← nodes_of_finish h]
  obtain ⟨s, hs, rfl⟩ := List.map_eq_singleton_iff.1 (finish_eq_ok_iff.1 h)
  exact hf.symbols_block (hs ▸ List.mem_cons_self)

/-- Calls, whether they fail or not and whatever positions reductions are handed, keep the arena of a
forest in step with it.  A call that fails changes neither; the subtrees have consecutive numbers in
post-order and the levels that going down from their roots gives; and what is finished is the tree
without subtrees, through which all walks lead as they should. -/
theorem arena_invariant (levels : Option Automaton) (cs : List Call) :
    let f := ofCalls levels cs
    let a := Arena.ofCalls levels cs
    f.arena = a ∧
    (∀ c, (a.call c).1 = (f.call c).1 ∧
      ∀ e, (f.call c).1 = .error e → (f.call c).2 = f ∧ (a.call c).2 = a) ∧
    a.Tidy ∧
    a.finish = f.finish.map Tree.flat ∧
    ∀ t, f.finish = .ok t → t.flat.Sound ∧ t.flat.depth = t.depth ∧ t.flat.symbols = t.levels ∧
      Ends (FlatTree.gather t.flat.nodes) ([], [t.flat.root]) (t.leaves, []) := by
  intro f a
  obtain ⟨harena, hf⟩ : f.arena = a ∧ f.Numbered := arena_ofCalls levels cs
  have hanswer : ∀ c, (a.call c).1 = (f.call c).1 := by
    intro c
    rw [← harena, (hf.call_arena c).1]
  refine ⟨harena, fun c => ⟨hanswer c, fun e he => ⟨call_of_error he, ?_⟩⟩, harena ▸ hf.tidy,
    harena ▸ finish_arena f, fun t ht => ⟨hf.sound ht, ?_, hf.symbols_flat ht, ?_⟩⟩
  · exact Arena.call_of_error ((hanswer c).trans he)
  · rw [FlatTree.depth, ← t.length_levels, ← hf.symbols_flat ht]
    exact (List.length_map _).symm
  · rw [t.leaves_flat]
    exact (hf.sound ht).leaves

/-- The first reduction by `S -> a S b` comes too early and is refused.  The second one is handed
positions, although there is nothing to check. -/
theorem arena_invariant_demo :
    ∃ cs t, (ofCalls none (cs.take 2)).call (.merge ⟨⟨"S"⟩, [⟨"a"⟩, ⟨"S"⟩, ⟨"b"⟩]⟩ none) =
        (.error (.stackUnderflow ⟨⟨"S"⟩, [⟨"a"⟩, ⟨"S"⟩, ⟨"b"⟩]⟩ 2), ofCalls none (cs.take 2)) ∧
      (ofCalls none cs).finish = .ok t ∧ (Arena.ofCalls none cs).finish = .ok t.flat ∧
      t.flat.levels = [[5], [3, 4], [0, 1, 2]] ∧ t.flat.depth = 3 ∧ t.flat.Sound ∧
      Ends (FlatTree.gather t.flat.nodes) ([], [5]) ([⟨"a"⟩, ⟨"S"⟩, ⟨"b"⟩, ⟨"b"⟩], []) := by
  obtain ⟨-, -, -, hfinish, hsound⟩ := arena_invariant none [.push ⟨"a"⟩, .merge ⟨⟨"S"⟩, []⟩ none,
    .merge ⟨⟨"S"⟩, [⟨"a"⟩, ⟨"S"⟩, ⟨"b"⟩]⟩ none, .push ⟨"b"⟩,
    .merge ⟨⟨"S"⟩, [⟨"a"⟩, ⟨"S"⟩, ⟨"b"⟩]⟩ (some [.unknown]), .push ⟨"b"⟩,
    .merge ⟨⟨"S"⟩, [⟨"S"⟩, ⟨"b"⟩]⟩ none]
  obtain ⟨hwalks, hdepth, -, hleaves⟩ := hsound _ rfl
  exact ⟨_, _, rfl, rfl, hfinish, rfl, hdepth, hwalks, hleaves⟩

end Forest

end TreeControl
