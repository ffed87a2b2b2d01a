import Mathlib.Data.List.Induction
import TreeControl.Proofs.Demo
import TreeControl.Proofs.Grammar.Forms
import TreeControl.Proofs.Precedence

/-! # Operator grammars

The grammar of infix operators over one atom has the rules `E -> E op E` and `E -> atom`
(`Grammar.Operators`).  Its derivations under `E` are expressions (`Operators.derives_iff`), and
their sentences are atoms with operators between them.

An expression is ordered by a precedence table if every operator is reduced before the operator of
which it is the left operand, and shifted over the one of which it is the right operand
(`Tree.Ordered`).  For a table of left and right groups this holds not only of the operator of an
operand but of all the operators in it, so at most one ordered expression has a given sentence
(`Expression.shape_eq`); and there is one, since an operator and an atom can be added to an ordered
expression on its right side (`Expression.exists_extended`). -/

namespace TreeControl

/-! ### Ordered trees -/

namespace Tree

/-- The operator of a node: the second of three children. -/
def operator? : Tree → Option Symbol
  | node _ _ [_, o, _] => some o.symbol
  | _ => none

/-- At every node with an operator, the operator of the left operand is reduced before it and that
of the right operand is shifted over it. -/
def Ordered (p : Precedence) (t : Tree) : Prop :=
  ∀ u ∈ t.subtrees, ∀ l o r, u.children = [l, o, r] →
    (∀ x, l.operator? = some x → p.verdict x o.symbol = .ok .reduce) ∧
      ∀ x, r.operator? = some x → p.verdict o.symbol x = .ok .shift

variable {p : Precedence} {id id' : Nat} {s o : Symbol} {l r t : Tree} {ts : List Tree}

theorem ordered_leaf : (node id s []).Ordered p := by
  intro u hu l o r hchildren
  rw [subtrees, subtreesAll, List.nil_append, List.mem_singleton] at hu
  subst hu
  cases hchildren

theorem ordered_single_iff : (node id s [l]).Ordered p ↔ l.Ordered p := by
  constructor
  · intro h u hu
    exact h u (by simp [subtrees, subtreesAll, hu])
  · intro h u hu
    simp only [subtrees, subtreesAll, List.append_nil, List.mem_append, List.mem_singleton] at hu
    rcases hu with hu | rfl
    · exact h u hu
    · intro l' o' r' hchildren
      cases hchildren

theorem ordered_operation_iff :
    (node id s [l, node id' o [], r]).Ordered p ↔ l.Ordered p ∧ r.Ordered p ∧
      (∀ x, l.operator? = some x → p.verdict x o = .ok .reduce) ∧
      ∀ x, r.operator? = some x → p.verdict o x = .ok .shift := by
  constructor
  · intro h
    have hroot := h (node id s [l, node id' o [], r]) (by simp [subtrees]) l _ r rfl
    refine ⟨fun u hu => h u ?_, fun u hu => h u ?_, hroot.1, hroot.2⟩
    · simp [subtrees, subtreesAll, hu]
    · simp [subtrees, subtreesAll, hu]
  · rintro ⟨hl, hr, hleft, hright⟩ u hu
    simp only [subtrees, subtreesAll, List.append_nil, List.nil_append, List.mem_append,
      List.mem_singleton] at hu
    rcases hu with (hu | rfl | hu) | rfl
    · exact hl u hu
    · intro l' o' r' hchildren
      cases hchildren
    · exact hr u hu
    · intro l' o' r' hchildren
      cases hchildren
      exact ⟨hleft, hright⟩

theorem operator?_shape : (t : Tree) → t.shape.operator? = t.operator?
  | node _ _ [] => rfl
  | node _ _ [_] => rfl
  | node _ _ [_, _] => rfl
  | node _ _ [_, node _ _ _, _] => rfl
  | node _ _ (_ :: _ :: _ :: _ :: _) => rfl

theorem exists_node_of_shape_eq (h : t.shape = (node id s ts).shape) :
    ∃ id' us, t = node id' s us ∧ us.map shape = ts.map shape := by
  obtain ⟨id', s', us⟩ := t
  rw [shape_node, shape_node, node.injEq] at h
  exact ⟨id', us, by rw [h.2.1], h.2.2⟩

end Tree

/-! ### Expressions -/

/-- The trees of infix operators over an atom. -/
inductive Expression (E atom : Symbol) (ops : OrdSet Symbol) : Tree → Prop
  | atom (id id' : Nat) : Expression E atom ops (.node id E [.node id' atom []])
  | operation {l r : Tree} {o : Symbol} (id id' : Nat) : Expression E atom ops l → o ∈ ops →
      Expression E atom ops r → Expression E atom ops (.node id E [l, .node id' o [], r])

/-- The sentence of some operators: atoms with the operators between them. -/
def operatorSentence (atom : Symbol) (operators : List Symbol) : List Symbol :=
  atom :: operators.flatMap fun o => [o, atom]

/-- A grammar whose rules are `E -> atom` and `E -> E op E` for every operator, each rule once. -/
structure Grammar.Operators (g : Grammar) (E atom : Symbol) (ops : OrdSet Symbol) : Prop where
  built : g.Built
  start_eq : g.start = some E
  atom_mem : atom ∈ g.terminals
  ops_mem : ∀ o ∈ ops, o ∈ g.terminals
  atom_not_mem : ¬ atom ∈ ops
  nodup : g.rules.Nodup
  mem_rules : ∀ r, r ∈ g.rules ↔ r = ⟨E, [atom]⟩ ∨ ∃ o ∈ ops, r = ⟨E, [E, o, E]⟩

namespace Grammar.Operators

variable {g : Grammar} {E atom o : Symbol} {ops : OrdSet Symbol} {l r t : Tree} {id id' : Nat}

theorem wellFormed (h : g.Operators E atom ops) : g.WellFormed := h.built.wellFormed

theorem nonterminal (h : g.Operators E atom ops) : E ∈ g.nonterminals :=
  h.wellFormed.start_mem E h.start_eq

theorem not_terminal (h : g.Operators E atom ops) : ¬ E ∈ g.terminals :=
  fun ht => h.wellFormed.apart E ht h.nonterminal

theorem yield_atom (h : g.Operators E atom ops) :
    g.yield (.node id E [.node id' atom []]) = [atom] := by
  rw [yield_node h.not_terminal, yieldAll_cons, yield_leaf h.atom_mem]
  rfl

theorem yield_operation (h : g.Operators E atom ops) (ho : o ∈ ops) :
    g.yield (.node id E [l, .node id' o [], r]) = g.yield l ++ o :: g.yield r := by
  rw [yield_node h.not_terminal, yieldAll_cons, yieldAll_cons, yieldAll_cons,
    yield_leaf (h.ops_mem o ho)]
  simp [yieldAll]

theorem derives_of_expression (h : g.Operators E atom ops) (ht : Expression E atom ops t) :
    g.Derives t ∧ t.symbol = E := by
  induction ht with
  | atom id id' =>
    refine ⟨(derives_rule_iff h.not_terminal).2 ⟨(h.mem_rules _).2 (.inl rfl), ?_⟩, rfl⟩
    intro u hu
    rw [List.mem_singleton.1 hu, derives_leaf_iff h.atom_mem]
  | @operation l r o id id' _ ho _ ihl ihr =>
    have hrule : (⟨E, [l, .node id' o [], r].map Tree.symbol⟩ : Rule) ∈ g.rules := by
      rw [List.map_cons, List.map_cons, List.map_cons, ihl.2, ihr.2]
      exact (h.mem_rules _).2 (.inr ⟨o, ho, rfl⟩)
    refine ⟨(derives_rule_iff h.not_terminal).2 ⟨hrule, fun u hu => ?_⟩, rfl⟩
    simp only [List.mem_cons, List.not_mem_nil, or_false] at hu
    rcases hu with rfl | rfl | rfl
    · exact ihl.1
    · exact (derives_leaf_iff (h.ops_mem o ho)).2 rfl
    · exact ihr.1

/-- A derivation under `E` is an expression: by the rules the root has one child or three. -/
theorem expression_of_derives (h : g.Operators E atom ops) :
    (t : Tree) → g.Derives t → t.symbol = E → Expression E atom ops t
  | .node id s ts, ht, hs => by
    have hs : E = s := hs.symm
    subst hs
    obtain ⟨hrule, hts⟩ := (derives_rule_iff h.not_terminal).1 ht
    rcases (h.mem_rules _).1 hrule with e | ⟨o, ho, e⟩
    · obtain ⟨⟨id', a, us⟩, rfl, ha⟩ := List.map_eq_singleton_iff.1 (Rule.mk.inj e).2
      have ha : atom = a := ha.symm
      subst ha
      rw [List.forall_mem_singleton, derives_leaf_iff h.atom_mem] at hts
      subst hts
      exact .atom id id'
    · obtain ⟨l, ts₁, rfl, hl, e₁⟩ := List.map_eq_cons_iff.1 (Rule.mk.inj e).2
      obtain ⟨⟨id', o', us⟩, ts₂, rfl, ho', e₂⟩ := List.map_eq_cons_iff.1 e₁
      obtain ⟨r, ts₃, rfl, hr, e₃⟩ := List.map_eq_cons_iff.1 e₂
      have ho' : o' = o := ho'
      subst ho'
      cases List.map_eq_nil_iff.1 e₃
      simp only [List.forall_mem_cons] at hts
      obtain ⟨hl', hm, hr', -⟩ := hts
      rw [derives_leaf_iff (h.ops_mem _ ho)] at hm
      subst hm
      exact .operation id id' (expression_of_derives h l hl' hl) ho
        (expression_of_derives h r hr' hr)

theorem derives_iff (h : g.Operators E atom ops) :
    g.Derives t ∧ t.symbol = E ↔ Expression E atom ops t :=
  ⟨fun ht => h.expression_of_derives t ht.1 ht.2, h.derives_of_expression⟩

end Grammar.Operators

namespace Expression

variable {g : Grammar} {p : Precedence} {E atom o : Symbol} {ops : OrdSet Symbol} {t u : Tree}
  {operators : List Symbol}

/-! ### All the operators of an operand -/

/-- If the operator of an ordered expression is reduced before a symbol, all its operators are. -/
theorem reduce_of_mem (ht : Expression E atom ops t) (h : g.Operators E atom ops)
    (hordered : t.Ordered p) (hroot : ∀ x, t.operator? = some x → p.verdict x o = .ok .reduce) :
    ∀ y ∈ g.yield t, y ∈ ops → p.verdict y o = .ok .reduce := by
  induction ht generalizing o with
  | atom id id' =>
    intro y hy hops
    rw [h.yield_atom, List.mem_singleton] at hy
    exact absurd (hy ▸ hops) h.atom_not_mem
  | @operation l r x id id' _ hx _ ihl ihr =>
    obtain ⟨hl, hr, hleft, hright⟩ := Tree.ordered_operation_iff.1 hordered
    have hxo : p.verdict x o = .ok .reduce := hroot x rfl
    intro y hy hops
    rw [h.yield_operation hx, List.mem_append, List.mem_cons] at hy
    rcases hy with hy | rfl | hy
    · exact Precedence.reduce_trans (ihl hl hleft y hy hops) hxo
    · exact hxo
    · exact ihr hr (fun z hz => Precedence.reduce_of_shift (hright z hz) hxo) y hy hops

/-- If the operator of an ordered expression is shifted over a symbol, all its operators are. -/
theorem shift_of_mem (ht : Expression E atom ops t) (h : g.Operators E atom ops) (hp : p.Regular)
    (hordered : t.Ordered p) (hroot : ∀ x, t.operator? = some x → p.verdict o x = .ok .shift) :
    ∀ y ∈ g.yield t, y ∈ ops → p.verdict o y = .ok .shift := by
  induction ht generalizing o with
  | atom id id' =>
    intro y hy hops
    rw [h.yield_atom, List.mem_singleton] at hy
    exact absurd (hy ▸ hops) h.atom_not_mem
  | @operation l r x id id' _ hx _ ihl ihr =>
    obtain ⟨hl, hr, hleft, hright⟩ := Tree.ordered_operation_iff.1 hordered
    have hox : p.verdict o x = .ok .shift := hroot x rfl
    intro y hy hops
    rw [h.yield_operation hx, List.mem_append, List.mem_cons] at hy
    rcases hy with hy | rfl | hy
    · exact ihl hl (fun z hz => hp.shift_of_reduce hox (hleft z hz)) y hy hops
    · exact hox
    · exact Precedence.shift_trans hox (ihr hr hright y hy hops)

/-! ### At most one ordered expression -/

theorem yield_ne_nil (ht : Expression E atom ops t) (h : g.Operators E atom ops) :
    g.yield t ≠ [] := by
  cases ht with
  | atom id id' =>
    rw [h.yield_atom]
    exact List.cons_ne_nil _ _
  | operation id id' _ ho _ =>
    rw [h.yield_operation ho]
    simp

theorem yield_atom_ne {l r : Tree} {id id' : Nat} (hl : Expression E atom ops l)
    (hr : Expression E atom ops r) (ho : o ∈ ops) (h : g.Operators E atom ops) :
    g.yield (.node id E [l, .node id' o [], r]) ≠ [atom] := by
  intro e
  have hlen := congrArg List.length e
  rw [h.yield_operation ho, List.length_append, List.length_cons, List.length_singleton] at hlen
  have hpos := List.length_pos_iff.2 (hl.yield_ne_nil h)
  have hpos' := List.length_pos_iff.2 (hr.yield_ne_nil h)
  omega

/-- Ordered expressions with the same sentence have the same shape.  If one had its root operator
further to the left, the verdict between the two root operators would be both to reduce and to
shift. -/
theorem shape_eq (ht : Expression E atom ops t) (hu : Expression E atom ops u)
    (h : g.Operators E atom ops) (hp : p.Regular) (hto : t.Ordered p) (huo : u.Ordered p)
    (hyield : g.yield t = g.yield u) : t.shape = u.shape := by
  induction ht generalizing u with
  | atom id id' =>
    rw [h.yield_atom] at hyield
    cases hu with
    | atom _ _ => rfl
    | operation _ _ hl ho hr => exact absurd hyield.symm (yield_atom_ne hl hr ho h)
  | @operation l r o id id' hl ho hr ihl ihr =>
    cases hu with
    | atom _ _ =>
      rw [h.yield_atom] at hyield
      exact absurd hyield (yield_atom_ne hl hr ho h)
    | @operation l' r' o' _ _ hl' ho' hr' =>
      obtain ⟨htl, htr, hleft, hright⟩ := Tree.ordered_operation_iff.1 hto
      obtain ⟨hul, hur, hleft', hright'⟩ := Tree.ordered_operation_iff.1 huo
      rw [h.yield_operation ho, h.yield_operation ho'] at hyield
      rcases append_eq_append_cons_cases hyield with ⟨mid, hmid, hrest⟩ | ⟨mid, hmid, hrest⟩
      · cases mid with
        | nil =>
          rw [List.nil_append, List.cons.injEq] at hrest
          obtain ⟨rfl, hrest⟩ := hrest
          rw [List.append_nil] at hmid
          simp only [Tree.shape_node, List.map_cons, List.map_nil, ihl hl' htl hul hmid.symm,
            ihr hr' htr hur hrest]
        | cons x mid =>
          rw [List.cons_append, List.cons.injEq] at hrest
          obtain ⟨rfl, hrest⟩ := hrest
          have hreduce := hl'.reduce_of_mem h hul hleft' o (by simp [hmid]) ho
          have hshift := hr.shift_of_mem h hp htr hright o' (by simp [hrest]) ho'
          cases hreduce.symm.trans hshift
      · have hreduce := hl.reduce_of_mem h htl hleft o' (by simp [hmid]) ho'
        have hshift := hr'.shift_of_mem h hp hur hright' o (by simp [hrest]) ho
        cases hreduce.symm.trans hshift

/-! ### Shapes of expressions -/

/-- What has the shape of an expression is an expression, with the same sentence, and ordered if the
expression is. -/
theorem of_shape_eq (ht : Expression E atom ops t) (h : g.Operators E atom ops)
    (hshape : u.shape = t.shape) :
    Expression E atom ops u ∧ g.yield u = g.yield t ∧ (t.Ordered p → u.Ordered p) := by
  induction ht generalizing u with
  | atom id id' =>
    obtain ⟨i, us, rfl, hus⟩ := Tree.exists_node_of_shape_eq hshape
    obtain ⟨v, rfl, hv⟩ := List.map_eq_singleton_iff.1 hus
    obtain ⟨j, vs, rfl, hvs⟩ := Tree.exists_node_of_shape_eq hv
    cases List.map_eq_nil_iff.1 hvs
    refine ⟨.atom i j, by rw [h.yield_atom, h.yield_atom], fun _ => ?_⟩
    exact Tree.ordered_single_iff.2 Tree.ordered_leaf
  | @operation l r o id id' hl ho hr ihl ihr =>
    obtain ⟨i, us, rfl, hus⟩ := Tree.exists_node_of_shape_eq hshape
    obtain ⟨l', us₁, rfl, hl', hus₁⟩ := List.map_eq_cons_iff.1 hus
    obtain ⟨v, us₂, rfl, hv, hus₂⟩ := List.map_eq_cons_iff.1 hus₁
    obtain ⟨r', rfl, hr'⟩ := List.map_eq_singleton_iff.1 hus₂
    obtain ⟨j, vs, rfl, hvs⟩ := Tree.exists_node_of_shape_eq hv
    cases List.map_eq_nil_iff.1 hvs
    obtain ⟨hexl, hyl, hol⟩ := ihl hl'
    obtain ⟨hexr, hyr, hor⟩ := ihr hr'
    refine ⟨.operation i j hexl ho hexr, ?_, fun hordered => ?_⟩
    · rw [h.yield_operation ho, h.yield_operation ho, hyl, hyr]
    · obtain ⟨hlo, hro, hleft, hright⟩ := Tree.ordered_operation_iff.1 hordered
      rw [← Tree.operator?_shape, ← hl', Tree.operator?_shape] at hleft
      rw [← Tree.operator?_shape, ← hr', Tree.operator?_shape] at hright
      exact Tree.ordered_operation_iff.2 ⟨hol hlo, hor hro, hleft, hright⟩

/-! ### An ordered expression for every sentence -/

/-- An expression whose operator is reduced before another can be the left operand of that one. -/
theorem exists_rooted (ht : Expression E atom ops t) (h : g.Operators E atom ops) (ho : o ∈ ops)
    (hto : t.Ordered p) (hroot : ∀ x, t.operator? = some x → p.verdict x o = .ok .reduce) :
    ∃ u, Expression E atom ops u ∧ u.Ordered p ∧ g.yield u = g.yield t ++ [o, atom] ∧
      u.operator? = some o := by
  have hleaf : (Tree.node 0 E [.node 0 atom []]).Ordered p :=
    Tree.ordered_single_iff.2 Tree.ordered_leaf
  refine ⟨.node 0 E [t, .node 0 o [], _], .operation 0 0 ht ho (.atom 0 0), ?_, ?_, rfl⟩
  · refine Tree.ordered_operation_iff.2 ⟨hto, hleaf, hroot, fun x hx => ?_⟩
    cases hx
  · rw [h.yield_operation ho, h.yield_atom]

/-- An operator and an atom can be added to an ordered expression on its right side.  The operator
of the expression stays or is the new one. -/
theorem exists_extended (ht : Expression E atom ops t) (h : g.Operators E atom ops)
    (hp : p.Regular) (hbinds : ∀ x ∈ ops, p.binds x = true) (ho : o ∈ ops) (hto : t.Ordered p) :
    ∃ u, Expression E atom ops u ∧ u.Ordered p ∧ g.yield u = g.yield t ++ [o, atom] ∧
      (u.operator? = some o ∨ u.operator? = t.operator?) := by
  induction ht with
  | atom id id' =>
    obtain ⟨u, hu, huo, hyield, hop⟩ := (Expression.atom id id').exists_rooted h ho hto
      (fun x hx => by cases hx)
    exact ⟨u, hu, huo, hyield, .inl hop⟩
  | @operation l r x id id' hl hx hr _ ihr =>
    rcases hp.decides (hbinds x hx) (hbinds o ho) with hreduce | hshift
    · obtain ⟨u, hu, huo, hyield, hop⟩ := (Expression.operation id id' hl hx hr).exists_rooted h ho
        hto (fun y hy => Option.some.inj hy ▸ hreduce)
      exact ⟨u, hu, huo, hyield, .inl hop⟩
    · -- The new operator goes into the right operand.
      obtain ⟨htl, htr, hleft, hright⟩ := Tree.ordered_operation_iff.1 hto
      obtain ⟨u, hu, huo, hyield, hop⟩ := ihr htr
      refine ⟨.node 0 E [l, .node 0 x [], u], .operation 0 0 hl hx hu, ?_, ?_, .inr rfl⟩
      · refine Tree.ordered_operation_iff.2 ⟨htl, huo, hleft, fun y hy => ?_⟩
        rcases hop with hop | hop
        · cases hop.symm.trans hy
          exact hshift
        · exact hright y (hop ▸ hy)
      · rw [h.yield_operation hx, h.yield_operation hx, hyield, List.append_assoc]
        rfl

theorem exists_ordered (h : g.Operators E atom ops) (hp : p.Regular)
    (hbinds : ∀ x ∈ ops, p.binds x = true) (hops : ∀ x ∈ operators, x ∈ ops) :
    ∃ t, Expression E atom ops t ∧ t.Ordered p ∧
      g.yield t = operatorSentence atom operators := by
  induction operators using List.reverseRecOn with
  | nil =>
    exact ⟨_, .atom 0 0, Tree.ordered_single_iff.2 Tree.ordered_leaf, h.yield_atom⟩
  | append_singleton operators o ih =>
    obtain ⟨hops, ho⟩ := List.forall_mem_append.1 hops
    obtain ⟨t, ht, hto, hyield⟩ := ih hops
    obtain ⟨u, hu, huo, hyield', -⟩ :=
      ht.exists_extended h hp hbinds (ho o (List.mem_singleton.2 rfl)) hto
    refine ⟨u, hu, huo, ?_⟩
    rw [hyield', hyield]
    simp [operatorSentence]

end Expression

/-! ### Powers and differences -/

namespace Demo

theorem operators_arithmetic {g : Grammar} (h : arithmetic = .ok g) :
    g.Operators ⟨"E"⟩ ⟨"n"⟩ (.ofList [⟨"^"⟩, ⟨"-"⟩]) := by
  cases arithmetic_eq.symm.trans h
  have hrules : (arithmetic.toOption.getD {}).rules =
      [⟨⟨"E"⟩, [⟨"E"⟩, ⟨"^"⟩, ⟨"E"⟩]⟩, ⟨⟨"E"⟩, [⟨"E"⟩, ⟨"-"⟩, ⟨"E"⟩]⟩, ⟨⟨"E"⟩, [⟨"n"⟩]⟩] := by
    decide +kernel
  refine ⟨built_arithmetic h, by decide +kernel, by decide +kernel, by decide +kernel,
    by decide +kernel, by decide +kernel, fun r => ?_⟩
  rw [hrules]
  simp only [List.mem_cons, List.not_mem_nil, or_false, OrdSet.mem_ofList, exists_eq_or_imp,
    exists_eq_left]
  tauto

theorem declared_arithmetic : arithmeticPrecedence.Declared := by
  have hpower : (Precedence.declare {} .right [⟨"^"⟩]).1.Declared :=
    .declare .empty (by decide) (Prod.ext rfl (by decide +kernel))
  exact .declare hpower (by decide) (Prod.ext rfl (by decide +kernel))

/-- `(n - (n ^ (n ^ n))) - n` is ordered. -/
theorem ordered_arithmetic : (operation (operation number "-" (operation number "^"
    (operation number "^" number))) "-" number).Ordered arithmeticPrecedence := by
  have hleft : arithmeticPrecedence.verdict ⟨"-"⟩ ⟨"-"⟩ = .ok .reduce := by decide +kernel
  have hright : arithmeticPrecedence.verdict ⟨"^"⟩ ⟨"^"⟩ = .ok .shift := by decide +kernel
  have htight : arithmeticPrecedence.verdict ⟨"-"⟩ ⟨"^"⟩ = .ok .shift := by decide +kernel
  simp [operation, number, Tree.ordered_operation_iff, Tree.ordered_single_iff, Tree.ordered_leaf,
    Tree.operator?, Tree.symbol, hleft, hright, htight]

end Demo

end TreeControl
