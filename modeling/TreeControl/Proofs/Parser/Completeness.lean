import TreeControl.Proofs.Grammar.Prediction
import TreeControl.Proofs.Parser.Soundness

/-! # Every derivation is parsed back

Where a state expects the root of a derived tree and the tree's sentence comes next, steps of the
parser build a tree of the same shape on top of the stack, and their actions are those of the tree in
the order of its construction (`Script`, `runs_of_tree`).  The induction is on the tree: a leaf is
shifted; the children of a node move the item of its rule to the end, one after the other
(`runs_of_children`), and then the reduction is offered because what comes next can follow the node.

In a table without conflicts these steps are the only ones, so the sentence of a derivation is parsed
into that derivation and no other has the same sentence (`parse_yield`). -/

namespace TreeControl.Parser

variable {σ : Type} [TokenSource σ] {g : Grammar} {t : Table} {m : Means} {c c' : Config σ}
  {source source' : σ} {u tree : Tree} {ts us : List Tree} {w : List Symbol} {i : Item}
  {s x : Symbol} {q n k : Nat} {r : Rule}

/-! ### Tokens to come -/

theorem Ahead.lookahead_eq {lookahead : Symbol} (h : Ahead lookahead source w) :
    lookahead = w.headD .blank := by
  cases w with
  | nil => exact h
  | cons s w => exact h.1

theorem exists_readToken (h : TokenSource.Supplies source w)
    (hw : ∀ x ∈ w, x ∈ t.grammar.terminals) :
    ∃ token source', readToken t source = .ok (token, source') := by
  refine ⟨(TokenSource.next source).1, (TokenSource.next source).2,
    readToken_eq_ok_iff.2 ⟨rfl, ?_⟩⟩
  cases w with
  | nil => exact .inl h
  | cons x w =>
    rw [h.1]
    exact .inr (hw x List.mem_cons_self)

/-! ### Plain forests -/

theorem exists_merge {f : Forest} (h : f.automaton = none) {below : List Tree}
    (htrees : f.trees = below ++ us) (hlen : us.length = r.rhs.length) :
    ∃ forest id, (f.merge r none).outcome = .ok forest ∧ forest.automaton = none ∧
      forest.trees = below ++ [.node id r.lhs us] := by
  have hle : r.rhs.length ≤ f.stack.length := by
    have := congrArg List.length htrees
    rw [Forest.trees, List.length_reverse, List.length_map, List.length_append] at this
    omega
  have hmerge : (f.merge r none).outcome = .ok (f.reduced r []) :=
    (Forest.merge_plain_iff h).2 ⟨hle, rfl⟩
  obtain ⟨below', us', htrees', hlen', hnew⟩ := Forest.trees_of_merge hmerge
  rw [htrees] at htrees'
  obtain ⟨rfl, rfl⟩ := List.append_inj' htrees' (hlen.trans hlen'.symm)
  exact ⟨_, _, hmerge, h, hnew⟩

/-! ### Single steps -/

/-- A configuration with a stack and without a level automaton. -/
structure Plain (c : Config σ) : Prop where
  frames : c.frames ≠ []
  forest : c.forest.automaton = none

/-- A terminal that is expected and comes next is shifted. -/
theorem step_of_terminal (hbuild : (Table.build g m).outcome = .ok t) (hg : g.WellFormed)
    (hc : Plain c) (hmove : t.grammar.Moves c.state s q) (hs : s ∈ g.terminals)
    (hw : Ahead c.lookahead c.source (s :: w)) (hterm : ∀ x ∈ w, x ∈ g.terminals) :
    ∃ c' id, Takes t c .shift c' ∧ Plain c' ∧ c'.frames = ⟨s, q⟩ :: c.frames ∧
      c'.forest.trees = c.forest.trees ++ [.node id s []] ∧ Ahead c'.lookahead c'.source w := by
  obtain ⟨top, start, hG⟩ := Table.augments_of_build hbuild
  obtain ⟨hlook, -, hsupply⟩ := hw
  have hn : ¬ s ∈ t.grammar.nonterminals := (hG.wellFormed hg).apart s (hG.terminals_eq ▸ hs)
  have hoffer : Entry.Offers (t.entry? c.state c.lookahead) (.shift q) := by
    rw [hlook]
    exact (Table.offers_entry?_iff hbuild).2 (.shift hmove hn)
  obtain ⟨token, source', hread⟩ := exists_readToken hsupply (hG.terminals_eq ▸ hterm)
  obtain ⟨forest, id, hforest, hplain, htrees⟩ :=
    exists_merge (r := ⟨c.lookahead, []⟩) hc.forest (List.append_nil _).symm rfl
  refine ⟨_, id, .shift hoffer hforest hread, ⟨List.cons_ne_nil _ _, hplain⟩, ?_, ?_, ?_⟩
  · rw [hlook]
  · rw [htrees, hlook]
  · exact (ahead_iff_of_readToken hread).2 hsupply

/-- Behind a completed right side the parser reduces, if what comes next can follow. -/
theorem step_of_completed (hbuild : (Table.build g m).outcome = .ok t) (hc : Plain c)
    (hn : n ≠ 0) (hr : t.grammar.rules[n]? = some r)
    (hholds : t.grammar.Holds c.state ⟨n, r.rhs.length⟩)
    (hnext : c.lookahead ∈ t.grammar.predict.value.follow r.lhs) {popped rest : List Frame}
    (hframes : c.frames = popped ++ rest) (hpop : popped.map Frame.symbol = r.rhs.reverse)
    (hrest : rest ≠ []) (hmove : t.grammar.Moves (topState rest) r.lhs q)
    (hlhs : r.lhs ∈ t.grammar.nonterminals) {below : List Tree}
    (htrees : c.forest.trees = below ++ us) (hlen : us.length = r.rhs.length) :
    ∃ c' id, Takes t c (.reduce n) c' ∧ Plain c' ∧ c'.frames = ⟨r.lhs, q⟩ :: rest ∧
      c'.forest.trees = below ++ [.node id r.lhs us] ∧
      c'.lookahead = c.lookahead ∧ c'.source = c.source := by
  have hdone : t.grammar.expected? ⟨n, r.rhs.length⟩ = none := by
    simp [Grammar.expected?, hr]
  have hoffer : Entry.Offers (t.entry? c.state c.lookahead) (.reduce n) :=
    (Table.offers_entry?_iff hbuild).2 (.reduce hholds hn hr hdone hnext)
  have hgoto : t.goto? (topState rest) r.lhs = some q := by
    rw [Table.goto?_eq_some_iff]
    exact (Table.offers_entry?_iff hbuild).2 (.goto hmove hlhs)
  obtain ⟨forest, id, hforest, hplain, htrees'⟩ := exists_merge hc.forest htrees hlen
  exact ⟨_, id, .reduce hoffer hr hframes hpop (fun _ => hrest) hgoto hforest,
    ⟨List.cons_ne_nil _ _, hplain⟩, rfl, htrees', rfl, rfl⟩

/-! ### Actions of a derivation -/

/-- The actions that build a derivation from its leaves, children before their parent.  Rule `n` of a
grammar is rule `n + 1` under the new start symbol. -/
inductive Script (g : Grammar) : Tree → List Action → Prop
  | leaf {id : Nat} {s : Symbol} : s ∈ g.terminals → Script g (.node id s []) [.shift]
  | node {id n : Nat} {s : Symbol} {ts : List Tree} {scripts : List (List Action)} :
      g.rules[n]? = some ⟨s, ts.map Tree.symbol⟩ → List.Forall₂ (Script g) ts scripts →
      Script g (.node id s ts) (scripts.flatten ++ [.reduce (n + 1)])

mutual

theorem Script.derives (hg : g.WellFormed) : (u : Tree) → ∀ {acts : List Action},
    Script g u acts → g.Derives u
  | .node id s ts, acts, h => by
    cases h with
    | leaf hs => exact (Grammar.derives_leaf_iff hs).2 rfl
    | node hr hts =>
      have hrule := List.mem_of_getElem? hr
      have hs : ¬ s ∈ g.terminals := fun ht => hg.apart s ht (hg.lhs_mem _ hrule)
      exact (Grammar.derives_rule_iff hs).2 ⟨hrule, Script.derivesAll hg ts hts⟩

theorem Script.derivesAll (hg : g.WellFormed) : (ts : List Tree) →
    ∀ {scripts : List (List Action)}, List.Forall₂ (Script g) ts scripts → ∀ u ∈ ts, g.Derives u
  | [], _, _ => by simp
  | t :: ts, scripts, h => by
    cases h with
    | cons ht hts =>
      exact List.forall_mem_cons.2 ⟨Script.derives hg t ht, Script.derivesAll hg ts hts⟩

end

mutual

theorem exists_script : (u : Tree) → g.Derives u → ∃ acts, Script g u acts
  | .node id s ts, hu => by
    by_cases hs : s ∈ g.terminals
    · rw [Grammar.derives_leaf_iff hs] at hu
      subst hu
      exact ⟨_, .leaf hs⟩
    · obtain ⟨hrule, hts⟩ := (Grammar.derives_rule_iff hs).1 hu
      obtain ⟨n, hn⟩ := List.mem_iff_getElem?.1 hrule
      obtain ⟨scripts, hscripts⟩ := exists_scripts ts hts
      exact ⟨_, .node hn hscripts⟩

theorem exists_scripts : (ts : List Tree) → (∀ u ∈ ts, g.Derives u) →
    ∃ scripts, List.Forall₂ (Script g) ts scripts
  | [], _ => ⟨[], .nil⟩
  | u :: ts, h => by
    obtain ⟨hu, hts⟩ := List.forall_mem_cons.1 h
    obtain ⟨acts, hacts⟩ := exists_script u hu
    obtain ⟨scripts, hscripts⟩ := exists_scripts ts hts
    exact ⟨acts :: scripts, .cons hacts hscripts⟩

end

/-! ### Whole trees -/

mutual

/-- Where the root of a derived tree is expected and its sentence comes next, the actions of the tree
push a tree of the same shape. -/
theorem runs_of_tree (hbuild : (Table.build g m).outcome = .ok t) (hg : g.WellFormed) :
    (u : Tree) → ∀ {acts : List Action}, Script g u acts → ∀ (c : Config σ) (i : Item)
      (w : List Symbol), Plain c →
    t.grammar.Holds c.state i → t.grammar.expected? i = some u.symbol →
    Ahead c.lookahead c.source (g.yield u ++ w) → (∀ x ∈ w, x ∈ g.terminals) →
    (u.symbol ∈ t.grammar.nonterminals →
      w.headD .blank ∈ t.grammar.predict.value.follow u.symbol) →
    ∃ c' q u', Runs t c acts c' ∧ Plain c' ∧
      c'.frames = ⟨u.symbol, q⟩ :: c.frames ∧ t.grammar.Holds q i.advance ∧
      c'.forest.trees = c.forest.trees ++ [u'] ∧ u'.shape = u.shape ∧
      Ahead c'.lookahead c'.source w
  | .node id s ts, acts, hu, c, i, w, hc, hi, hexp, hw, hterm, hnext => by
    obtain ⟨top, start, hG⟩ := Table.augments_of_build hbuild
    obtain ⟨q, hmove, hadv⟩ := hG.exists_moves hi hexp
    cases hu with
    | leaf hs =>
      rw [Grammar.yield_leaf hs] at hw
      obtain ⟨c', id', hstep, hc', hframes, htrees, hw'⟩ :=
        step_of_terminal hbuild hg hc hmove hs hw hterm
      exact ⟨c', q, _, .single hstep, hc', hframes, hadv, htrees, rfl, hw'⟩
    | @node _ k _ _ scripts hrule hts =>
      have hs : ¬ s ∈ g.terminals :=
        fun ht => hg.apart s ht (hg.lhs_mem _ (List.mem_of_getElem? hrule))
      rw [Grammar.yield_node hs] at hw
      have hr : t.grammar.rules[k + 1]? = some ⟨s, ts.map Tree.symbol⟩ := by
        rw [hG.rules_eq, List.getElem?_cons_succ]
        exact hrule
      have hlhs : s ∈ t.grammar.nonterminals :=
        (hG.wellFormed hg).lhs_mem _ (List.mem_of_getElem? hr)
      have hfirst : t.grammar.Holds c.state ⟨k + 1, 0⟩ :=
        hG.holds_predicted hi (Grammar.mem_predicted_iff.2 ⟨_, hr, hexp, hlhs, rfl⟩)
      obtain ⟨c₁, pushed, us, hruns, hc₁, hframes, hpushed, hlast, htrees, hshape, hw₁⟩ :=
        runs_of_children hbuild hg ts hts c (k + 1) 0 w hc hr hfirst rfl hw hterm (hnext hlhs)
      have hlen : us.length = ts.length := by simpa using congrArg List.length hshape
      rw [Nat.zero_add, ← List.length_map (f := Tree.symbol)] at hlast
      have hfollow := hnext hlhs
      rw [← hw₁.lookahead_eq] at hfollow
      obtain ⟨c', id', hstep, hc', hframes', htrees', hlook, hsource⟩ :=
        step_of_completed hbuild hc₁ (Nat.succ_ne_zero k) hr hlast hfollow hframes hpushed
          hc.frames hmove hlhs htrees (by rw [hlen, List.length_map])
      refine ⟨c', q, _, hruns.trans (.single hstep), hc', hframes', hadv, htrees', ?_, ?_⟩
      · rw [Tree.shape_node, Tree.shape_node, hshape]
      · rw [hlook, hsource]
        exact hw₁

/-- Where an item stands in front of the roots of derived trees, their actions push trees of the same
shapes and move the item behind them. -/
theorem runs_of_children (hbuild : (Table.build g m).outcome = .ok t) (hg : g.WellFormed) :
    (ts : List Tree) → ∀ {scripts : List (List Action)}, List.Forall₂ (Script g) ts scripts →
      ∀ {r : Rule} (c : Config σ) (n k : Nat) (w : List Symbol), Plain c →
    t.grammar.rules[n]? = some r →
    t.grammar.Holds c.state ⟨n, k⟩ → r.rhs.drop k = ts.map Tree.symbol →
    Ahead c.lookahead c.source (g.yieldAll ts ++ w) → (∀ x ∈ w, x ∈ g.terminals) →
    w.headD .blank ∈ t.grammar.predict.value.follow r.lhs →
    ∃ c' pushed us, Runs t c scripts.flatten c' ∧ Plain c' ∧
      c'.frames = pushed ++ c.frames ∧ pushed.map Frame.symbol = (ts.map Tree.symbol).reverse ∧
      t.grammar.Holds c'.state ⟨n, k + ts.length⟩ ∧ c'.forest.trees = c.forest.trees ++ us ∧
      us.map Tree.shape = ts.map Tree.shape ∧ Ahead c'.lookahead c'.source w
  | [], _, .nil, r, c, n, k, w, hc, _, hi, _, hw, _, _ =>
    ⟨c, [], [], .nil c, hc, rfl, rfl, hi, (List.append_nil _).symm, rfl, hw⟩
  | u :: ts, _, .cons hu hts, r, c, n, k, w, hc, hr, hi, hdrop, hw, hterm, hnext => by
    obtain ⟨top, start, hG⟩ := Table.augments_of_build hbuild
    have closed := Prediction.closed_predict t.grammar (hG.wellFormed hg)
    rw [Grammar.yieldAll_cons, List.append_assoc] at hw
    have hrhs : r.rhs = r.rhs.take k ++ u.symbol :: ts.map Tree.symbol := by
      conv_lhs => rw [← List.take_append_drop k r.rhs, hdrop, List.map_cons]
    have hexp : t.grammar.expected? ⟨n, k⟩ = some u.symbol := by
      refine Grammar.expected?_eq_some_iff.2 ⟨r, hr, ?_⟩
      rw [← List.head?_drop, hdrop]
      rfl
    have hdrop' : r.rhs.drop (k + 1) = ts.map Tree.symbol := by
      rw [← List.tail_drop, hdrop]
      rfl
    have hterm' : ∀ x ∈ g.yieldAll ts ++ w, x ∈ g.terminals := by
      intro x hx
      rcases List.mem_append.1 hx with hx | hx
      · obtain ⟨v, -, hv⟩ := List.mem_flatMap.1 hx
        exact Grammar.mem_terminals_of_mem_yield hv
      · exact hterm x hx
    have hfollow : u.symbol ∈ t.grammar.nonterminals →
        (g.yieldAll ts ++ w).headD .blank ∈ t.grammar.predict.value.follow u.symbol := by
      intro hn
      have := closed.after_subtree (List.mem_of_getElem? hr) hrhs hn
        (fun v hv => hG.derives (Script.derivesAll hg ts hts v hv)) hnext
      rwa [Grammar.yieldAll, hG.yield_eq] at this
    obtain ⟨c₁, q, u', hruns₁, hc₁, hframes₁, hadv, htrees₁, hshape₁, hw₁⟩ :=
      runs_of_tree hbuild hg u hu c ⟨n, k⟩ (g.yieldAll ts ++ w) hc hi hexp hw hterm' hfollow
    have hstate : c₁.state = q := by
      unfold Config.state
      rw [hframes₁]
      rfl
    obtain ⟨c₂, pushed, us, hruns₂, hc₂, hframes₂, hpushed, hlast, htrees₂, hshape₂, hw₂⟩ :=
      runs_of_children hbuild hg ts hts c₁ n (k + 1) w hc₁ hr (hstate ▸ hadv) hdrop' hw₁ hterm
        hnext
    refine ⟨c₂, pushed ++ [⟨u.symbol, q⟩], u' :: us, hruns₁.trans hruns₂, hc₂, ?_, ?_, ?_, ?_, ?_,
      hw₂⟩
    · rw [hframes₂, hframes₁, List.append_assoc]
      rfl
    · rw [List.map_append, hpushed, List.map_cons, List.map_cons, List.reverse_cons]
      rfl
    · have : k + 1 + ts.length = k + (u :: ts).length := by
        rw [List.length_cons]
        omega
      exact this ▸ hlast
    · rw [htrees₂, htrees₁, List.append_assoc]
      rfl
    · rw [List.map_cons, List.map_cons, hshape₁, hshape₂]

end

/-! ### Sentences -/

/-- The actions of a derivation under the start symbol lead from the beginning of its sentence to a
configuration that accepts, with a tree of the same shape. -/
theorem exists_runs (hbuild : (Table.build g m).outcome = .ok t) (hg : g.WellFormed)
    {acts : List Action} (hu : Script g u acts) (hstart : g.start = some u.symbol)
    (hsource : TokenSource.Supplies source (g.yield u)) :
    ∃ token source' c u', readToken t source = .ok (token, source') ∧
      Runs t ⟨bottom, {}, source', token⟩ acts c ∧ c.forest.automaton = none ∧
      t.entry? c.state c.lookahead = some .accept ∧ c.forest.trees = [u'] ∧
      u'.shape = u.shape := by
  obtain ⟨top, start, hG⟩ := Table.augments_of_build hbuild
  have hroot : start = u.symbol := by
    have := hG.start_eq
    rw [hstart, Option.some.injEq] at this
    exact this.symm
  have closed := Prediction.closed_predict t.grammar (hG.wellFormed hg)
  -- The end of the input follows the new start symbol, so it follows the old one.
  have hend : Symbol.blank ∈ t.grammar.predict.value.follow start := by
    have hrule : (⟨top, [start]⟩ : Rule) ∈ t.grammar.rules := List.mem_of_getElem? hG.rule_zero
    have hn := (hG.mem_nonterminals start).2 (.inr (hg.start_mem start hG.start_eq))
    have hblank : ([] : List Symbol).headD .blank ∈ t.grammar.predict.value.follow top :=
      closed.start_follow top hG.top_eq
    have hrhs : (⟨top, [start]⟩ : Rule).rhs = [] ++ start :: ([] : List Tree).map Tree.symbol := rfl
    exact closed.after_subtree hrule hrhs hn (by simp) hblank
  have hterm : ∀ x ∈ g.yield u, x ∈ t.grammar.terminals := by
    rw [hG.terminals_eq]
    exact fun x hx => Grammar.mem_terminals_of_mem_yield hx
  obtain ⟨token, source', hread⟩ := exists_readToken hsource hterm
  have hahead : Ahead token source' (g.yield u ++ []) := by
    rw [List.append_nil]
    exact (ahead_iff_of_readToken hread).2 hsource
  obtain ⟨c, q, u', hruns, hc, hframes, hlast, htrees, hshape, hw⟩ :=
    runs_of_tree hbuild hg u hu ⟨bottom, {}, source', token⟩ ⟨0, 0⟩ []
      ⟨List.cons_ne_nil _ _, rfl⟩ (Grammar.holds_first t.grammar)
      (hroot ▸ hG.expected?_first) hahead (by simp) (fun _ => hroot ▸ hend)
  have hstate : c.state = q := by
    unfold Config.state
    rw [hframes]
    rfl
  have hdone : t.grammar.expected? (Item.advance ⟨0, 0⟩) = none := by
    simp [Grammar.expected?, Item.advance, hG.rule_zero]
  have haccept : t.entry? c.state c.lookahead = some .accept := by
    have hoffer := (Table.offers_entry?_iff hbuild).2 (.accept hlast rfl hdone)
    rw [hstate, show c.lookahead = .blank from hw]
    exact Entry.offers_accept_iff.1 hoffer
  exact ⟨token, source', c, u', hread, hruns, hc.forest, haccept, htrees, hshape⟩

theorem exists_yields (hbuild : (Table.build g m).outcome = .ok t) (hg : g.WellFormed)
    (hm : m.automaton = none) (hu : g.Derives u) (hstart : g.start = some u.symbol)
    (hsource : TokenSource.Supplies source (g.yield u)) :
    ∃ tree, tree.shape = u.shape ∧ Yields t source tree := by
  obtain ⟨acts, hacts⟩ := exists_script u hu
  obtain ⟨token, source', c, u', hread, hruns, hplain, haccept, htrees, hshape⟩ :=
    exists_runs hbuild hg hacts hstart hsource
  have hbegin : begin t source = .ok ⟨bottom, {}, source', token⟩ := by
    rw [begin_eq_ok_iff, Table.automaton_eq_none_of_build hbuild hm]
    exact ⟨token, source', hread, rfl⟩
  have hcheck : c.forest.finalCheck = .ok () := by
    unfold Forest.finalCheck
    rw [hplain]
  exact ⟨u', hshape, _, c, hbegin, steps_iff_exists_runs.2 ⟨acts, hruns⟩, haccept, hcheck,
    Forest.finish_iff_trees.2 htrees⟩

theorem sole_of_build (hbuild : (Table.build g {}).outcome = .ok t) : Sole t :=
  fun _ _ _ he => Table.sole_entry? hbuild rfl rfl he

/-- In a table without conflicts the sentence of every derivation under the start symbol is parsed
into a tree of the same shape, as soon as there are enough steps, and no derivation of another shape
has the same sentence. -/
theorem parse_yield (hg : g.Built) (hbuild : (Table.build g {}).outcome = .ok t)
    (hu : g.Derives u) (hstart : g.start = some u.symbol)
    (hsource : TokenSource.Supplies source (g.yield u)) :
    (∃ tree, tree.shape = u.shape ∧
      ∃ n, ∀ steps, n ≤ steps → (parse t.setting steps source).value = some (.ok tree)) ∧
    ∀ v, g.Derives v → g.start = some v.symbol → g.yield v = g.yield u → v.shape = u.shape := by
  have sole : Sole t.setting.table := sole_of_build hbuild
  obtain ⟨tree, hshape, hyields⟩ := exists_yields hbuild hg.wellFormed rfl hu hstart hsource
  obtain ⟨n, hn⟩ := sole.parse_eq hyields
  refine ⟨⟨tree, hshape, n, hn⟩, fun v hv hv' hyield => ?_⟩
  obtain ⟨tree', hshape', hyields'⟩ :=
    exists_yields hbuild hg.wellFormed rfl hv hv' (hyield ▸ hsource)
  obtain ⟨n', hn'⟩ := sole.parse_eq hyields'
  -- Both trees are what the parser returns after enough steps.
  have hparse := hn (max n n') (Nat.le_max_left n n')
  rw [hn' (max n n') (Nat.le_max_right n n'), Option.some.injEq, Except.ok.injEq] at hparse
  rw [← hshape, ← hshape', hparse]

theorem parse_yield_demo :
    ∃ g t, Demo.grammar = .ok g ∧ (Table.build g {}).outcome = .ok t ∧
      ∃ u : Tree, u = .node 0 ⟨"S"⟩ [.node 1 ⟨"a"⟩ [], .node 2 ⟨"S"⟩ [], .node 3 ⟨"b"⟩ []] ∧
        g.Derives u ∧ g.yield u = [⟨"a"⟩, ⟨"b"⟩] ∧
        (∃ tree, tree.shape = u.shape ∧ ∃ n, ∀ steps, n ≤ steps →
          (parse t.setting steps (ListedTokens.mk [⟨"a"⟩, ⟨"b"⟩] 0)).value = some (.ok tree)) ∧
        ∀ v, g.Derives v → g.start = some v.symbol → g.yield v = g.yield u → v.shape = u.shape := by
  have hg := Demo.grammar_eq
  obtain ⟨t, ht⟩ := Demo.exists_table
  have hu : (Demo.grammar.toOption.getD {}).Derives
      (.node 0 ⟨"S"⟩ [.node 1 ⟨"a"⟩ [], .node 2 ⟨"S"⟩ [], .node 3 ⟨"b"⟩ []]) := by decide +kernel
  have hyield : (Demo.grammar.toOption.getD {}).yield
      (.node 0 ⟨"S"⟩ [.node 1 ⟨"a"⟩ [], .node 2 ⟨"S"⟩ [], .node 3 ⟨"b"⟩ []]) =
        [⟨"a"⟩, ⟨"b"⟩] := by decide +kernel
  have hstart : (Demo.grammar.toOption.getD {}).start = some ⟨"S"⟩ := by decide +kernel
  have hsource : TokenSource.Supplies (ListedTokens.mk [⟨"a"⟩, ⟨"b"⟩] 0) [⟨"a"⟩, ⟨"b"⟩] :=
    ⟨rfl, by decide, rfl, by decide, rfl⟩
  refine ⟨_, t, hg, ht, _, rfl, hu, hyield, ?_⟩
  exact parse_yield (Demo.built_grammar hg) ht hu hstart (hyield.symm ▸ hsource)

end TreeControl.Parser
