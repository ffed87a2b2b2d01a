import TreeControl.Proofs.Grammar.Derivation
import TreeControl.Proofs.Parser.Steps

/-! # Every parsed tree is a derivation of its tokens

One invariant ties the parts of a configuration together (`Sound`): the states on the stack follow
the moves of the grammar over the symbols on the stack, these are the roots of the forest, every tree
of the forest is derived, and the sentence of the forest followed by the tokens still to come is the
sentence of the source.  Under a level automaton the forest keeps exact positions.

Every step keeps the invariant, whatever settled the conflict behind it, so a tree that a parse
returns is a derivation of exactly the tokens read, under the start symbol, with accepted levels
(`derives_of_parse`). -/

namespace TreeControl.Parser

variable {σ : Type} [TokenSource σ] {g G : Grammar} {t : Table} {m : Means} {c c' : Config σ}
  {source source' : σ} {token top start : Symbol} {w : List Symbol} {tree : Tree}

/-! ### Tokens to come -/

/-- The sentence from the lookahead on. -/
def Ahead (lookahead : Symbol) (source : σ) : List Symbol → Prop
  | [] => lookahead = .blank
  | s :: w => lookahead = s ∧ s ≠ .blank ∧ TokenSource.Supplies source w

theorem ahead_iff_of_readToken (h : readToken t source = .ok (token, source')) :
    Ahead token source' w ↔ TokenSource.Supplies source w := by
  have hnext := (readToken_eq_ok_iff.1 h).1
  cases w with
  | nil => rw [Ahead, TokenSource.Supplies, hnext]
  | cons s w => rw [Ahead, TokenSource.Supplies, hnext]

/-! ### Stacks -/

/-- A stack whose states follow the moves of a grammar over its symbols. -/
inductive Path (G : Grammar) : List Frame → Prop
  | bottom : Path G bottom
  | push {frames : List Frame} {s : Symbol} {q : Nat} :
      Path G frames → G.Moves (topState frames) s q → Path G (⟨s, q⟩ :: frames)

theorem Path.of_append {popped rest : List Frame} (h : Path G (popped ++ rest))
    (hrest : rest ≠ []) : Path G rest := by
  induction popped with
  | nil => exact h
  | cons f popped ih =>
    rw [List.cons_append] at h
    generalize hframes : f :: (popped ++ rest) = frames at h
    cases h with
    | bottom =>
      have hnil : popped ++ rest = [] := (List.cons.inj hframes).2
      exact absurd (List.append_eq_nil_iff.1 hnil).2 hrest
    | push h _ =>
      rw [← (List.cons.inj hframes).2] at h
      exact ih h

theorem moves_of_goto? (h : (Table.build g m).outcome = .ok t) {q q' : Nat} {s : Symbol}
    (hgoto : t.goto? q s = some q') : t.grammar.Moves q s q' := by
  rw [Table.goto?_eq_some_iff, Table.offers_entry?_iff h] at hgoto
  cases hgoto with
  | goto hmove _ => exact hmove

theorem moves_of_shift (h : (Table.build g m).outcome = .ok t) (hg : g.WellFormed) {q q' : Nat}
    {s : Symbol} (hoffer : Entry.Offers (t.entry? q s) (.shift q')) :
    t.grammar.Moves q s q' ∧ s ∈ g.terminals := by
  obtain ⟨top, start, hG⟩ := Table.augments_of_build h
  rw [Table.offers_entry?_iff h] at hoffer
  cases hoffer with
  | shift hmove hn =>
    refine ⟨hmove, ?_⟩
    rw [← hG.terminals_eq]
    exact (Grammar.mem_of_moves (hG.wellFormed hg) hmove).resolve_right hn

theorem rule_of_reduce (h : (Table.build g m).outcome = .ok t) {q n : Nat} {s : Symbol} {r : Rule}
    (hoffer : Entry.Offers (t.entry? q s) (.reduce n)) (hr : t.grammar.rules[n]? = some r) :
    r ∈ g.rules := by
  obtain ⟨top, start, hG⟩ := Table.augments_of_build h
  rw [Table.offers_entry?_iff h] at hoffer
  cases hoffer with
  | reduce _ hne _ _ _ => exact hG.mem_rules_of_ne_zero hne hr

/-! ### The invariant -/

/-- What ties the parts of a configuration together. -/
structure Sound (g : Grammar) (t : Table) (source : σ) (c : Config σ) : Prop where
  path : Path t.grammar c.frames
  symbols : (c.frames.map Frame.symbol).reverse = .blank :: c.forest.trees.map Tree.symbol
  derived : ∀ u ∈ c.forest.trees, g.Derives u
  tokens : ∀ w, Ahead c.lookahead c.source w →
    TokenSource.Supplies source (g.yieldAll c.forest.trees ++ w)
  levels : ∀ D, t.automaton = some D → ∃ f, Forest.Shadows D f c.forest

theorem sound_begin (h : begin t source = .ok c) : Sound g t source c := by
  obtain ⟨token, source', hread, rfl⟩ := begin_eq_ok_iff.1 h
  refine ⟨.bottom, rfl, ?_, ?_, ?_⟩
  · intro u hu
    cases hu
  · intro w hw
    exact (ahead_iff_of_readToken hread).1 hw
  · intro D hD
    have hforest : ({ automaton := t.automaton } : Forest) = { automaton := some D } := by rw [hD]
    exact ⟨{}, hforest ▸ Forest.shadows_empty D⟩

/-- A merge keeps the forest exact. -/
theorem Sound.levels_of_merge (h : Sound g t source c)
    (hprep : ∀ D, t.automaton = some D → D.Prepared) {r : Rule} {forest : Forest}
    (hforest : (c.forest.merge r none).outcome = .ok forest) :
    ∀ D, t.automaton = some D → ∃ f, Forest.Shadows D f forest := by
  intro D hD
  obtain ⟨f, hf⟩ := h.levels D hD
  obtain ⟨f', -, hf'⟩ := hf.of_merge_checked (hprep D hD) hforest
  exact ⟨f', hf'⟩

theorem Sound.shift (h : Sound g t source c) (hbuild : (Table.build g m).outcome = .ok t)
    (hg : g.WellFormed) (hprep : ∀ D, t.automaton = some D → D.Prepared) {q : Nat}
    {forest : Forest} (hoffer : Entry.Offers (t.entry? c.state c.lookahead) (.shift q))
    (hforest : (c.forest.merge ⟨c.lookahead, []⟩ none).outcome = .ok forest)
    (hread : readToken t c.source = .ok (token, source')) :
    Sound g t source ⟨⟨c.lookahead, q⟩ :: c.frames, forest, source', token⟩ := by
  obtain ⟨hmove, hterm⟩ := moves_of_shift hbuild hg hoffer
  obtain ⟨below, children, htrees, hlen, htrees'⟩ := Forest.trees_of_merge hforest
  have hnil : children = [] := List.eq_nil_of_length_eq_zero hlen
  rw [hnil, List.append_nil] at htrees
  rw [hnil, ← htrees] at htrees'
  refine ⟨h.path.push hmove, ?_, ?_, ?_, h.levels_of_merge hprep hforest⟩
  · rw [List.map_cons, List.reverse_cons, h.symbols, htrees', List.map_append, List.cons_append]
    rfl
  · intro u hu
    rw [htrees'] at hu
    rcases List.mem_append.1 hu with hu | hu
    · exact h.derived u hu
    · rw [List.mem_singleton.1 hu]
      exact (Grammar.derives_leaf_iff hterm).2 rfl
  · intro w hw
    have hblank : c.lookahead ≠ .blank := fun e => hg.named.1 (e ▸ hterm)
    have hsupply := (ahead_iff_of_readToken hread).1 hw
    have := h.tokens (c.lookahead :: w) ⟨rfl, hblank, hsupply⟩
    rw [htrees', Grammar.yieldAll_append, Grammar.yieldAll_cons, Grammar.yield_leaf hterm]
    simpa [Grammar.yieldAll] using this

/-- The popped symbols are the right side of the rule, and so are the roots of the merged trees. -/
theorem Sound.roots_of_merge (h : Sound g t source c) {r : Rule} {popped rest : List Frame}
    {forest : Forest} (hframes : c.frames = popped ++ rest)
    (hpop : popped.map Frame.symbol = r.rhs.reverse)
    (hforest : (c.forest.merge r none).outcome = .ok forest) :
    ∃ below children, c.forest.trees = below ++ children ∧
      forest.trees = below ++ [.node c.forest.nextId r.lhs children] ∧
      (rest.map Frame.symbol).reverse = .blank :: below.map Tree.symbol ∧
      r.rhs = children.map Tree.symbol := by
  obtain ⟨below, children, htrees, hlen, htrees'⟩ := Forest.trees_of_merge hforest
  have hsymbols := h.symbols
  rw [hframes, List.map_append, List.reverse_append, hpop, List.reverse_reverse, htrees,
    List.map_append, ← List.cons_append] at hsymbols
  obtain ⟨hbelow, hchildren⟩ := List.append_inj' hsymbols (by rw [List.length_map, hlen])
  exact ⟨below, children, htrees, htrees', hbelow, hchildren⟩

theorem Sound.reduce (h : Sound g t source c) (hbuild : (Table.build g m).outcome = .ok t)
    (hg : g.WellFormed) (hprep : ∀ D, t.automaton = some D → D.Prepared) {n q : Nat} {r : Rule}
    {popped rest : List Frame} {forest : Forest}
    (hoffer : Entry.Offers (t.entry? c.state c.lookahead) (.reduce n))
    (hr : t.grammar.rules[n]? = some r) (hframes : c.frames = popped ++ rest)
    (hpop : popped.map Frame.symbol = r.rhs.reverse) (hrest : r.rhs ≠ [] → rest ≠ [])
    (hgoto : t.goto? (topState rest) r.lhs = some q)
    (hforest : (c.forest.merge r none).outcome = .ok forest) :
    Sound g t source ⟨⟨r.lhs, q⟩ :: rest, forest, c.source, c.lookahead⟩ := by
  have hrule := rule_of_reduce hbuild hoffer hr
  have hlhs : ¬ r.lhs ∈ g.terminals := fun ht => hg.apart r.lhs ht (hg.lhs_mem r hrule)
  obtain ⟨below, children, htrees, htrees', hbelow, hchildren⟩ :=
    h.roots_of_merge hframes hpop hforest
  have hpath : Path t.grammar rest := by
    have hpath := h.path
    rw [hframes] at hpath
    by_cases hnil : r.rhs = []
    · have : popped = [] := by simpa [hnil] using hpop
      rw [this] at hpath
      exact hpath
    · exact hpath.of_append (hrest hnil)
  refine ⟨hpath.push (moves_of_goto? hbuild hgoto), ?_, ?_, ?_, h.levels_of_merge hprep hforest⟩
  · rw [List.map_cons, List.reverse_cons, hbelow, htrees', List.map_append, List.cons_append]
    rfl
  · intro u hu
    have hderived := h.derived
    rw [htrees] at hderived
    rw [htrees'] at hu
    rcases List.mem_append.1 hu with hu | hu
    · exact hderived u (List.mem_append_left _ hu)
    · rw [List.mem_singleton.1 hu, Grammar.derives_rule_iff hlhs, ← hchildren]
      exact ⟨hrule, fun v hv => hderived v (List.mem_append_right _ hv)⟩
  · intro w hw
    have := h.tokens w hw
    rw [htrees, Grammar.yieldAll_append] at this
    rw [htrees', Grammar.yieldAll_append, Grammar.yieldAll_cons, Grammar.yield_node hlhs]
    simpa [Grammar.yieldAll] using this

theorem Sound.step (h : Sound g t source c) (hbuild : (Table.build g m).outcome = .ok t)
    (hg : g.WellFormed) (hprep : ∀ D, t.automaton = some D → D.Prepared) (hstep : Step t c c') :
    Sound g t source c' := by
  cases hstep with
  | shift hoffer hforest hread => exact h.shift hbuild hg hprep hoffer hforest hread
  | reduce hoffer hr hframes hpop hrest hgoto hforest =>
    exact h.reduce hbuild hg hprep hoffer hr hframes hpop hrest hgoto hforest

theorem Sound.steps (h : Sound g t source c) (hbuild : (Table.build g m).outcome = .ok t)
    (hg : g.WellFormed) (hprep : ∀ D, t.automaton = some D → D.Prepared)
    (hsteps : Relation.ReflTransGen (Step t) c c') : Sound g t source c' := by
  induction hsteps with
  | refl => exact h
  | tail _ hstep ih => exact ih.step hbuild hg hprep hstep

/-! ### Finished parses -/

/-- Where rule 0 is completed at the end of the input, the only tree stands under the start
symbol. -/
theorem Sound.eq_start (h : Sound g t source c) (hbuild : (Table.build g m).outcome = .ok t)
    (hfin : c.Finishes t tree) : g.start = some tree.symbol ∧ c.lookahead = .blank := by
  obtain ⟨top, start, hG⟩ := Table.augments_of_build hbuild
  obtain ⟨haccept, -, hfinish⟩ := hfin
  have hoffer := Entry.offers_accept_iff.2 haccept
  have htrees := Forest.finish_iff_trees.1 hfinish
  have hsymbols := h.symbols
  rw [htrees, List.reverse_eq_iff] at hsymbols
  have hpath := h.path
  rw [Table.offers_entry?_iff hbuild] at hoffer
  generalize hblank : c.lookahead = lookahead at hoffer
  cases hoffer with
  | @accept i hholds hzero hdone =>
    refine ⟨?_, rfl⟩
    unfold Config.state at hholds
    generalize c.frames = frames at hsymbols hpath hholds
    cases hpath with
    | bottom => simp [bottom] at hsymbols
    | @push rest s q hrest hmove =>
      have hs : s = tree.symbol := (List.cons.inj hsymbols).1
      rw [← hs, hG.eq_start_of_completed hmove hholds hzero hdone]
      exact hG.start_eq

/-- A parse returns only derivations.  The root is the start symbol, every node is permitted by the
grammar, the terminal leaves are exactly the tokens before the first blank one, and the level
automaton, as it was before its preparation, accepts every level. -/
theorem derives_of_parse {order : ResolutionOrder} {steps : Nat} (hg : g.Built)
    (hA : ∀ A, m.automaton = some A → A.Built) (hbuild : (Table.build g m).outcome = .ok t)
    (hparse : (parse ⟨t, order⟩ steps source).value = some (.ok tree)) :
    g.start = some tree.symbol ∧ g.Derives tree ∧
      (∀ w, TokenSource.Supplies source w ↔ w = g.yield tree) ∧
      ∀ A, m.automaton = some A → ∀ level ∈ tree.levels, A.Accepts level := by
  obtain ⟨-, hlevels, -, -, -, -⟩ := Table.build_outcome_iff.1 hbuild
  -- The automaton of the table is the prepared one.
  have prepared : ∀ D, t.automaton = some D → ∃ A, m.automaton = some A ∧
      A.prepare.outcome = .ok D := by
    intro D hD
    cases hm : m.automaton with
    | none =>
      rw [Table.prepareLevels_outcome_none hm, hD] at hlevels
      cases hlevels
    | some A =>
      obtain ⟨D', hD', e⟩ := (Table.prepareLevels_outcome_iff hm).1 hlevels
      rw [hD, Option.some.injEq] at e
      exact ⟨A, rfl, e ▸ hD'⟩
  have hprep : ∀ D, t.automaton = some D → D.Prepared := by
    intro D hD
    obtain ⟨A, hm, hAD⟩ := prepared D hD
    exact (Automaton.prepare_spec (hA A hm).wellFormed hAD).1
  obtain ⟨c₀, c, hbegin, hsteps, hfin⟩ := yields_of_parse hparse
  have sound : Sound g t source c := (sound_begin hbegin).steps hbuild hg.wellFormed hprep hsteps
  obtain ⟨hstart, hblank⟩ := sound.eq_start hbuild hfin
  have htrees := Forest.finish_iff_trees.1 hfin.2.2
  refine ⟨hstart, sound.derived tree (htrees ▸ List.mem_singleton.2 rfl), fun w => ?_, ?_⟩
  · have hsupply := sound.tokens [] hblank
    rw [htrees, List.append_nil, Grammar.yieldAll, List.flatMap_singleton] at hsupply
    constructor
    · intro hw
      exact hw.unique hsupply
    · intro e
      rw [e]
      exact hsupply
  · intro A hm level hl
    obtain ⟨D, hAD, hD⟩ := (Table.prepareLevels_outcome_iff hm).1 hlevels
    obtain ⟨f, hf⟩ := sound.levels D hD
    have hstack := hf.trees.trans (Forest.finish_eq_ok_iff.1 hfin.2.2)
    have hchecked := (hf.finalCheck_iff (hprep D hD) hstack).1 hfin.2.1
    obtain ⟨hprepD, hlang⟩ := Automaton.prepare_spec (hA A hm).wellFormed hAD
    rw [← hlang, ← hprepD.accepts_iff]
    exact hchecked level hl

theorem derives_of_parse_demo :
    ∃ g A t tree, Demo.grammar = .ok g ∧ Demo.levels = .ok A ∧
      (Table.build g { automaton := some A, report := true }).outcome = .ok t ∧
      (parse ⟨t, .levelsFirst⟩ 7 (ListedTokens.mk [⟨"a"⟩, ⟨"b"⟩] 0)).value = some (.ok tree) ∧
      tree.levels = [[⟨"S"⟩], [⟨"a"⟩, ⟨"S"⟩, ⟨"b"⟩]] ∧
      g.start = some tree.symbol ∧ g.Derives tree ∧
      (∀ w, TokenSource.Supplies (ListedTokens.mk [⟨"a"⟩, ⟨"b"⟩] 0) w ↔ w = g.yield tree) ∧
      ∀ level ∈ tree.levels, A.Accepts level := by
  have hg := Demo.grammar_eq
  have hA := Demo.levels_eq
  have hrun : ((Table.build (Demo.grammar.toOption.getD {})
      { automaton := some (Demo.levels.toOption.getD {}), report := true }).outcome.toOption.bind
        fun t => (parse ⟨t, .levelsFirst⟩ 7 (ListedTokens.mk [⟨"a"⟩, ⟨"b"⟩] 0)).value.bind
          fun x => x.toOption.map Tree.levels) = some [[⟨"S"⟩], [⟨"a"⟩, ⟨"S"⟩, ⟨"b"⟩]] := by
    decide +kernel
  generalize Demo.grammar.toOption.getD {} = g at hg hrun
  generalize Demo.levels.toOption.getD {} = A at hA hrun
  obtain ⟨t, ht, hrun⟩ := Option.bind_eq_some_iff.1 hrun
  obtain ⟨x, hx, hrun⟩ := Option.bind_eq_some_iff.1 hrun
  obtain ⟨tree, htree, hlevels⟩ := Option.map_eq_some_iff.1 hrun
  have hbuild : (Table.build g { automaton := some A, report := true }).outcome = .ok t :=
    toOption_eq_some_iff.1 ht
  rw [toOption_eq_some_iff.1 htree] at hx
  have built : ∀ B, some A = some B → B.Built := by
    intro B hB
    cases hB
    exact Demo.built_levels hA
  obtain ⟨hstart, hderives, htokens, haccepts⟩ :=
    derives_of_parse (Demo.built_grammar hg) built hbuild hx
  exact ⟨g, A, t, tree, hg, hA, hbuild, hx, hlevels, hstart, hderives, htokens, haccepts A rfl⟩

end TreeControl.Parser
