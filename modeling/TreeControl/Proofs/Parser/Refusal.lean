import TreeControl.Proofs.Parser.Guided
import TreeControl.Proofs.Table.Canonical

/-! # Where an input is refused

In a table without conflicts an offered action can always be carried out, so an error means that
nothing is offered for the state and the lookahead (`Consistent.refuses_of_error`).

Until then the parser has seen only the tokens that it shifted and the lookahead.  On another input
that begins in the same way it takes the same steps (`Runs.exists_mirror`) and is stuck in the same
state.  A sentence is not such an input, since on a sentence the steps lead to acceptance and are the
only ones; so the lookahead is the first token that no sentence continues with.

The symbols on the stack lead from the first state to the last, so the start symbol generates a form
that begins with them (`ItemRun.generates`), and they generate the tokens shifted.  If all
nonterminals are productive, these tokens begin a sentence.  Together, `parse_refuses`. -/

namespace TreeControl.Parser

variable {σ τ : Type} [TokenSource σ] [TokenSource τ] {g G : Grammar} {t : Table} {m : Means}
  {s : Setting} {c c₀ c' : Config σ} {d : Config τ} {source source' : σ} {tree : Tree}
  {token : Symbol} {u v w z : List Symbol} {acts : List Action} {cell : Cell} {e : ParseError}
  {q steps : Nat} {frames : List Frame}

/-! ### Runs that end with an error -/

theorem exists_performs (h : (step s c).outcome = .ok (.going c')) : ∃ a, Performs s c a c' := by
  unfold step at h
  rw [Attempt.outcome_bind, Attempt.outcome_emit, bind_eq_ok_iff] at h
  obtain ⟨_, -, h⟩ := h
  split at h
  · rw [Attempt.outcome_bind_eq_ok_iff] at h
    obtain ⟨tree, -, e⟩ := h
    cases e
  · rename_i cell he
    simp only [Attempt.outcome_bind, bind_eq_ok_iff] at h
    obtain ⟨d, hd, c', hc', e⟩ := h
    cases e
    exact ⟨d.action, cell, d, he, hd, rfl, hc'⟩
  · cases h

theorem Follows.runs (h : Follows s c acts c') : Runs s.table c acts c' := by
  induction h with
  | nil c => exact .nil c
  | cons hstep _ ih => exact .cons hstep.takes ih

theorem Follows.reached (h : Follows s c acts c') (hc : Reached s source c) :
    Reached s source c' := by
  induction h with
  | nil c => exact hc
  | cons hstep _ ih => exact ih (.step hc hstep.step_eq)

theorem exists_begin_ahead (hsource : TokenSource.Supplies source w)
    (hw : ∀ x ∈ w, x ∈ t.grammar.terminals) :
    ∃ token source', begin t source = .ok ⟨bottom, { automaton := t.automaton }, source', token⟩ ∧
      Ahead token source' w := by
  obtain ⟨token, source', hread⟩ := exists_readToken hsource hw
  refine ⟨token, source', begin_eq_ok_iff.2 ⟨token, source', hread, rfl⟩, ?_⟩
  exact (ahead_iff_of_readToken hread).2 hsource

theorem exists_follows_of_error (h : (run s steps c).value = some (.error e)) :
    ∃ acts c', Follows s c acts c' ∧ (step s c').outcome = .error e := by
  induction steps generalizing c with
  | zero => cases h
  | succ steps ih =>
    rw [run, Traced.value_bind] at h
    cases hstep : (step s c).run.value with
    | error e' =>
      rw [hstep] at h
      cases h
      exact ⟨[], c, .nil c, hstep⟩
    | ok progress =>
      rw [hstep] at h
      cases progress with
      | finished tree => cases h
      | going c₁ =>
        obtain ⟨a, ha⟩ := exists_performs hstep
        obtain ⟨acts, c', hfollows, herr⟩ := ih h
        exact ⟨a :: acts, c', .cons ha hfollows, herr⟩

/-! ### Nothing is offered -/

theorem Ahead.eq_cons (h : Ahead token source v) (hne : token ≠ .blank) :
    ∃ v', v = token :: v' := by
  cases v with
  | nil => exact absurd h hne
  | cons x v => exact ⟨v, by rw [h.1]⟩

/-- A table has no action for a state and a symbol. -/
def Refuses (t : Table) (q : Nat) (x : Symbol) : Prop :=
  t.entry? q x ≠ some .accept ∧ ∀ cell, t.entry? q x ≠ some (.act cell)

theorem Consistent.exists_step (h : Consistent t c)
    (hbuild : (Table.build g m).outcome = .ok t) (hg : g.WellFormed)
    (hplain : c.forest.automaton = none) (hv : Ahead c.lookahead c.source v)
    (hterm : ∀ x ∈ v, x ∈ t.grammar.terminals)
    (he : t.entry? c.state c.lookahead = some (.act cell)) : ∃ c', Step t c c' := by
  obtain ⟨pl, hpl⟩ := (Table.permitted_of_build hbuild he).offers
  cases pl with
  | shift q =>
    obtain ⟨-, hlook⟩ := moves_of_shift hbuild hg (he ▸ hpl)
    obtain ⟨forest, id, hforest, -, -⟩ :=
      exists_merge (r := ⟨c.lookahead, []⟩) hplain (List.append_nil _).symm rfl
    obtain ⟨v', rfl⟩ := hv.eq_cons fun e => hg.named.1 (e ▸ hlook)
    obtain ⟨token, source', hread⟩ := exists_readToken hv.2.2 (List.forall_mem_cons.1 hterm).2
    exact ⟨_, .shift (he ▸ hpl) hforest hread⟩
  | reduce n =>
    obtain ⟨r, popped, rest, q, hr, hframes, hpop, hrest, hgoto, hle⟩ :=
      h.exists_reduction hbuild hg (he ▸ hpl)
    exact ⟨_, .reduce (he ▸ hpl) hr hframes hpop (fun _ => hrest) hgoto
      ((Forest.merge_plain_iff hplain).2 ⟨hle, rfl⟩)⟩
  | accept => cases hpl
  | goto q => cases hpl
  | deadEnd => cases hpl

omit [TokenSource σ] in
theorem finishes_of_accept (hplain : c.forest.automaton = none)
    (he : t.entry? c.state c.lookahead = some .accept) (htrees : c.forest.trees = [tree]) :
    c.Finishes t tree := by
  refine ⟨he, ?_, Forest.finish_iff_trees.2 htrees⟩
  unfold Forest.finalCheck
  rw [hplain]

omit [TokenSource σ] in
theorem Consistent.exists_finishes (h : Consistent t c)
    (hbuild : (Table.build g m).outcome = .ok t) (hg : g.WellFormed)
    (hplain : c.forest.automaton = none) (he : t.entry? c.state c.lookahead = some .accept) :
    ∃ tree, c.Finishes t tree := by
  obtain ⟨top, start, hG⟩ := Table.augments_of_build hbuild
  have hoffer := Entry.offers_accept_iff.2 he
  rw [Table.offers_entry?_iff hbuild, Grammar.asks_accept_iff hG] at hoffer
  have hframes := h.path.length_of_accept hG hg hoffer.2
  rw [h.length_frames] at hframes
  obtain ⟨sub, hstack⟩ := List.length_eq_one_iff.1 (Nat.succ.inj hframes)
  exact ⟨sub.tree, finishes_of_accept hplain he (by simp [Forest.trees, hstack])⟩

/-- Where every action can be carried out and there is one at most, an error means that there is
none. -/
theorem Consistent.refuses_of_error (h : Consistent t c) (ht : Sole t)
    (hbuild : (Table.build g m).outcome = .ok t) (hg : g.WellFormed)
    (hplain : c.forest.automaton = none) (hv : Ahead c.lookahead c.source v)
    (hterm : ∀ x ∈ v, x ∈ t.grammar.terminals)
    (herr : (step t.setting c).outcome = .error e) :
    Refuses t c.state c.lookahead ∧ e = .noRuleForToken c.lookahead c.state c.location := by
  have haccept : t.entry? c.state c.lookahead ≠ some .accept := by
    intro he
    obtain ⟨tree, hfin⟩ := h.exists_finishes hbuild hg hplain he
    have hstep : (step t.setting c).outcome = .ok (.finished tree) := hfin.step_eq
    cases herr.symm.trans hstep
  have hact : ∀ cell, t.entry? c.state c.lookahead ≠ some (.act cell) := by
    intro cell he
    obtain ⟨c', hstep⟩ := h.exists_step hbuild hg hplain hv hterm he
    have hgoing : (step t.setting c).outcome = .ok (.going c') := Sole.step_eq ht hstep
    cases herr.symm.trans hgoing
  refine ⟨⟨haccept, hact⟩, ?_⟩
  unfold step at herr
  rw [Attempt.outcome_bind, Attempt.outcome_emit, bind_eq_error_iff] at herr
  rcases herr with herr | ⟨_, -, herr⟩
  · cases herr
  · split at herr
    · rename_i he
      exact absurd he haccept
    · rename_i cell he
      exact absurd he (hact cell)
    · cases herr
      rfl

theorem Refuses.not_step (h : Refuses t c.state c.lookahead) : ¬ Step t c c' := by
  intro hstep
  cases hstep with
  | shift hoffer _ _ =>
    obtain ⟨cell, he, -⟩ := Entry.offers_shift_iff.1 hoffer
    exact h.2 cell he
  | reduce hoffer _ _ _ _ _ _ =>
    obtain ⟨cell, he, -⟩ := Entry.offers_reduce_iff.1 hoffer
    exact h.2 cell he

theorem Config.Finishes.not_step (h : c.Finishes t tree) : ¬ Step t c c' := by
  intro hstep
  cases hstep with
  | shift hoffer _ _ =>
    rw [h.1] at hoffer
    exact hoffer
  | reduce hoffer _ _ _ _ _ _ =>
    rw [h.1] at hoffer
    exact hoffer

theorem Sole.step_unique (ht : Sole t) :
    Relator.RightUnique (Step t : Config σ → Config σ → Prop) := by
  intro c c₁ c₂ h₁ h₂
  have hstep₁ : (step t.setting c).outcome = .ok (.going c₁) := Sole.step_eq ht h₁
  have hstep₂ : (step t.setting c).outcome = .ok (.going c₂) := Sole.step_eq ht h₂
  cases hstep₁.symm.trans hstep₂
  rfl

/-- Where steps lead to acceptance and are the only ones, the parser is stuck nowhere. -/
theorem Sole.not_refuses (ht : Sole t) (h : Relation.ReflTransGen (Step t) c₀ c)
    (h' : Relation.ReflTransGen (Step t) c₀ c') (hfin : c'.Finishes t tree) :
    ¬ Refuses t c.state c.lookahead := by
  intro hrefuses
  rcases Relation.ReflTransGen.total_of_right_unique ht.step_unique h h' with hcc | hcc
  · cases hcc using Relation.ReflTransGen.head_induction_on with
    | refl => exact hrefuses.1 hfin.1
    | head hstep _ => exact hrefuses.not_step hstep
  · cases hcc using Relation.ReflTransGen.head_induction_on with
    | refl => exact hrefuses.1 hfin.1
    | head hstep _ => exact hfin.not_step hstep

/-! ### The tokens that were seen -/

/-- The tokens ahead of a run are those that it shifts and those ahead at its end. -/
theorem Runs.exists_ahead (h : Runs t c acts c') (hbuild : (Table.build g m).outcome = .ok t)
    (hg : g.WellFormed) (hw : Ahead c.lookahead c.source w) :
    ∃ u v, w = u ++ v ∧ u.length = acts.count .shift ∧ Ahead c'.lookahead c'.source v := by
  induction h generalizing w with
  | nil c => exact ⟨[], w, rfl, rfl, hw⟩
  | cons hstep _ ih =>
    cases hstep with
    | shift hoffer _ hread =>
      obtain ⟨-, hterm⟩ := moves_of_shift hbuild hg hoffer
      obtain ⟨w, rfl⟩ := hw.eq_cons fun e => hg.named.1 (e ▸ hterm)
      obtain ⟨u, v, rfl, hlen, hv⟩ := ih ((ahead_iff_of_readToken hread).2 hw.2.2)
      refine ⟨_ :: u, v, rfl, ?_, hv⟩
      rw [List.length_cons, List.count_cons_self, hlen]
    | reduce _ _ _ _ _ _ _ =>
      obtain ⟨u, v, rfl, hlen, hv⟩ := ih hw
      exact ⟨u, v, rfl, by simpa using hlen, hv⟩

/-- Two configurations, perhaps of different inputs, with the same stack, forest and lookahead. -/
structure Mirrors (c : Config σ) (d : Config τ) : Prop where
  frames : d.frames = c.frames
  forest : d.forest = c.forest
  lookahead : d.lookahead = c.lookahead

omit [TokenSource σ] [TokenSource τ] in
theorem Mirrors.state_eq (h : Mirrors c d) : d.state = c.state := by
  rw [Config.state, Config.state, h.frames]

theorem headD_append_congr (u : List Symbol) (h : z.headD .blank = v.headD .blank) :
    (u ++ z).headD .blank = (u ++ v).headD .blank := by
  cases u with
  | nil => exact h
  | cons x u => rfl

/-- A run that shifts some tokens can be taken on any input that begins with them and the same
lookahead behind them. -/
theorem Runs.exists_mirror (h : Runs t c acts c') (hcd : Mirrors c d)
    (hc : Ahead c.lookahead c.source (u ++ v)) (hd : Ahead d.lookahead d.source (u ++ z))
    (hu : u.length = acts.count .shift) (hhead : z.headD .blank = v.headD .blank)
    (hterm : ∀ x ∈ u ++ z, x ∈ t.grammar.terminals) :
    ∃ d', Runs t d acts d' ∧ Mirrors c' d' := by
  induction h generalizing d u with
  | nil c => exact ⟨d, .nil d, hcd⟩
  | @cons c c₁ c' a as hstep _ ih =>
    cases hstep with
    | @shift q forest source token hoffer hforest hread =>
      cases u with
      | nil => simp at hu
      | cons x u =>
        have hterm := (List.forall_mem_cons.1 hterm).2
        obtain ⟨token', source', hread'⟩ := exists_readToken hd.2.2 hterm
        have hv := (ahead_iff_of_readToken hread).2 hc.2.2
        have hz := (ahead_iff_of_readToken hread').2 hd.2.2
        have htoken : token' = token :=
          hz.lookahead_eq.trans ((headD_append_congr u hhead).trans hv.lookahead_eq.symm)
        have hstep : Takes t d .shift ⟨⟨d.lookahead, q⟩ :: d.frames, forest, source', token'⟩ := by
          refine .shift ?_ ?_ hread'
          · rw [hcd.state_eq, hcd.lookahead]
            exact hoffer
          · rw [hcd.forest, hcd.lookahead]
            exact hforest
        have hframes : (⟨d.lookahead, q⟩ :: d.frames : List Frame) =
            ⟨c.lookahead, q⟩ :: c.frames := by
          rw [hcd.frames, hcd.lookahead]
        obtain ⟨d', hruns, hd'⟩ :=
          ih (d := ⟨_, _, source', token'⟩) ⟨hframes, rfl, htoken⟩ hv hz (by simpa using hu) hterm
        exact ⟨d', .cons hstep hruns, hd'⟩
    | @reduce n q r popped rest forest hoffer hr hframes hpop hrest hgoto hforest =>
      have hstep : Takes t d (.reduce n) ⟨⟨r.lhs, q⟩ :: rest, forest, d.source, d.lookahead⟩ := by
        refine .reduce ?_ hr (hcd.frames.trans hframes) hpop hrest hgoto ?_
        · rw [hcd.state_eq, hcd.lookahead]
          exact hoffer
        · rw [hcd.forest]
          exact hforest
      obtain ⟨d', hruns, hd'⟩ :=
        ih (d := ⟨_, _, d.source, d.lookahead⟩) ⟨rfl, rfl, hcd.lookahead⟩ hc hd (by simpa using hu)
          hterm
      exact ⟨d', .cons hstep hruns, hd'⟩

theorem supplies_listed (asked : Nat) (hw : ∀ x ∈ w, x ≠ .blank) :
    TokenSource.Supplies (ListedTokens.mk w asked) w := by
  induction w generalizing asked with
  | nil => rfl
  | cons x w ih =>
    obtain ⟨hx, hw⟩ := List.forall_mem_cons.1 hw
    exact ⟨rfl, hx, ih (asked + 1) hw⟩

/-- Where the parser is refused, no sentence has the tokens that were shifted and then the
lookahead. -/
theorem not_sentence_of_refuses (hg : g.WellFormed) (hbuild : (Table.build g {}).outcome = .ok t)
    (hbegin : begin t source = .ok c₀) (hruns : Runs t c₀ acts c)
    (hw : Ahead c₀.lookahead c₀.source (u ++ v)) (hu : u.length = acts.count .shift)
    (hrefuses : Refuses t c.state c.lookahead) (hhead : z.headD .blank = v.headD .blank) :
    ¬ g.Sentence (u ++ z) := by
  intro hsentence
  obtain ⟨top, start, hG⟩ := Table.augments_of_build hbuild
  have hterm : ∀ x ∈ u ++ z, x ∈ t.grammar.terminals := hG.terminals_eq ▸ hsentence.1
  have hsupply : TokenSource.Supplies (ListedTokens.mk (u ++ z) 0) (u ++ z) := by
    refine supplies_listed 0 fun x hx e => hg.named.1 ?_
    exact e ▸ hsentence.1 x hx
  -- On the sentence the steps lead to acceptance.
  obtain ⟨tree, htree, hstart, hyield⟩ := (Grammar.sentence_iff_exists_tree hg).1 hsentence
  have hsupply' : TokenSource.Supplies (ListedTokens.mk (u ++ z) 0) (g.yield tree) := by
    rw [hyield]
    exact hsupply
  obtain ⟨tree', -, d₀, d₁, hbegin', hsteps, hfin⟩ :=
    exists_yields hbuild hg rfl htree hstart hsupply'
  -- And they lead to where the parser is refused.
  obtain ⟨token, source₁, hread, rfl⟩ := begin_eq_ok_iff.1 hbegin
  obtain ⟨token', source₁', hread', rfl⟩ := begin_eq_ok_iff.1 hbegin'
  have hz : Ahead token' source₁' (u ++ z) := (ahead_iff_of_readToken hread').2 hsupply
  have htoken : token' = token :=
    hz.lookahead_eq.trans ((headD_append_congr u hhead).trans hw.lookahead_eq.symm)
  obtain ⟨d, hruns', hd⟩ := hruns.exists_mirror (d := ⟨_, _, source₁', token'⟩)
    ⟨rfl, rfl, htoken⟩ hw hz hu hhead hterm
  refine (sole_of_build hbuild).not_refuses (steps_iff_exists_runs.2 ⟨acts, hruns'⟩) hsteps hfin ?_
  rw [hd.state_eq, hd.lookahead]
  exact hrefuses

/-! ### The tokens that were shifted -/

omit [TokenSource σ] [TokenSource τ] in
theorem Path.walk (h : Path G frames) :
    ∃ w, (frames.map Frame.symbol).reverse = .blank :: w ∧
      G.walk? 0 w = some (topState frames) := by
  induction h with
  | bottom => exact ⟨[], rfl, rfl⟩
  | @push frames x q _ hmove ih =>
    obtain ⟨w, hsymbols, hwalk⟩ := ih
    refine ⟨w ++ [x], ?_, Grammar.walk?_snoc hwalk hmove⟩
    rw [List.map_cons, List.reverse_cons, hsymbols, List.cons_append]

/-- The roots of the forest lead from the beginning of rule 0 to some item. -/
theorem Sound.exists_itemRun (h : Sound g t source c)
    (hbuild : (Table.build g m).outcome = .ok t) :
    ∃ i r, t.grammar.rules[i.rule]? = some r ∧
      t.grammar.ItemRun ⟨0, 0⟩ (c.forest.trees.map Tree.symbol) i := by
  obtain ⟨top, start, hG⟩ := Table.augments_of_build hbuild
  obtain ⟨w, hsymbols, hwalk⟩ := h.path.walk
  have hroots : c.forest.trees.map Tree.symbol = w := by
    have := hsymbols.symm.trans h.symbols
    rw [List.cons.injEq] at this
    exact this.2.symm
  obtain ⟨i, hi⟩ := hG.exists_holds_of_walk ⟨_, t.grammar.holds_first⟩ hwalk
  obtain ⟨r, hr, -⟩ := Grammar.mem_allItems_iff.1 (hG.mem_allItems_of_holds hi)
  rw [hroots]
  exact ⟨i, r, hr, (hG.holds_iff_run hwalk).1 hi⟩

/-- If all nonterminals are productive, the sentence of the forest begins a sentence. -/
theorem Sound.exists_sentence (h : Sound g t source c) (hbuild : (Table.build g m).outcome = .ok t)
    (hg : g.WellFormed) (hproductive : g.Productive) :
    ∃ z, g.Sentence (g.yieldAll c.forest.trees ++ z) := by
  obtain ⟨top, start, hG⟩ := Table.augments_of_build hbuild
  obtain ⟨i, r, hr, hrun⟩ := h.exists_itemRun hbuild
  obtain ⟨rest, hgen⟩ := hrun.generates hG.rule_zero hr
  rw [List.append_assoc] at hgen
  have hdeclared : ∀ x ∈ [start], x ∈ g.terminals ∨ x ∈ g.nonterminals := by
    simpa using Or.inr (hg.start_mem start hG.start_eq)
  have hgen := hG.generates_old hg hdeclared hgen
  obtain ⟨z, hz, hrest⟩ := hproductive.generates fun x hx =>
    hg.declared_of_generates hdeclared hgen x (List.mem_append_right _ hx)
  have htrees := Grammar.Derives.generatesAll _ h.derived
  refine ⟨z, fun x hx => ?_, start, hG.start_eq, hgen.trans (htrees.append hrest)⟩
  rcases List.mem_append.1 hx with hx | hx
  · obtain ⟨u, -, hu⟩ := List.mem_flatMap.1 hx
    exact Grammar.mem_terminals_of_mem_yield hu
  · exact hz x hx

/-! ### Refused inputs -/

/-- Let a parse of terminals with a table without conflicts end with an error.  Then the table has
no rule for the lookahead in the state reached.  No sentence begins with the tokens that were shifted
and then the lookahead; if that is the end of the input, the input is no sentence.  If every
nonterminal generates terminals, the tokens that were shifted begin a sentence. -/
theorem parse_refuses (hg : g.Built) (hbuild : (Table.build g {}).outcome = .ok t)
    (hsource : TokenSource.Supplies source w) (hw : ∀ x ∈ w, x ∈ g.terminals)
    (hparse : (parse t.setting steps source).value = some (.error e)) :
    ∃ c₀ c acts u v, begin t source = .ok c₀ ∧ Follows t.setting c₀ acts c ∧
      (step t.setting c).outcome = .error e ∧ w = u ++ v ∧ u.length = acts.count .shift ∧
      c.lookahead = v.headD .blank ∧ e = .noRuleForToken c.lookahead c.state c.location ∧
      (c.lookahead ∈ g.terminals → ∀ z, ¬ g.Sentence (u ++ c.lookahead :: z)) ∧
      (c.lookahead = .blank → u = w ∧ ¬ g.Sentence u) ∧
      (g.Productive → ∃ z, g.Sentence (u ++ z)) := by
  have hwf := hg.wellFormed
  obtain ⟨top, start, hG⟩ := Table.augments_of_build hbuild
  have hterm : ∀ x ∈ w, x ∈ t.grammar.terminals := hG.terminals_eq ▸ hw
  obtain ⟨token, source', hbegin, hahead⟩ := exists_begin_ahead hsource hterm
  rw [parse, show begin t.setting.table source = _ from hbegin] at hparse
  obtain ⟨acts, c, hfollows, herr⟩ := exists_follows_of_error hparse
  have hruns : Runs t _ acts c := hfollows.runs
  have hreached : Reached t.setting source c := hfollows.reached (.begin hbegin)
  have plain : ∀ A, (Means.automaton {}) = some A → A.Built := by
    intro A hA
    cases hA
  obtain ⟨hsound, hautomaton⟩ := hreached.sound hwf plain hbuild
  -- The tokens are those of the forest and those to come.
  obtain ⟨u, v, rfl, hlen, hv⟩ := hruns.exists_ahead hbuild hwf hahead
  have hyield : g.yieldAll c.forest.trees = u :=
    List.append_cancel_right ((hsound.tokens v hv).unique hsource)
  have hlook := hv.lookahead_eq
  obtain ⟨hrefuses, herror⟩ := (hreached.consistent hwf plain hbuild).refuses_of_error
    (sole_of_build hbuild) hbuild hwf
    (hautomaton.trans (Table.automaton_eq_none_of_build hbuild rfl)) hv
    (fun x hx => hterm x (List.mem_append_right _ hx)) herr
  have hnot : ∀ z, z.headD .blank = v.headD .blank → ¬ g.Sentence (u ++ z) :=
    fun z hz => not_sentence_of_refuses hwf hbuild hbegin hruns hahead hlen hrefuses hz
  refine ⟨_, c, acts, u, v, hbegin, hfollows, herr, rfl, hlen, hlook, herror, fun _ z => ?_,
    fun hblank => ?_, fun hproductive => ?_⟩
  · exact hnot _ hlook
  · cases v with
    | nil => exact ⟨(List.append_nil u).symm, List.append_nil u ▸ hnot [] rfl⟩
    | cons x v => exact absurd (hv.1.symm.trans hblank) hv.2.1
  · exact hyield ▸ hsound.exists_sentence hbuild hwf hproductive

theorem productive_demo : (Demo.grammar.toOption.getD {}).Productive := by
  have hall : ∀ s ∈ (Demo.grammar.toOption.getD {}).nonterminals.toList,
      (⟨s, []⟩ : Rule) ∈ (Demo.grammar.toOption.getD {}).rules := by decide +kernel
  exact fun s hs => ⟨[], by simp, Grammar.generates_rule (hall s hs)⟩

/-- The demonstration grammar has a sentence that begins with what stands before the second `b` of
`a b b`, and none that goes on with that `b`. -/
theorem parse_refuses_demo :
    ∃ g t u v, Demo.grammar = .ok g ∧ (Table.build g {}).outcome = .ok t ∧
      (parse t.setting 20 (ListedTokens.mk [⟨"a"⟩, ⟨"b"⟩, ⟨"b"⟩] 0)).value =
        some (.error (.noRuleForToken ⟨"b"⟩ 1 ⟨1, 3⟩)) ∧
      [⟨"a"⟩, ⟨"b"⟩, ⟨"b"⟩] = u ++ v ∧ v.headD .blank = ⟨"b"⟩ ∧
      (∀ z, ¬ g.Sentence (u ++ ⟨"b"⟩ :: z)) ∧ ∃ z, g.Sentence (u ++ z) := by
  have hg := Demo.grammar_eq
  have hterm : ∀ x ∈ [⟨"a"⟩, ⟨"b"⟩, ⟨"b"⟩], x ∈ (Demo.grammar.toOption.getD {}).terminals := by
    decide +kernel
  have hsource : TokenSource.Supplies (ListedTokens.mk [⟨"a"⟩, ⟨"b"⟩, ⟨"b"⟩] 0)
      [⟨"a"⟩, ⟨"b"⟩, ⟨"b"⟩] := supplies_listed 0 (by decide)
  have hrun : ((Table.build (Demo.grammar.toOption.getD {}) {}).outcome.toOption.bind
      fun t => (parse t.setting 20 (ListedTokens.mk [⟨"a"⟩, ⟨"b"⟩, ⟨"b"⟩] 0)).value.bind
        fun
          | .error e => some e
          | .ok _ => none) = some (.noRuleForToken ⟨"b"⟩ 1 ⟨1, 3⟩) := by
    decide +kernel
  obtain ⟨t, ht, hrun⟩ := Option.bind_eq_some_iff.1 hrun
  obtain ⟨x, hx, hrun⟩ := Option.bind_eq_some_iff.1 hrun
  have hbuild := toOption_eq_some_iff.1 ht
  cases x with
  | ok tree => cases hrun
  | error e =>
    cases hrun
    obtain ⟨c₀, c, acts, u, v, -, -, -, hw, -, hlook, he, hnot, -, hprefix⟩ :=
      parse_refuses (Demo.built_grammar hg) hbuild hsource hterm hx
    have hb : c.lookahead = ⟨"b"⟩ := (ParseError.noRuleForToken.inj he).1.symm
    rw [hb] at hlook hnot
    exact ⟨_, t, u, v, hg, hbuild, hx, hw, hlook.symm, hnot (hterm _ (by simp)),
      hprefix productive_demo⟩

end TreeControl.Parser
