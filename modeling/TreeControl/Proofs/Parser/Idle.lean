import TreeControl.Proofs.Parser.Termination

/-! # A level automaton that has nothing to refuse

If every derivation under the start symbol has accepted levels, the level automaton is idle: a parse
under it gives the same result as a parse without it, error or tree, on every input and after every
number of steps (`Idle.parse_eq`).

On sentences this follows from what the automaton filters, but an input that is refused has no tree
whose levels could be looked at.  What the parser has built until then begins a derivation, though,
of another sentence with the same tokens in front.  On that sentence the same actions build the same
forest (`Runs.forest_eq`), and the forests on the way to a tree with accepted levels can all be read
(`Idle.readable`).  So the two parses stay in lockstep, and where the one without the automaton finds
nothing to do (`Consistent.error_cases`), so does the other. -/

namespace TreeControl.Parser

variable {σ τ : Type} [TokenSource σ] [TokenSource τ] {g : Grammar} {t tA : Table} {m : Means}
  {D : Automaton} {s : Setting} {c c₀ c' : Config σ} {d d' : Config τ} {source : σ} {tree : Tree}
  {u v w z : List Symbol} {acts : List Action} {e : ParseError} {q steps : Nat} {forest : Forest}

/-! ### Errors without a level automaton -/

theorem step_of_refuses (h : Refuses s.table c.state c.lookahead) :
    (step s c).outcome = .error (.noRuleForToken c.lookahead c.state c.location) := by
  unfold step
  rw [Attempt.outcome_bind, Attempt.outcome_emit, bind_eq_error_iff]
  refine .inr ⟨(), rfl, ?_⟩
  split
  · rename_i he
    exact absurd he h.1
  · rename_i cell he
    exact absurd he (h.2 cell)
  · rfl

/-- A shift that is the only choice fails where the next token is refused. -/
theorem Sole.step_of_shift_error (ht : Sole s.table)
    (hoffer : Entry.Offers (s.table.entry? c.state c.lookahead) (.shift q))
    (hforest : (c.forest.merge ⟨c.lookahead, []⟩ none).outcome = .ok forest)
    (hread : readToken s.table c.source = .error e) : (step s c).outcome = .error e := by
  have hsole : ∀ pl, Entry.Offers (s.table.entry? c.state c.lookahead) pl ↔ pl = .shift q :=
    fun pl => ht.offers_iff hoffer
  obtain ⟨cell, he, -⟩ := Entry.offers_shift_iff.1 hoffer
  rw [he] at hsole
  have hshift : (shift s.table c q).outcome = .error e := by
    simp only [shift, Attempt.outcome_bind, Attempt.outcome_emit, Attempt.outcome_ofExcept,
      Forest.pushLeaf_eq_merge, bind_eq_error_iff, mapError_eq_ok_iff]
    exact .inr ⟨(), trivial, .inr ⟨forest, hforest, .inl hread⟩⟩
  unfold step
  rw [Attempt.outcome_bind, Attempt.outcome_emit, bind_eq_error_iff, he]
  refine .inr ⟨(), rfl, ?_⟩
  simp only [Attempt.outcome_bind, bind_eq_error_iff]
  exact .inr ⟨_, DecisionPoint.choose_shift hsole, .inl hshift⟩

/-- In a table without conflicts an error has two reasons: nothing is offered for the lookahead, or
the token behind a lookahead that is shifted is not in the grammar. -/
theorem Consistent.error_cases (h : Consistent t c) (ht : Sole t)
    (hbuild : (Table.build g m).outcome = .ok t) (hg : g.WellFormed)
    (hplain : c.forest.automaton = none) (herr : (step t.setting c).outcome = .error e) :
    Refuses t c.state c.lookahead ∧ e = .noRuleForToken c.lookahead c.state c.location ∨
      ∃ q, Entry.Offers (t.entry? c.state c.lookahead) (.shift q) ∧
        readToken t c.source = .error e := by
  by_cases hrefuses : Refuses t c.state c.lookahead
  · have hstep : (step t.setting c).outcome = _ := step_of_refuses hrefuses
    exact .inl ⟨hrefuses, Except.error.inj (herr.symm.trans hstep)⟩
  right
  have haccept : t.entry? c.state c.lookahead ≠ some .accept := by
    intro he
    obtain ⟨tree, hfin⟩ := h.exists_finishes hbuild hg hplain he
    have hstep : (step t.setting c).outcome = .ok (.finished tree) := hfin.step_eq
    cases herr.symm.trans hstep
  obtain ⟨cell, he⟩ : ∃ cell, t.entry? c.state c.lookahead = some (.act cell) := by
    by_contra hnone
    exact hrefuses ⟨haccept, fun cell he => hnone ⟨cell, he⟩⟩
  have stuck : ∀ c', ¬ Step t c c' := by
    intro c' hstep
    have hgoing : (step t.setting c).outcome = .ok (.going c') := Sole.step_eq ht hstep
    cases herr.symm.trans hgoing
  obtain ⟨pl, hpl⟩ := (Table.permitted_of_build hbuild he).offers
  cases pl with
  | shift q =>
    obtain ⟨forest, id, hforest, -, -⟩ :=
      exists_merge (r := ⟨c.lookahead, []⟩) hplain (List.append_nil _).symm rfl
    refine ⟨q, he ▸ hpl, ?_⟩
    cases hread : readToken t c.source with
    | ok next => exact absurd (.shift (he ▸ hpl) hforest hread) (stuck _)
    | error e' =>
      have hstep : (step t.setting c).outcome = .error e' :=
        Sole.step_of_shift_error ht (he ▸ hpl) hforest hread
      rw [Except.error.inj (herr.symm.trans hstep)]
  | reduce n =>
    obtain ⟨r, popped, rest, q, hr, hframes, hpop, hrest, hgoto, hle⟩ :=
      h.exists_reduction hbuild hg (he ▸ hpl)
    exact absurd (.reduce (he ▸ hpl) hr hframes hpop (fun _ => hrest) hgoto
      ((Forest.merge_plain_iff hplain).2 ⟨hle, rfl⟩)) (stuck _)
  | accept => cases hpl
  | goto q => cases hpl
  | deadEnd => cases hpl

theorem Reached.exists_runs (h : Reached s source c) :
    ∃ c₀ acts, Parser.begin s.table source = .ok c₀ ∧ Runs s.table c₀ acts c := by
  induction h with
  | begin h => exact ⟨_, [], h, .nil _⟩
  | step _ hstep ih =>
    obtain ⟨c₀, acts, hbegin, hruns⟩ := ih
    obtain ⟨a, ha⟩ := exists_performs hstep
    exact ⟨c₀, acts ++ [a], hbegin, hruns.trans (.single ha.takes)⟩

theorem exists_mem_of_readToken (h : readToken t source = .error e)
    (hw : TokenSource.Supplies source w) : ∃ x ∈ w, ∃ l, e = .symbolNotInGrammar x l := by
  have hnext : (TokenSource.next source).1 ≠ .blank ∧
      ∃ l, e = .symbolNotInGrammar (TokenSource.next source).1 l := by
    unfold readToken at h
    dsimp only at h
    split at h
    · cases h
    · rename_i hterm
      rw [Bool.or_eq_true, Symbol.isBlank_iff, not_or] at hterm
      cases h
      exact ⟨hterm.1, _, rfl⟩
  cases w with
  | nil => exact absurd hw hnext.1
  | cons x w => exact ⟨x, List.mem_cons_self, hw.1 ▸ hnext.2⟩

/-- The errors about a token: it is no terminal, or nothing can be done with it. -/
inductive Concerns (x : Symbol) : ParseError → Prop
  | foreign (l : Location) : Concerns x (.symbolNotInGrammar x l)
  | unexpected (q : Nat) (l : Location) : Concerns x (.noRuleForToken x q l)

/-- What a parse without conflicts complains about is a token of the input, or its end. -/
theorem exists_mem_of_error (hg : g.WellFormed) (hbuild : (Table.build g {}).outcome = .ok t)
    (hw : TokenSource.Supplies source w)
    (hparse : (parse t.setting steps source).value = some (.error e)) :
    ∃ x ∈ .blank :: w, Concerns x e := by
  have refused : ∀ {source' : σ} {w'}, readToken t source' = .error e →
      TokenSource.Supplies source' w' → (∀ x ∈ w', x ∈ w) → ∃ x ∈ .blank :: w, Concerns x e := by
    intro source' w' hread hw' hsub
    obtain ⟨x, hx, l, rfl⟩ := exists_mem_of_readToken hread hw'
    exact ⟨x, List.mem_cons_of_mem _ (hsub x hx), .foreign l⟩
  obtain hbegin | ⟨c, hreached, herr⟩ := error_of_parse hparse
  · cases hread : readToken t source with
    | error e' =>
      have hbegin' : begin t source = .error e' := by
        unfold begin
        rw [hread]
        rfl
      cases hbegin'.symm.trans hbegin
      exact refused hread hw fun x hx => hx
    | ok next => cases (begin_eq_ok_iff.2 ⟨next.1, next.2, hread, rfl⟩).symm.trans hbegin
  · have plain : ∀ A, (Means.automaton {}) = some A → A.Built := fun A hA => by cases hA
    obtain ⟨-, hautomaton⟩ := hreached.sound hg plain hbuild
    obtain ⟨c₀, acts, hbegin, hruns⟩ := hreached.exists_runs
    obtain ⟨token, source', hread, rfl⟩ := begin_eq_ok_iff.1 hbegin
    obtain ⟨u, v, rfl, -, hv⟩ := hruns.exists_ahead hbuild hg ((ahead_iff_of_readToken hread).2 hw)
    obtain ⟨-, rfl⟩ | ⟨q, hoffer, hread'⟩ :=
      (hreached.consistent hg plain hbuild).error_cases (sole_of_build hbuild) hbuild hg
        (hautomaton.trans (Table.automaton_eq_none_of_build hbuild rfl)) herr
    · refine ⟨c.lookahead, ?_, .unexpected c.state c.location⟩
      rw [hv.lookahead_eq]
      cases v with
      | nil => exact List.mem_cons_self
      | cons x v => exact List.mem_cons_of_mem _ (List.mem_append_right u List.mem_cons_self)
    · obtain ⟨-, hterm⟩ := moves_of_shift hbuild hg hoffer
      obtain ⟨v, rfl⟩ := hv.eq_cons fun e => hg.named.1 (e ▸ hterm)
      exact refused hread' hv.2.2 fun x hx =>
        List.mem_append_right u (List.mem_cons_of_mem _ hx)

/-! ### What the forest depends on -/

/-- Two runs with the same actions that shift the same tokens build the same forest, whatever comes
behind these tokens. -/
theorem Runs.forest_eq (h : Runs t c acts c') (h' : Runs t d acts d')
    (hforest : d.forest = c.forest) (hc : Ahead c.lookahead c.source (u ++ v))
    (hd : Ahead d.lookahead d.source (u ++ z)) (hu : u.length = acts.count .shift) :
    d'.forest = c'.forest := by
  induction h generalizing d u with
  | nil c =>
    cases h' with
    | nil => exact hforest
  | cons hstep _ ih =>
    cases h' with
    | cons hstep' h' =>
      cases hstep with
      | shift _ hmerge hread =>
        cases hstep' with
        | shift _ hmerge' hread' =>
          cases u with
          | nil => simp at hu
          | cons x u =>
            rw [hforest, hd.1, ← hc.1, hmerge, Except.ok.injEq] at hmerge'
            exact ih h' hmerge'.symm ((ahead_iff_of_readToken hread).2 hc.2.2)
              ((ahead_iff_of_readToken hread').2 hd.2.2) (by simpa using hu)
      | reduce _ hr _ _ _ _ hmerge =>
        cases hstep' with
        | reduce _ hr' _ _ _ _ hmerge' =>
          cases hr.symm.trans hr'
          rw [hforest, hmerge, Except.ok.injEq] at hmerge'
          exact ih h' hmerge'.symm hc hd (by simpa using hu)

/-! ### Idle automata -/

/-- The table `tA` is the table `t`, built without a level automaton and without conflicts, under an
automaton that accepts the levels of all derivations. -/
structure Idle (g : Grammar) (t tA : Table) (D : Automaton) : Prop where
  wellFormed : g.WellFormed
  productive : g.Productive
  build : (Table.build g {}).outcome = .ok t
  same : SameRows t tA
  automaton : tA.automaton = some D
  prepared : D.Prepared
  accepts : ∀ u, g.Derives u → g.start = some u.symbol →
    ∀ level ∈ u.levels, D.accepts level = .ok true

theorem Idle.plain (h : Idle g t tA D) : t.automaton = none :=
  Table.automaton_eq_none_of_build h.build rfl

theorem Idle.sole (h : Idle g t tA D) : Sole t := sole_of_build h.build

/-- Nothing that a parse without the automaton builds is refused by it. -/
theorem Idle.readable (h : Idle g t tA D) (hbegin : begin t source = .ok c₀)
    (hruns : Runs t c₀ acts c) (hw : TokenSource.Supplies source w) :
    Forest.Readable D (c.forest.stack.map Subtree.tree) := by
  obtain ⟨u, v, x, rfl, -, tree, rest, z, hscript, hstart, hyield, -, hlen⟩ :=
    hruns.begins hbegin h.build h.wellFormed h.productive hw
  have hsupply : TokenSource.Supplies (ListedTokens.mk (g.yield tree) 0) (g.yield tree) :=
    supplies_listed 0 fun y hy e =>
      h.wellFormed.named.1 (e ▸ Grammar.mem_terminals_of_mem_yield hy)
  -- The actions are the first on the way to a derivation of some sentence.
  obtain ⟨token, source', d', tree', hread, hruns', -, -, htrees, hshape⟩ :=
    exists_runs h.build h.wellFormed hscript hstart hsupply
  obtain ⟨d, hacts, hrest⟩ := hruns'.of_append
  obtain ⟨token₀, source₀, hread₀, rfl⟩ := begin_eq_ok_iff.1 hbegin
  have hforest : d.forest = c.forest := by
    refine hruns.forest_eq (z := z) hacts (by rw [h.plain])
      ((ahead_iff_of_readToken hread₀).2 hw) ?_ hlen
    rw [← hyield]
    exact (ahead_iff_of_readToken hread).2 hsupply
  have hread' : Forest.Readable D (d'.forest.stack.map Subtree.tree) := by
    rw [Forest.finish_eq_ok_iff.1 (Forest.finish_iff_trees.2 htrees)]
    refine Forest.readable_of_accepted h.prepared ?_
    rw [← Tree.levels_shape, hshape, Tree.levels_shape]
    exact h.accepts tree (Script.derives h.wellFormed tree hscript) hstart
  rw [← hforest]
  exact (Lockstep.of_runs_plain h.prepared h.same hrest hread').1

/-- A lookahead that is shifted is not refused either, whatever comes next. -/
theorem Idle.readable_shift (h : Idle g t tA D) (hbegin : begin t source = .ok c₀)
    (hruns : Runs t c₀ acts c) (hw : TokenSource.Supplies source w)
    (hoffer : Entry.Offers (t.entry? c.state c.lookahead) (.shift q))
    (hmerge : (c.forest.merge ⟨c.lookahead, []⟩ none).outcome = .ok forest) :
    Forest.Readable D (forest.stack.map Subtree.tree) := by
  obtain ⟨-, hlook⟩ := moves_of_shift h.build h.wellFormed hoffer
  obtain ⟨top, start, hG⟩ := Table.augments_of_build h.build
  obtain ⟨u₀, v₀, x, hsplit, -, tree, rest, z, -, -, hyield, -, hlen₀⟩ :=
    hruns.begins hbegin h.build h.wellFormed h.productive hw
  obtain ⟨token₀, source₀, hread₀, rfl⟩ := begin_eq_ok_iff.1 hbegin
  have hahead := (ahead_iff_of_readToken hread₀).2 hw
  obtain ⟨u, v, rfl, hlen, hv⟩ := hruns.exists_ahead h.build h.wellFormed hahead
  obtain ⟨rfl, rfl⟩ := List.append_inj hsplit (hlen.trans hlen₀.symm)
  obtain ⟨v', rfl⟩ := hv.eq_cons fun e => h.wellFormed.named.1 (e ▸ hlook)
  -- The input ends behind the lookahead.
  have hterm : ∀ y ∈ u ++ [c.lookahead], y ∈ t.grammar.terminals := by
    rw [hG.terminals_eq]
    intro y hy
    rcases List.mem_append.1 hy with hy | hy
    · exact Grammar.mem_terminals_of_mem_yield (hyield ▸ List.mem_append_left z hy)
    · rwa [List.mem_singleton.1 hy]
  have hsupply : TokenSource.Supplies (ListedTokens.mk (u ++ [c.lookahead]) 0)
      (u ++ [c.lookahead]) :=
    supplies_listed 0 fun y hy e =>
      h.wellFormed.named.1 (e ▸ hG.terminals_eq ▸ hterm y hy)
  obtain ⟨token₁, source₁, hbegin₁, hahead₁⟩ := exists_begin_ahead hsupply hterm
  have hhead : [c.lookahead].headD .blank = (c.lookahead :: v').headD .blank := rfl
  have htoken : token₁ = token₀ :=
    hahead₁.lookahead_eq.trans ((headD_append_congr u hhead).trans hahead.lookahead_eq.symm)
  obtain ⟨d, hruns₁, hd⟩ := hruns.exists_mirror (d := ⟨_, _, source₁, token₁⟩)
    ⟨rfl, rfl, htoken⟩ hahead hahead₁ hlen hhead hterm
  obtain ⟨u₁, v₁, hsplit₁, hlen₁, hv₁⟩ := hruns₁.exists_ahead h.build h.wellFormed hahead₁
  obtain ⟨rfl, rfl⟩ := List.append_inj hsplit₁ (hlen.trans hlen₁.symm)
  obtain ⟨token', source', hread'⟩ := exists_readToken (t := t) hv₁.2.2 (by simp)
  have hstep : Takes t d .shift ⟨⟨d.lookahead, q⟩ :: d.frames, forest, source', token'⟩ := by
    refine .shift ?_ ?_ hread'
    · rw [hd.state_eq, hd.lookahead]
      exact hoffer
    · rw [hd.forest, hd.lookahead]
      exact hmerge
  exact h.readable hbegin₁ (hruns₁.trans (.single hstep)) hsupply

/-! ### Lockstep to the end -/

section

variable {d d' : Config σ}

theorem Idle.step_going (h : Idle g t tA D) (hbegin : begin t source = .ok c₀)
    (hruns : Runs t c₀ acts c) (hw : TokenSource.Supplies source w) (hd : Lockstep D c d)
    (hstep : (step t.setting c).outcome = .ok (.going c')) :
    ∃ a d', Takes t c a c' ∧ Lockstep D c' d' ∧ (step tA.setting d).outcome = .ok (.going d') := by
  obtain ⟨a, ha⟩ := exists_performs hstep
  have htakes : Takes t c a c' := ha.takes
  obtain ⟨d', hd', hlock⟩ := hd.of_takes_plain h.prepared h.same htakes
    (h.readable hbegin (hruns.trans (.single htakes)) hw)
  have hsole : Sole tA.setting.table := h.same.sole h.sole
  exact ⟨a, d', htakes, hlock, hsole.step_eq (step_iff_exists_takes.2 ⟨a, hd'⟩)⟩

theorem Idle.sound (h : Idle g t tA D) (hbegin : begin t source = .ok c₀)
    (hruns : Runs t c₀ acts c) : Sound g t source c := by
  refine (sound_begin hbegin).steps h.build h.wellFormed (fun D' hD' => ?_)
    (steps_iff_exists_runs.2 ⟨acts, hruns⟩)
  rw [h.plain] at hD'
  cases hD'

theorem Idle.step_finished (h : Idle g t tA D) (hbegin : begin t source = .ok c₀)
    (hruns : Runs t c₀ acts c) (hd : Lockstep D c d)
    (hstep : (step t.setting c).outcome = .ok (.finished tree)) :
    (step tA.setting d).outcome = .ok (.finished tree) := by
  obtain ⟨tree', e, hfin⟩ | ⟨_, e, -⟩ := step_cases hstep
  · cases e
    have hsound := h.sound hbegin hruns
    obtain ⟨hstart, -⟩ := hsound.eq_start h.build hfin
    have hstack := Forest.finish_eq_ok_iff.1 hfin.2.2
    have hderived : g.Derives tree :=
      hsound.derived tree (Forest.finish_iff_trees.1 hfin.2.2 ▸ List.mem_singleton_self tree)
    have hcheck := (hd.forest.finalCheck_iff h.prepared hstack).2 (h.accepts tree hderived hstart)
    refine Config.Finishes.step_eq (s := tA.setting) ⟨?_, hcheck, ?_⟩
    · show tA.entry? d.state d.lookahead = some .accept
      rw [h.same.entry?_eq, hd.state_eq, hd.lookahead]
      exact hfin.1
    · rw [Forest.finish_eq_ok_iff, ← hd.forest.trees, hstack]
  · cases e

theorem Idle.step_error (h : Idle g t tA D) (hbegin : begin t source = .ok c₀)
    (hruns : Runs t c₀ acts c) (hw : TokenSource.Supplies source w) (hd : Lockstep D c d)
    (hcons : Consistent t c) (hstep : (step t.setting c).outcome = .error e) :
    (step tA.setting d).outcome = .error e := by
  have hplain : c.forest.automaton = none := hd.forest.plain
  have hsole : Sole tA.setting.table := h.same.sole h.sole
  obtain ⟨hrefuses, rfl⟩ | ⟨q, hoffer, hread⟩ :=
    hcons.error_cases h.sole h.build h.wellFormed hplain hstep
  · have hrefuses' : Refuses tA.setting.table d.state d.lookahead := by
      unfold Refuses
      rw [show tA.setting.table.entry? = t.entry? from h.same.entry?_eq, hd.state_eq, hd.lookahead]
      exact hrefuses
    rw [step_of_refuses hrefuses', hd.state_eq, hd.lookahead, Config.location, hd.source]
    rfl
  · obtain ⟨forest, id, hforest, -, -⟩ :=
      exists_merge (r := ⟨c.lookahead, []⟩) hplain (List.append_nil _).symm rfl
    obtain ⟨forest', hforest', -⟩ := hd.forest.of_merge_plain h.prepared hforest
      (h.readable_shift hbegin hruns hw hoffer hforest)
    refine hsole.step_of_shift_error (q := q) ?_ (hd.lookahead ▸ hforest') ?_
    · rw [show tA.setting.table.entry? = t.entry? from h.same.entry?_eq, hd.state_eq, hd.lookahead]
      exact hoffer
    · rw [show readToken tA.setting.table d.source = _ from h.same.readToken_eq _, hd.source]
      exact hread

theorem Idle.run_eq (h : Idle g t tA D) (hbegin : begin t source = .ok c₀)
    (hruns : Runs t c₀ acts c) (hreached : Reached t.setting source c)
    (hw : TokenSource.Supplies source w) (hd : Lockstep D c d) :
    (run tA.setting steps d).value = (run t.setting steps c).value := by
  induction steps generalizing acts c d with
  | zero => rfl
  | succ steps ih =>
    rw [run, run, Traced.value_bind, Traced.value_bind]
    cases hstep : (step t.setting c).run.value with
    | error e =>
      have hcons : Consistent t c := hreached.consistent h.wellFormed (fun A hA => by cases hA)
        h.build
      have hstep' : (step tA.setting d).run.value = .error e :=
        h.step_error hbegin hruns hw hd hcons hstep
      rw [hstep']
    | ok progress =>
      cases progress with
      | finished tree =>
        have hstep' : (step tA.setting d).run.value = .ok (.finished tree) :=
          h.step_finished hbegin hruns hd hstep
        rw [hstep']
      | going c' =>
        obtain ⟨a, d', htakes, hlock, hgoing⟩ := h.step_going hbegin hruns hw hd hstep
        have hstep' : (step tA.setting d).run.value = .ok (.going d') := hgoing
        rw [hstep']
        exact ih (hruns.trans (.single htakes)) (.step hreached hstep) hlock

/-- A parse under an idle automaton is a parse without it: after any number of steps both have the same
result, or both have none. -/
theorem Idle.parse_eq (h : Idle g t tA D) (hw : TokenSource.Supplies source w) (steps : Nat) :
    (parse tA.setting steps source).value = (parse t.setting steps source).value := by
  have hread : readToken tA source = readToken t source := h.same.readToken_eq source
  cases hbegin : begin t source with
  | error e =>
    have hbegin' : begin tA source = .error e := by
      unfold begin at hbegin ⊢
      rw [hread]
      cases hr : readToken t source with
      | error e' =>
        rw [hr] at hbegin
        exact hbegin
      | ok next =>
        rw [hr] at hbegin
        cases hbegin
    rw [parse, parse, show begin t.setting.table source = _ from hbegin,
      show begin tA.setting.table source = _ from hbegin']
  | ok c =>
    obtain ⟨d, hd⟩ := exists_begin h.same hbegin
    obtain ⟨c', hc', hlock⟩ := lockstep_begin h.same h.plain h.automaton hd
    cases hbegin.symm.trans hc'
    rw [parse, parse, show begin t.setting.table source = _ from hbegin,
      show begin tA.setting.table source = _ from hd]
    exact h.run_eq hbegin (.nil c) (.begin hbegin) hw hlock

end

end TreeControl.Parser
