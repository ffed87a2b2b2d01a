import TreeControl.Proofs.Parser.Completeness

/-! # A level automaton filters and does nothing else

The table of a grammar without conflicts has the same rows with and without a level automaton.  A
parse under the automaton and one without it then take the same steps (`Lockstep`) as long as the
automaton refuses nothing.  It refuses no step on the way to a tree whose levels are all accepted:
what can be read in the finished tree could be read in every forest before it
(`Lockstep.of_runs_plain`).  So the automaton keeps exactly the trees with accepted levels
(`parse_levels_iff`). -/

namespace TreeControl

theorem Automaton.WellFormed.mem_alphabet {A : Automaton} (hA : A.WellFormed) {w : List Symbol}
    (h : A.Accepts w) : ∀ s ∈ w, s ∈ A.alphabet := by
  obtain ⟨p, -, q, -, hrun⟩ := h
  induction hrun with
  | nil => exact fun s hs => absurd hs List.not_mem_nil
  | silent _ _ ih => exact ih
  | read hs he _ ih =>
    intro x hx
    rcases List.mem_cons.1 hx with rfl | hx
    · exact (hA.label_mem _ he).resolve_left hs
    · exact ih x hx

namespace Parser

variable {σ : Type} [TokenSource σ] {g : Grammar} {t tA : Table} {c c' d d' : Config σ}
  {source : σ} {tree : Tree} {A D : Automaton} {a : Action} {acts : List Action}

/-! ### Tables that act alike -/

/-- The tables have the same rules and the same entries. -/
structure SameRows (t tA : Table) : Prop where
  grammar : tA.grammar = t.grammar
  rows : tA.rows = t.rows

theorem SameRows.entry?_eq (h : SameRows t tA) : tA.entry? = t.entry? := by
  unfold Table.entry?
  rw [h.rows]

theorem SameRows.goto?_eq (h : SameRows t tA) : tA.goto? = t.goto? := by
  unfold Table.goto?
  rw [h.entry?_eq]

theorem SameRows.readToken_eq (h : SameRows t tA) (source : σ) :
    readToken tA source = readToken t source := by
  unfold readToken
  rw [h.grammar]

theorem SameRows.sole (h : SameRows t tA) (ht : Sole t) : Sole tA := by
  unfold Sole
  rw [h.entry?_eq]
  exact ht

/-! ### Lockstep -/

/-- Two configurations that differ only in what the level automaton `D` keeps with the forest. -/
structure Lockstep (D : Automaton) (c d : Config σ) : Prop where
  frames : d.frames = c.frames
  source : d.source = c.source
  lookahead : d.lookahead = c.lookahead
  forest : Forest.Shadows D c.forest d.forest

omit [TokenSource σ] in
theorem Lockstep.state_eq (h : Lockstep D c d) : d.state = c.state := by
  unfold Config.state
  rw [h.frames]

theorem exists_merge_of_takes (h : Takes t c a c') :
    ∃ r, (c.forest.merge r none).outcome = .ok c'.forest := by
  cases h with
  | shift _ hforest _ => exact ⟨_, hforest⟩
  | reduce _ _ _ _ _ _ hforest => exact ⟨_, hforest⟩

theorem Lockstep.of_step_checked (hD : D.Prepared) (same : SameRows t tA) (h : Lockstep D c d)
    (hstep : Step tA d d') : ∃ c', Step t c c' ∧ Lockstep D c' d' := by
  cases hstep with
  | shift hoffer hforest hread =>
    rw [same.entry?_eq, h.state_eq, h.lookahead] at hoffer
    rw [h.lookahead] at hforest
    rw [same.readToken_eq, h.source] at hread
    obtain ⟨f, hf, hshadow⟩ := h.forest.of_merge_checked hD hforest
    refine ⟨_, .shift hoffer hf hread, ?_, rfl, rfl, hshadow⟩
    rw [h.frames, h.lookahead]
  | reduce hoffer hr hframes hpop hrest hgoto hforest =>
    rw [same.entry?_eq, h.state_eq, h.lookahead] at hoffer
    rw [same.grammar] at hr
    rw [h.frames] at hframes
    rw [same.goto?_eq] at hgoto
    obtain ⟨f, hf, hshadow⟩ := h.forest.of_merge_checked hD hforest
    exact ⟨_, .reduce hoffer hr hframes hpop hrest hgoto hf, rfl, h.source, h.lookahead, hshadow⟩

/-- A step to a forest whose levels can be read is allowed by the level automaton. -/
theorem Lockstep.of_takes_plain (hD : D.Prepared) (same : SameRows t tA) (h : Lockstep D c d)
    (hstep : Takes t c a c') (hread' : Forest.Readable D (c'.forest.stack.map Subtree.tree)) :
    ∃ d', Takes tA d a d' ∧ Lockstep D c' d' := by
  cases hstep with
  | shift hoffer hforest hread =>
    obtain ⟨f, hf, hshadow⟩ := h.forest.of_merge_plain hD hforest hread'
    rw [← same.entry?_eq, ← h.state_eq, ← h.lookahead] at hoffer
    rw [← h.lookahead] at hf
    rw [← same.readToken_eq, ← h.source] at hread
    refine ⟨_, .shift hoffer hf hread, ?_, rfl, rfl, hshadow⟩
    rw [h.frames, h.lookahead]
  | reduce hoffer hr hframes hpop hrest hgoto hforest =>
    obtain ⟨f, hf, hshadow⟩ := h.forest.of_merge_plain hD hforest hread'
    rw [← same.entry?_eq, ← h.state_eq, ← h.lookahead] at hoffer
    rw [← same.grammar] at hr
    rw [← h.frames] at hframes
    rw [← same.goto?_eq] at hgoto
    exact ⟨_, .reduce hoffer hr hframes hpop hrest hgoto hf, rfl, h.source, h.lookahead, hshadow⟩

theorem Lockstep.of_steps_checked (hD : D.Prepared) (same : SameRows t tA) (h : Lockstep D c d)
    (hsteps : Relation.ReflTransGen (Step tA) d d') :
    ∃ c', Relation.ReflTransGen (Step t) c c' ∧ Lockstep D c' d' := by
  induction hsteps with
  | refl => exact ⟨c, .refl, h⟩
  | tail _ hstep ih =>
    obtain ⟨c₁, hc₁, h₁⟩ := ih
    obtain ⟨c₂, hc₂, h₂⟩ := h₁.of_step_checked hD same hstep
    exact ⟨c₂, hc₁.tail hc₂, h₂⟩

/-- Steps to a forest whose levels can be read are all allowed by the level automaton. -/
theorem Lockstep.of_runs_plain (hD : D.Prepared) (same : SameRows t tA) (hruns : Runs t c acts c')
    (hread : Forest.Readable D (c'.forest.stack.map Subtree.tree)) :
    Forest.Readable D (c.forest.stack.map Subtree.tree) ∧
      ∀ d, Lockstep D c d → ∃ d', Runs tA d acts d' ∧ Lockstep D c' d' := by
  -- From the end backwards: readable levels are passed down from every forest to the one before.
  induction hruns with
  | nil c => exact ⟨hread, fun d h => ⟨d, .nil d, h⟩⟩
  | cons hstep _ ih =>
    obtain ⟨hread₁, hrest⟩ := ih hread
    obtain ⟨r, hmerge⟩ := exists_merge_of_takes hstep
    refine ⟨Forest.readable_of_merge hD hmerge hread₁, fun d h => ?_⟩
    obtain ⟨d₁, hd₁, h₁⟩ := h.of_takes_plain hD same hstep hread₁
    obtain ⟨d', hd', h'⟩ := hrest d₁ h₁
    exact ⟨d', .cons hd₁ hd', h'⟩

/-! ### Finished parses -/

theorem lockstep_begin (same : SameRows t tA) (ht : t.automaton = none)
    (htA : tA.automaton = some D) (hd : begin tA source = .ok d) :
    ∃ c, begin t source = .ok c ∧ Lockstep D c d := by
  obtain ⟨token, source', hread, rfl⟩ := begin_eq_ok_iff.1 hd
  rw [same.readToken_eq] at hread
  refine ⟨_, begin_eq_ok_iff.2 ⟨token, source', hread, rfl⟩, rfl, rfl, rfl, ?_⟩
  dsimp only
  rw [ht, htA]
  exact Forest.shadows_empty D

theorem exists_begin (same : SameRows t tA) (hc : begin t source = .ok c) :
    ∃ d, begin tA source = .ok d := by
  obtain ⟨token, source', hread, rfl⟩ := begin_eq_ok_iff.1 hc
  rw [← same.readToken_eq] at hread
  exact ⟨_, begin_eq_ok_iff.2 ⟨token, source', hread, rfl⟩⟩

/-- The trees under a level automaton are those without it whose levels are all accepted. -/
theorem yields_checked_iff (hD : D.Prepared) (same : SameRows t tA) (ht : t.automaton = none)
    (htA : tA.automaton = some D) :
    Yields tA source tree ↔
      Yields t source tree ∧ ∀ level ∈ tree.levels, D.accepts level = .ok true := by
  constructor
  · intro hyields
    obtain ⟨d, d', hd, hsteps, haccept, hcheck, hfinish⟩ := hyields
    obtain ⟨c, hc, h⟩ := lockstep_begin same ht htA hd
    obtain ⟨c', hsteps', h'⟩ := h.of_steps_checked hD same hsteps
    have htree : c'.forest.stack.map Subtree.tree = [tree] := by
      rw [h'.forest.trees]
      exact Forest.finish_eq_ok_iff.1 hfinish
    rw [same.entry?_eq, h'.state_eq, h'.lookahead] at haccept
    have hplain : c'.forest.finalCheck = .ok () := by
      unfold Forest.finalCheck
      rw [h'.forest.plain]
    refine ⟨⟨c, c', hc, hsteps', haccept, hplain, Forest.finish_eq_ok_iff.2 htree⟩, ?_⟩
    exact (h'.forest.finalCheck_iff hD htree).1 hcheck
  · intro hyields
    obtain ⟨⟨c, c', hc, hsteps, haccept, -, hfinish⟩, hlevels⟩ := hyields
    have htree := Forest.finish_eq_ok_iff.1 hfinish
    have hread : Forest.Readable D (c'.forest.stack.map Subtree.tree) := by
      rw [htree]
      exact Forest.readable_of_accepted hD hlevels
    obtain ⟨d, hd⟩ := exists_begin same hc
    obtain ⟨c₀, hc₀, h⟩ := lockstep_begin same ht htA hd
    cases hc.symm.trans hc₀
    obtain ⟨acts, hruns⟩ := steps_iff_exists_runs.1 hsteps
    obtain ⟨d', hruns', h'⟩ := (Lockstep.of_runs_plain hD same hruns hread).2 d h
    rw [← same.entry?_eq, ← h'.state_eq, ← h'.lookahead] at haccept
    refine ⟨d, d', hd, steps_iff_exists_runs.2 ⟨acts, hruns'⟩, haccept,
      (h'.forest.finalCheck_iff hD htree).2 hlevels, ?_⟩
    rw [Forest.finish_eq_ok_iff, ← h'.forest.trees]
    exact htree

/-- For a grammar without conflicts and an automaton with a start state, the table under the
automaton can be built, and its parses return exactly the trees that the parses without it return
and whose levels are all words of the automaton as it was given.  Words are made of the alphabet. -/
theorem parse_levels_iff (hA : A.Built) {start : Nat} (hstart : A.start = some start)
    (hbuild : (Table.build g {}).outcome = .ok t) :
    ∃ tA, (Table.build g { automaton := some A }).outcome = .ok tA ∧
      (∀ {σ : Type} [TokenSource σ] (source : σ) (tree : Tree),
        (∃ steps, (parse tA.setting steps source).value = some (.ok tree)) ↔
          (∃ steps, (parse t.setting steps source).value = some (.ok tree)) ∧
            ∀ level ∈ tree.levels, A.Accepts level) ∧
      ∀ level, A.Accepts level → ∀ s ∈ level, s ∈ A.alphabet := by
  obtain ⟨D, hAD⟩ : ∃ D, A.prepare.outcome = .ok D :=
    ⟨_, Automaton.prepare_outcome_iff.2 ⟨start, hstart, rfl⟩⟩
  obtain ⟨hD, hlang⟩ := Automaton.prepare_spec hA.wellFormed hAD
  have hlevels : (Table.prepareLevels { automaton := some A }).outcome = .ok (some D) :=
    (Table.prepareLevels_outcome_iff rfl).2 ⟨D, hAD, rfl⟩
  obtain ⟨tA, hbuildA, same, htA⟩ : ∃ tA, (Table.build g { automaton := some A }).outcome = .ok tA ∧
      SameRows t tA ∧ tA.automaton = some D :=
    ⟨_, Table.build_of_strict hbuild rfl rfl hlevels, ⟨rfl, rfl⟩, rfl⟩
  have ht : t.automaton = none := Table.automaton_eq_none_of_build hbuild rfl
  have sole : Sole t.setting.table := sole_of_build hbuild
  have soleA : Sole tA.setting.table := same.sole sole
  refine ⟨tA, hbuildA, fun {σ} _ source tree => ?_, fun level => hA.wellFormed.mem_alphabet⟩
  rw [soleA.parse_iff, sole.parse_iff]
  show Yields tA source tree ↔ Yields t source tree ∧ _
  rw [yields_checked_iff hD same ht htA]
  refine and_congr_right fun _ => forall₂_congr fun level _ => ?_
  rw [hD.accepts_iff, hlang]

theorem parse_levels_iff_demo :
    ∃ g A t, Demo.grammar = .ok g ∧ Demo.levels = .ok A ∧ A.start = some 0 ∧
      (Table.build g {}).outcome = .ok t ∧
      ∃ tA, (Table.build g { automaton := some A }).outcome = .ok tA ∧
        (∀ {σ : Type} [TokenSource σ] (source : σ) (tree : Tree),
          (∃ steps, (parse tA.setting steps source).value = some (.ok tree)) ↔
            (∃ steps, (parse t.setting steps source).value = some (.ok tree)) ∧
              ∀ level ∈ tree.levels, A.Accepts level) ∧
        ∀ level, A.Accepts level → ∀ s ∈ level, s ∈ A.alphabet := by
  have hA := Demo.levels_eq
  have hstart : (Demo.levels.toOption.getD {}).start = some 0 := by decide +kernel
  obtain ⟨t, ht⟩ := Demo.exists_table
  refine ⟨_, _, t, Demo.grammar_eq, hA, hstart, ht, ?_⟩
  exact parse_levels_iff (Demo.built_levels hA) hstart ht

end Parser

end TreeControl
