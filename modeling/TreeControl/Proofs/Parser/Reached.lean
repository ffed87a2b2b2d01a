import TreeControl.Proofs.Parser.Soundness
import TreeControl.Proofs.Table.Conflicts

/-! # What a parse can reach

In every configuration that a parse reaches, the stack is a path through the groups of the grammar
and its symbols are the roots of the forest.  An item with its marker behind `k` symbols stands on
top of such a path only if these are the last `k` symbols on the stack, and below them the rule is at
its beginning (`Path.pop`).  So a reduction that an entry offers finds its right side on the stack, a
goto below it and enough subtrees; and where the parser accepts, there is one tree.

An error that would contradict this is internal (`ParseError.Internal`).  No resolver gives one, and
no step from a reached configuration does, so no parse ends with one (`parse_not_internal`). -/

namespace TreeControl

/-! ### Internal errors -/

/-- A tree is refused for a reason other than its levels. -/
def TreeError.Internal : TreeError → Prop
  | .noAutomaton => True
  | .stackUnderflow _ _ => True
  | .notSingleRoot _ => True
  | .rejected _ _ .notPrepared => True
  | .rejected _ _ .missingStart => True
  | _ => False

/-- The table, the stack, the precedence table or the forest is not as it should be. -/
def ParseError.Internal : ParseError → Prop
  | .stackMismatch _ _ _ => True
  | .missingGoto _ _ => True
  | .precedence (.missing _ _) _ => True
  | .tree e _ => e.Internal
  | _ => False

/-! ### Refused levels -/

namespace Forest

variable {D : Automaton} {P : Position} {depth : Nat} {ps : List Position} {f : Forest} {r : Rule}
  {e : TreeError}

theorem not_internal_of_readSymbol (hD : D.Prepared) {s : Symbol}
    (h : readSymbol D depth P s = .error e) : ¬ e.Internal := by
  obtain ⟨cause, hcause, rfl⟩ := mapError_eq_error_iff.1 h
  rw [hD.step_error hcause, Automaton.rejection]
  split
  · exact id
  · exact id

theorem not_internal_of_readLevels (hD : D.Prepared) {levels : List (List Symbol)}
    (h : readLevels D P depth levels ps = .error e) : ¬ e.Internal := by
  induction levels generalizing depth ps with
  | nil => cases h
  | cons level levels ih =>
    rw [readLevels, bind_eq_error_iff] at h
    rcases h with h | ⟨Q, -, h⟩
    · obtain ⟨_, s, _, Q, -, -, h⟩ := exists_of_foldlM_eq_error h
      exact not_internal_of_readSymbol hD h
    · rcases bind_eq_error_iff.1 h with h | ⟨_, -, h⟩
      · exact ih h
      · cases h

theorem not_internal_of_readSiblings (hD : D.Prepared) {ts : List Subtree}
    (h : readSiblings D P ts = .error e) : ¬ e.Internal := by
  cases ts with
  | nil => cases h
  | cons t ts =>
    obtain ⟨_, u, _, qs, -, -, h⟩ := exists_of_foldlM_eq_error h
    exact not_internal_of_readLevels hD h

/-- With enough subtrees under a prepared automaton, only the levels refuse a reduction. -/
theorem not_internal_of_preview (hD : D.Prepared) (hf : f.automaton = some D)
    (hle : r.rhs.length ≤ f.stack.length) (h : f.preview r = .error e) : ¬ e.Internal := by
  unfold preview at h
  simp only [hf, split, if_pos hle, seed_eq hD, bind_eq_error_iff, Except.ok.injEq,
    exists_eq_left', reduceCtorEq, false_or] at h
  rcases h with h | ⟨_, -, h⟩
  · exact not_internal_of_readSiblings hD h
  · rcases h with h | ⟨_, -, h⟩
    · exact not_internal_of_readSymbol hD h
    · cases h

theorem not_internal_of_merge (hD : ∀ D, f.automaton = some D → D.Prepared)
    (hle : r.rhs.length ≤ f.stack.length) {known : Option (List Position)}
    (h : (f.merge r known).outcome = .error e) : ¬ e.Internal := by
  simp only [merge, Attempt.outcome_bind, Attempt.outcome_ofExcept, Attempt.outcome_emit,
    Attempt.outcome_pure, bind_eq_error_iff, split, if_pos hle, reduceCtorEq, and_false,
    exists_false, or_false] at h
  cases known with
  | some ps => cases h
  | none =>
    rw [positionsFor] at h
    cases hf : f.automaton with
    | none => simp [hf] at h
    | some D =>
      simp only [hf, Option.isSome_some, if_true] at h
      exact not_internal_of_preview (hD D hf) hf hle h

theorem not_internal_of_finalCheck (h : f.finalCheck = .error e) : ¬ e.Internal := by
  unfold finalCheck at h
  split at h
  · split at h
    · rename_i D t _ _ e' he
      cases h
      obtain ⟨p, -, rfl⟩ := Option.map_eq_some_iff.1 he
      exact id
    · cases h
  · cases h

theorem automaton_of_merge {f' : Forest} {known : Option (List Position)}
    (h : (f.merge r known).outcome = .ok f') : f'.automaton = f.automaton := by
  obtain ⟨ps, -, -, rfl⟩ := merge_outcome_iff.1 h
  rfl

end Forest

/-! ### Resolvers -/

theorem Precedence.verdict_error {p : Precedence} {x y : Symbol} {e : Precedence.Error}
    (hx : p.binds x = true) (hy : p.binds y = true) (h : p.verdict x y = .error e) :
    e = .nonassociative x := by
  obtain ⟨b, hx⟩ := Option.isSome_iff_exists.1 hx
  obtain ⟨b', hy⟩ := Option.isSome_iff_exists.1 hy
  simp only [verdict, hx, hy] at h
  split at h
  · split at h
    · cases h
    · cases h
    · cases h
      rfl
  · split at h <;> cases h

namespace DecisionPoint

variable {x : DecisionPoint} {shift shift' : Option Nat} {reduces reduces' : List Nat}
  {due due' : Option ParseError} {e : ParseError} {c : Cell} {order : ResolutionOrder}

theorem not_internal_of_precedenceVerdict (h : x.precedenceVerdict.outcome = .error e) :
    ¬ e.Internal := by
  unfold precedenceVerdict at h
  split at h
  · cases h
  · rename_i p _
    split at h
    · rename_i hlook
      split at h
      · cases h
      · rename_i s hs
        simp only [Attempt.outcome_bind, Attempt.outcome_ofExcept, Attempt.outcome_emit,
          Attempt.outcome_pure, bind_eq_error_iff, mapError_eq_error_iff, reduceCtorEq, and_false,
          exists_false, or_false] at h
        obtain ⟨cause, hcause, rfl⟩ := h
        have hbinds : p.binds s = true := List.find?_some hs
        rw [Precedence.verdict_error hbinds hlook hcause]
        exact id
    · cases h

theorem not_internal_of_askPrecedence (h : (x.askPrecedence shift reduces due).outcome = .error e) :
    ¬ e.Internal := by
  unfold askPrecedence at h
  split at h
  · rw [Attempt.outcome_bind, bind_eq_error_iff] at h
    rcases h with h | ⟨v, -, h⟩
    · exact not_internal_of_precedenceVerdict h
    · split at h
      · cases h
      · cases h
      · split at h <;> cases h
  · cases h

theorem not_internal_of_askLevels (h : (x.askLevels shift reduces due).outcome = .error e) :
    ¬ e.Internal := by
  unfold askLevels at h
  split at h
  · cases h
  · rw [Attempt.outcome_bind, Attempt.outcome_lift, bind_eq_error_iff] at h
    rcases h with h | ⟨valid, -, h⟩
    · cases h
    · split at h
      · cases h
      · cases h
      · cases h
        exact id
      · cases h
      · cases h
        exact id

/-- What is due after a resolver was due before it, or is an ambiguity. -/
theorem due_of_ask {resolver : Resolver}
    (h : (x.ask resolver shift reduces due).outcome = .ok (.undecided shift' reduces' due')) :
    due' = due ∨ ∃ rules, due' = some (x.ambiguous rules) := by
  cases resolver with
  | precedence =>
    have h : (x.askPrecedence shift reduces due).outcome = _ := h
    unfold askPrecedence at h
    split at h
    · rw [Attempt.outcome_bind_eq_ok_iff] at h
      obtain ⟨v, -, h⟩ := h
      split at h
      · cases h
        exact .inl rfl
      · cases h
      · split at h
        · cases h
        · cases h
          exact .inl rfl
    · cases h
      exact .inl rfl
  | levels =>
    have h : (x.askLevels shift reduces due).outcome = _ := h
    unfold askLevels at h
    split at h
    · cases h
      exact .inl rfl
    · rw [Attempt.outcome_bind, Attempt.outcome_lift, bind_eq_ok_iff] at h
      obtain ⟨valid, -, h⟩ := h
      split at h
      · cases h
      · cases h
      · cases h
      · cases h
        exact .inr ⟨_, rfl⟩
      · cases h

theorem not_internal_of_settle {resolvers : List Resolver}
    (hdue : ∀ e, due = some e → ¬ e.Internal)
    (h : (x.settle resolvers shift reduces due).outcome = .error e) : ¬ e.Internal := by
  induction resolvers generalizing shift reduces due with
  | nil =>
    unfold settle at h
    split at h
    · cases h
      exact hdue e rfl
    · cases h
    · cases h
      exact id
  | cons resolver rest ih =>
    rw [settle, Attempt.outcome_bind, bind_eq_error_iff] at h
    rcases h with h | ⟨res, hres, h⟩
    · cases resolver with
      | precedence => exact not_internal_of_askPrecedence h
      | levels => exact not_internal_of_askLevels h
    · cases res with
      | settled d => cases h
      | undecided shift' reduces' due' =>
        refine ih (fun e' he' => ?_) h
        rcases due_of_ask hres with hsame | ⟨rules, hamb⟩
        · exact hdue e' (hsame ▸ he')
        · rw [hamb] at he'
          cases he'
          exact id

theorem not_internal_of_choose (h : (x.choose order c).outcome = .error e) : ¬ e.Internal := by
  unfold choose at h
  split at h
  · exact not_internal_of_settle (fun e he => by cases he) h
  · split at h
    · cases h
    · cases h
    · cases h
      exact id

end DecisionPoint

/-! ### Paths -/

namespace Parser

variable {σ : Type} [TokenSource σ] {g G : Grammar} {t : Table} {m : Means} {c c' : Config σ}
  {s : Setting} {source : σ} {top start : Symbol} {frames : List Frame} {n k : Nat} {r : Rule}
  {e : ParseError} {steps : Nat}

theorem Path.ne_nil (h : Path G frames) : frames ≠ [] := by
  cases h with
  | bottom => exact List.cons_ne_nil _ _
  | push _ _ => exact List.cons_ne_nil _ _

theorem Path.state_lt (hG : G.Augments g top start) (h : Path G frames) :
    ∀ f ∈ frames, f.state < G.groups.length := by
  induction h with
  | bottom =>
    intro f hf
    rw [List.mem_singleton.1 hf]
    obtain ⟨group, hgroup, -⟩ := G.holds_first
    exact (List.getElem?_eq_some_iff.1 hgroup).1
  | @push frames s q _ hmove ih =>
    intro f hf
    rcases List.mem_cons.1 hf with rfl | hf
    · obtain ⟨I, -, hI⟩ := hG.getElem?_of_moves hmove
      have hlt := (List.getElem?_eq_some_iff.1 hI).1
      rwa [Grammar.groups, List.length_map]
    · exact ih f hf

/-- An item on top of a path has the symbols before its marker on top of the stack, and stands at
its beginning below them. -/
theorem Path.pop (hG : G.Augments g top start) (h : Path G frames) (hr : G.rules[n]? = some r)
    (hi : G.Holds (topState frames) ⟨n, k⟩) :
    ∃ popped rest, frames = popped ++ rest ∧ popped.map Frame.symbol = (r.rhs.take k).reverse ∧
      Path G rest ∧ G.Holds (topState rest) ⟨n, 0⟩ := by
  induction k generalizing frames with
  | zero => exact ⟨[], frames, rfl, by simp, h, hi⟩
  | succ k ih =>
    cases h with
    | bottom =>
      -- In front of the input no marker has moved.
      rcases Grammar.holds_zero_cases hi with e | ⟨j, -, hij⟩
      · cases e
      · exact absurd (Grammar.marker_of_mem_predicted hij) (Nat.succ_ne_zero k)
    | @push frames s q hpath hmove =>
      rcases hG.holds_of_moves hmove hi with ⟨⟨n', k'⟩, hj, hexp, e⟩ | ⟨j, -, hij⟩
      · cases e
        obtain ⟨popped, rest, rfl, hpop, hrest, hfirst⟩ := ih hpath hj
        obtain ⟨r', hr', hs⟩ := Grammar.expected?_eq_some_iff.1 hexp
        cases hr.symm.trans hr'
        refine ⟨⟨s, q⟩ :: popped, rest, rfl, ?_, hrest, hfirst⟩
        rw [List.map_cons, hpop, List.take_add_one, hs, List.reverse_append]
        rfl
      · exact absurd (Grammar.marker_of_mem_predicted hij) (Nat.succ_ne_zero k)

theorem Path.length_of_accept (hG : G.Augments g top start) (hg : g.WellFormed)
    (h : Path G frames) (hi : G.Holds (topState frames) ⟨0, 1⟩) : frames.length = 2 := by
  obtain ⟨popped, rest, rfl, hpop, hrest, hfirst⟩ := h.pop hG hG.rule_zero hi
  have hone : popped.length = 1 := by simpa using congrArg List.length hpop
  cases hrest with
  | bottom =>
    rw [List.length_append, hone]
    rfl
  | push _ hmove => exact absurd hfirst (hG.not_holds_first_of_moves hg hmove)

/-! ### Reached configurations -/

/-- The configurations that a parse goes through. -/
inductive Reached (s : Setting) (source : σ) : Config σ → Prop
  | begin {c : Config σ} : begin s.table source = .ok c → Reached s source c
  | step {c c' : Config σ} : Reached s source c → (step s c).outcome = .ok (.going c') →
      Reached s source c'

/-- The stack, the forest and the table fit together. -/
structure Consistent (t : Table) (c : Config σ) : Prop where
  path : Path t.grammar c.frames
  symbols : (c.frames.map Frame.symbol).reverse = .blank :: c.forest.trees.map Tree.symbol
  automaton : c.forest.automaton = t.automaton
  state_lt : ∀ f ∈ c.frames, f.state < t.rows.length
  shift_lt : ∀ q, Entry.Offers (t.entry? c.state c.lookahead) (.shift q) → q < t.rows.length
  reduce_lt : ∀ n, Entry.Offers (t.entry? c.state c.lookahead) (.reduce n) →
    n < t.grammar.rules.length

theorem exists_prepared (hA : ∀ A, m.automaton = some A → A.Built)
    (hbuild : (Table.build g m).outcome = .ok t) {D : Automaton} (hD : t.automaton = some D) :
    ∃ A, m.automaton = some A ∧ A.prepare.outcome = .ok D ∧ D.Prepared := by
  obtain ⟨-, hlevels, -, -, -, -⟩ := Table.build_outcome_iff.1 hbuild
  cases hm : m.automaton with
  | none =>
    rw [Table.prepareLevels_outcome_none hm, hD] at hlevels
    cases hlevels
  | some A =>
    obtain ⟨D', hD', e⟩ := (Table.prepareLevels_outcome_iff hm).1 hlevels
    rw [hD, Option.some.injEq] at e
    subst e
    exact ⟨A, rfl, hD', (Automaton.prepare_spec (hA A hm).wellFormed hD').1⟩

theorem Reached.automaton_eq (h : Reached s source c) :
    c.forest.automaton = s.table.automaton := by
  induction h with
  | begin h =>
    obtain ⟨_, _, -, rfl⟩ := begin_eq_ok_iff.1 h
    rfl
  | step _ hstep ih =>
    rcases step_cases hstep with ⟨_, e, -⟩ | ⟨c', e, hstep⟩
    · cases e
    · cases e
      cases hstep with
      | shift _ hforest _ => exact (Forest.automaton_of_merge hforest).trans ih
      | reduce _ _ _ _ _ _ hforest => exact (Forest.automaton_of_merge hforest).trans ih

theorem Reached.sound (hg : g.WellFormed) (hA : ∀ A, m.automaton = some A → A.Built)
    (hbuild : (Table.build g m).outcome = .ok s.table) (h : Reached s source c) :
    Sound g s.table source c ∧ c.forest.automaton = s.table.automaton := by
  refine ⟨?_, h.automaton_eq⟩
  have hprep : ∀ D, s.table.automaton = some D → D.Prepared := by
    intro D hD
    obtain ⟨_, -, -, hD⟩ := exists_prepared hA hbuild hD
    exact hD
  induction h with
  | begin h => exact sound_begin h
  | step _ hstep ih =>
    rcases step_cases hstep with ⟨_, e, -⟩ | ⟨c', e, hstep⟩
    · cases e
    · cases e
      exact ih.step hbuild hg hprep hstep

theorem Reached.consistent (hg : g.WellFormed) (hA : ∀ A, m.automaton = some A → A.Built)
    (hbuild : (Table.build g m).outcome = .ok s.table) (h : Reached s source c) :
    Consistent s.table c := by
  obtain ⟨hsound, hautomaton⟩ := h.sound hg hA hbuild
  obtain ⟨top, start, hG⟩ := Table.augments_of_build hbuild
  have hlength := Table.length_rows_of_build hbuild
  refine ⟨hsound.path, hsound.symbols, hautomaton, ?_, fun q hq => ?_, fun n hn => ?_⟩
  · rw [hlength]
    exact hsound.path.state_lt hG
  · obtain ⟨hmove, -⟩ := moves_of_shift hbuild hg hq
    rw [hlength]
    exact (hsound.path.push hmove).state_lt hG _ List.mem_cons_self
  · rw [Table.offers_entry?_iff hbuild, Grammar.asks_reduce_iff hG] at hn
    obtain ⟨-, r, hr, -⟩ := hn
    exact (List.getElem?_eq_some_iff.1 hr).1

theorem error_of_parse (h : (parse s steps source).value = some (.error e)) :
    begin s.table source = .error e ∨ ∃ c, Reached s source c ∧ (step s c).outcome = .error e := by
  have along : ∀ steps c, Reached s source c → (run s steps c).value = some (.error e) →
      ∃ c, Reached s source c ∧ (step s c).outcome = .error e := by
    intro steps
    induction steps with
    | zero =>
      intro c _ h
      cases h
    | succ steps ih =>
      intro c hc h
      rw [run, Traced.value_bind] at h
      cases hstep : (step s c).run.value with
      | error e' =>
        rw [hstep] at h
        cases h
        exact ⟨c, hc, hstep⟩
      | ok progress =>
        rw [hstep] at h
        cases progress with
        | going c' => exact ih c' (.step hc hstep) h
        | finished tree => cases h
  unfold parse at h
  cases hbegin : begin s.table source with
  | error e' =>
    rw [hbegin] at h
    cases h
    exact .inl rfl
  | ok c =>
    rw [hbegin] at h
    exact .inr (along steps c (.begin hbegin) h)

/-! ### Steps from consistent configurations -/

omit [TokenSource σ] in
theorem Consistent.length_frames (h : Consistent t c) :
    c.frames.length = c.forest.stack.length + 1 := by
  simpa [Forest.trees] using congrArg List.length h.symbols

omit [TokenSource σ] in
/-- A reduction that is offered finds its right side on the stack, a goto below it and enough
subtrees. -/
theorem Consistent.exists_reduction (h : Consistent t c)
    (hbuild : (Table.build g m).outcome = .ok t) (hg : g.WellFormed)
    (hoffer : Entry.Offers (t.entry? c.state c.lookahead) (.reduce n)) :
    ∃ r popped rest q, t.grammar.rules[n]? = some r ∧ c.frames = popped ++ rest ∧
      popped.map Frame.symbol = r.rhs.reverse ∧ rest ≠ [] ∧
      t.goto? (topState rest) r.lhs = some q ∧ r.rhs.length ≤ c.forest.stack.length := by
  obtain ⟨top, start, hG⟩ := Table.augments_of_build hbuild
  rw [Table.offers_entry?_iff hbuild, Grammar.asks_reduce_iff hG] at hoffer
  obtain ⟨hn, r, hr, hholds, -⟩ := hoffer
  obtain ⟨popped, rest, hframes, hpop, hrest, hfirst⟩ := h.path.pop hG hr hholds
  rw [List.take_length] at hpop
  obtain ⟨j, hj, hexp⟩ := hG.exists_expecting hn hr hfirst
  obtain ⟨q, hmove, -⟩ := hG.exists_moves hj hexp
  have hlhs := (hG.wellFormed hg).lhs_mem r (List.mem_of_getElem? hr)
  have hgoto : t.goto? (topState rest) r.lhs = some q := by
    rw [Table.goto?_eq_some_iff, Table.offers_entry?_iff hbuild]
    exact .goto hmove hlhs
  refine ⟨r, popped, rest, q, hr, hframes, hpop, hrest.ne_nil, hgoto, ?_⟩
  have hlength := h.length_frames
  have hpopped : popped.length = r.rhs.length := by simpa using congrArg List.length hpop
  have hpositive := List.length_pos_iff.2 hrest.ne_nil
  rw [hframes, List.length_append] at hlength
  omega

theorem not_internal_of_readToken (h : readToken t source = .error e) : ¬ e.Internal := by
  unfold readToken at h
  obtain ⟨token, source'⟩ := TokenSource.next source
  dsimp only at h
  split at h
  · cases h
  · cases h
    exact id

theorem Consistent.not_internal_of_shift (h : Consistent t c)
    (hprep : ∀ D, t.automaton = some D → D.Prepared) {q : Nat}
    (herr : (shift t c q).outcome = .error e) : ¬ e.Internal := by
  simp only [shift, Attempt.outcome_bind, Attempt.outcome_emit, Attempt.outcome_ofExcept,
    Attempt.outcome_pure, bind_eq_error_iff, mapError_eq_error_iff, Forest.pushLeaf_eq_merge,
    reduceCtorEq, and_false, exists_false, or_false, false_or] at herr
  obtain ⟨_, -, ⟨cause, hcause, rfl⟩ | ⟨forest, -, hread⟩⟩ := herr
  · exact Forest.not_internal_of_merge (h.automaton ▸ hprep) (Nat.zero_le _) hcause
  · exact not_internal_of_readToken hread

theorem Consistent.not_internal_of_reduce (h : Consistent t c)
    (hbuild : (Table.build g m).outcome = .ok t) (hg : g.WellFormed)
    (hprep : ∀ D, t.automaton = some D → D.Prepared)
    (hoffer : Entry.Offers (t.entry? c.state c.lookahead) (.reduce n))
    {known : Option (List Position)} (herr : (reduce t c n known).outcome = .error e) :
    ¬ e.Internal := by
  obtain ⟨r, popped, rest, q, hr, hframes, hpop, hrest, hgoto, hle⟩ :=
    h.exists_reduction hbuild hg hoffer
  have hunwind : unwind (t.grammar.ruleText n) r.rhs.reverse c.frames = .ok rest :=
    unwind_eq_ok_iff.2 ⟨popped, hframes, hpop, fun _ => hrest⟩
  have htop : (rest.head?.map Frame.state).getD 0 = topState rest := rfl
  simp only [reduce, hr, hunwind, Attempt.outcome_bind, Attempt.outcome_ofExcept,
    bind_eq_error_iff, Except.ok.injEq, exists_eq_left', reduceCtorEq, false_or, htop, hgoto,
    Attempt.outcome_emit, Attempt.outcome_adapt, Attempt.outcome_pure, mapError_eq_error_iff,
    and_false, exists_false, or_false] at herr
  obtain ⟨_, -, cause, hcause, rfl⟩ := herr
  exact Forest.not_internal_of_merge (h.automaton ▸ hprep) hle hcause

theorem Consistent.not_internal_of_accept (h : Consistent t c)
    (hbuild : (Table.build g m).outcome = .ok t) (hg : g.WellFormed)
    (he : t.entry? c.state c.lookahead = some .accept)
    (herr : (accept c).outcome = .error e) : ¬ e.Internal := by
  obtain ⟨top, start, hG⟩ := Table.augments_of_build hbuild
  have hoffer := Entry.offers_accept_iff.2 he
  rw [Table.offers_entry?_iff hbuild, Grammar.asks_accept_iff hG] at hoffer
  have hframes := h.path.length_of_accept hG hg hoffer.2
  rw [h.length_frames] at hframes
  obtain ⟨tree, hstack⟩ := List.length_eq_one_iff.1 (Nat.succ.inj hframes)
  simp only [accept, Attempt.outcome_bind, Attempt.outcome_emit, Attempt.outcome_ofExcept,
    bind_eq_error_iff, mapError_eq_error_iff, reduceCtorEq, false_or] at herr
  obtain ⟨_, -, ⟨cause, hcause, rfl⟩ | ⟨_, -, cause, hcause, rfl⟩⟩ := herr
  · exact Forest.not_internal_of_finalCheck hcause
  · rw [Forest.finish, hstack] at hcause
    cases hcause

theorem Consistent.not_internal_of_step (h : Consistent s.table c)
    (hbuild : (Table.build g m).outcome = .ok s.table) (hg : g.WellFormed)
    (hprep : ∀ D, s.table.automaton = some D → D.Prepared)
    (herr : (step s c).outcome = .error e) : ¬ e.Internal := by
  unfold step at herr
  rw [Attempt.outcome_bind, Attempt.outcome_emit, bind_eq_error_iff] at herr
  rcases herr with herr | ⟨_, -, herr⟩
  · cases herr
  · split at herr
    · rename_i he
      rw [Attempt.outcome_bind, bind_eq_error_iff] at herr
      rcases herr with herr | ⟨tree, -, herr⟩
      · exact h.not_internal_of_accept hbuild hg he herr
      · cases herr
    · rename_i cell he
      rw [Attempt.outcome_bind, bind_eq_error_iff] at herr
      rcases herr with herr | ⟨d, hd, herr⟩
      · exact DecisionPoint.not_internal_of_choose herr
      · have hpicks := DecisionPoint.choose_picks hd
        have herr := Attempt.outcome_bind_pure_eq_error_iff.1 herr
        cases d with
        | shift q => exact h.not_internal_of_shift hprep herr
        | reduce n known =>
          refine h.not_internal_of_reduce hbuild hg hprep ?_ herr
          rw [he]
          exact hpicks.1
    · cases herr
      exact id

/-- In every configuration that a parse reaches, the stack is a path through the groups of the
table, its symbols are the roots of the forest, and no state or rule is out of range; and no parse
ends with an internal error. -/
theorem parse_not_internal (order : ResolutionOrder) (source : σ) (hg : g.Built)
    (hA : ∀ A, m.automaton = some A → A.Built) (hbuild : (Table.build g m).outcome = .ok t) :
    t.groups = t.grammar.groups ∧ (∀ c, Reached ⟨t, order⟩ source c → Consistent t c) ∧
      ∀ steps e, (parse ⟨t, order⟩ steps source).value = some (.error e) → ¬ e.Internal := by
  have consistent : ∀ c, Reached ⟨t, order⟩ source c → Consistent t c :=
    fun c hc => hc.consistent hg.wellFormed hA hbuild
  refine ⟨(Table.build_outcome_iff.1 hbuild).2.2.1, consistent, fun steps e he => ?_⟩
  have hprep : ∀ D, t.automaton = some D → D.Prepared := by
    intro D hD
    obtain ⟨_, -, -, hD⟩ := exists_prepared hA hbuild hD
    exact hD
  rcases error_of_parse he with hbegin | ⟨c, hc, hstep⟩
  · rcases bind_eq_error_iff.1 hbegin with hread | ⟨_, -, hread⟩
    · exact not_internal_of_readToken hread
    · cases hread
  · exact (consistent c hc).not_internal_of_step hbuild hg.wellFormed hprep hstep

theorem parse_not_internal_choice :
    ∃ g A t e, Demo.choice = .ok g ∧ Demo.choiceLevels = .ok A ∧
      (Table.build g { automaton := some A }).outcome = .ok t ∧
      (∀ c, Reached ⟨t, .levelsFirst⟩ (ListedTokens.mk [⟨"x"⟩] 0) c → Consistent t c) ∧
      (parse ⟨t, .levelsFirst⟩ 2 (ListedTokens.mk [⟨"x"⟩] 0)).value = some (.error e) ∧
      ¬ e.Internal := by
  have hg := Demo.choice_eq
  have hA := Demo.choiceLevels_eq
  have hrun : ((Table.build (Demo.choice.toOption.getD {})
      { automaton := some (Demo.choiceLevels.toOption.getD {}) }).outcome.toOption.bind
        fun t => (parse ⟨t, .levelsFirst⟩ 2 (ListedTokens.mk [⟨"x"⟩] 0)).value.map
          fun x => x.toOption.isNone) = some true := by
    decide +kernel
  generalize Demo.choice.toOption.getD {} = g at hg hrun
  generalize Demo.choiceLevels.toOption.getD {} = A at hA hrun
  obtain ⟨t, ht, hrun⟩ := Option.bind_eq_some_iff.1 hrun
  obtain ⟨x, hx, hnone⟩ := Option.map_eq_some_iff.1 hrun
  have hbuild : (Table.build g { automaton := some A }).outcome = .ok t :=
    toOption_eq_some_iff.1 ht
  have built : ∀ B, some A = some B → B.Built := by
    intro B hB
    cases hB
    exact Demo.built_choiceLevels hA
  obtain ⟨-, hreached, herror⟩ :=
    parse_not_internal .levelsFirst (ListedTokens.mk [⟨"x"⟩] 0) (Demo.built_choice hg) built hbuild
  cases x with
  | ok tree => cases hnone
  | error e => exact ⟨g, A, t, e, hg, hA, hbuild, hreached, hx, herror 2 e hx⟩

end Parser

end TreeControl
