import TreeControl.Parser.Basic
import TreeControl.Proofs.Table.Filling
import TreeControl.Proofs.Tree.Replay

/-! # The steps of a parse

However a conflict is settled, the decision is one of the candidates of the cell
(`choose_picks`).  So a step shifts the lookahead or reduces by a rule that the entry offers: `Step`
is that relation, without the decision and without the events.  A parse that succeeds is a sequence
of such steps to a configuration that accepts (`yields_of_parse`).  `Takes` and `Runs` name the
actions of a step and of a sequence of steps.

Where an entry offers one thing only there is nothing to decide, and every such sequence is a parse
(`Sole.parse_iff`). -/

namespace TreeControl

theorem Traced.value_mapM {α β : Type} (f : α → Traced β) (l : List α) :
    (l.mapM f).value = l.map fun a => (f a).value := by
  induction l with
  | nil => rfl
  | cons a l ih => rw [List.mapM_cons, value_bind, value_bind, value_pure, ih, List.map_cons]

/-! ### Decisions -/

namespace DecisionPoint

variable {x : DecisionPoint} {shift : Option Nat} {reduces : List Nat} {due : Option ParseError}
  {d : Decision} {n : Nat} {ps : List Position} {c : Cell} {order : ResolutionOrder}

/-- A decision takes one of the candidates, and positions that come with a reduction are those that
it leads to. -/
def Picks (x : DecisionPoint) (shift : Option Nat) (reduces : List Nat) : Decision → Prop
  | .shift q => shift = some q
  | .reduce n known => n ∈ reduces ∧ ∀ ps, known = some ps →
      ∃ r, x.table.grammar.rules[n]? = some r ∧ x.forest.preview r = .ok ps

/-- A resolver takes one of the candidates or leaves some of them. -/
def Narrows (x : DecisionPoint) (shift : Option Nat) (reduces : List Nat) : Resolution → Prop
  | .settled d => x.Picks shift reduces d
  | .undecided shift' reduces' _ =>
      (∀ q, shift' = some q → shift = some q) ∧ ∀ n ∈ reduces', n ∈ reduces

theorem Picks.mono {shift' : Option Nat} {reduces' : List Nat} (h : x.Picks shift' reduces' d)
    (hs : ∀ q, shift' = some q → shift = some q) (hr : ∀ n ∈ reduces', n ∈ reduces) :
    x.Picks shift reduces d := by
  cases d with
  | shift q => exact hs q h
  | reduce n known => exact ⟨hr n h.1, h.2⟩

theorem picks_reduce (h : n ∈ reduces) : x.Picks shift reduces (.reduce n none) :=
  ⟨h, fun ps hps => absurd hps (by simp)⟩

theorem narrows_askPrecedence {res : Resolution}
    (h : (x.askPrecedence shift reduces due).outcome = .ok res) : x.Narrows shift reduces res := by
  unfold askPrecedence at h
  split at h
  · rename_i target r rs
    rw [Attempt.outcome_bind_eq_ok_iff] at h
    obtain ⟨v, -, h⟩ := h
    split at h
    · cases h
      exact ⟨fun q hq => hq, fun n hn => hn⟩
    · cases h
      exact rfl
    · split at h
      · cases h
        show x.Picks (some target) (r :: rs) (.reduce r none)
        exact picks_reduce List.mem_cons_self
      · cases h
        exact ⟨fun q hq => absurd hq (by simp), fun n hn => hn⟩
  · cases h
    exact ⟨fun q hq => hq, fun n hn => hn⟩

theorem fits_eq_some_iff {k : Nat} :
    (x.fits n).value = some (k, ps) ↔ n = k ∧
      ∃ r, x.table.grammar.rules[n]? = some r ∧ x.forest.preview r = .ok ps := by
  unfold fits
  cases hr : x.table.grammar.rules[n]? with
  | none => simp
  | some r =>
    cases hps : x.forest.preview r with
    | error e => simp only [hps, Traced.value_bind, Traced.value_pure, reduceCtorEq,
        Option.some.injEq, exists_eq_left', and_false]
    | ok qs => simp [hps]

theorem value_fitting (x : DecisionPoint) (reduces : List Nat) :
    (x.fitting reduces).value = reduces.filterMap fun n => (x.fits n).value := by
  rw [fitting, Traced.value_bind, Traced.value_mapM, Traced.value_pure, List.filterMap_map]
  rfl

theorem mem_fitting_iff :
    (n, ps) ∈ (x.fitting reduces).value ↔ n ∈ reduces ∧
      ∃ r, x.table.grammar.rules[n]? = some r ∧ x.forest.preview r = .ok ps := by
  rw [value_fitting, List.mem_filterMap]
  constructor
  · rintro ⟨k, hk, hfits⟩
    obtain ⟨rfl, hr⟩ := fits_eq_some_iff.1 hfits
    exact ⟨hk, hr⟩
  · rintro ⟨hn, hr⟩
    exact ⟨n, hn, fits_eq_some_iff.2 ⟨rfl, hr⟩⟩

theorem narrows_askLevels {res : Resolution}
    (h : (x.askLevels shift reduces due).outcome = .ok res) : x.Narrows shift reduces res := by
  unfold askLevels at h
  split at h
  · cases h
    exact ⟨fun q hq => hq, fun n hn => hn⟩
  · rw [Attempt.outcome_bind, Attempt.outcome_lift, bind_eq_ok_iff] at h
    obtain ⟨valid, hvalid, h⟩ := h
    rw [Except.ok.injEq] at hvalid
    have fit : ∀ n ps, (n, ps) ∈ valid → n ∈ reduces ∧
        ∃ r, x.table.grammar.rules[n]? = some r ∧ x.forest.preview r = .ok ps := by
      intro n ps hn
      rw [← hvalid] at hn
      exact mem_fitting_iff.1 hn
    split at h
    · rename_i r ps
      cases h
      obtain ⟨hr, hps⟩ := fit r ps (List.mem_singleton.2 rfl)
      exact ⟨hr, fun qs hqs => by cases hqs; exact hps⟩
    · cases h
      exact rfl
    · cases h
    · cases h
      refine ⟨fun q hq => hq, fun n hn => ?_⟩
      obtain ⟨⟨k, ps⟩, hk, rfl⟩ := List.mem_map.1 hn
      exact (fit k ps hk).1
    · cases h

theorem narrows_ask {resolver : Resolver} {res : Resolution}
    (h : (x.ask resolver shift reduces due).outcome = .ok res) : x.Narrows shift reduces res := by
  cases resolver with
  | precedence => exact narrows_askPrecedence h
  | levels => exact narrows_askLevels h

theorem settle_picks {resolvers : List Resolver}
    (h : (x.settle resolvers shift reduces due).outcome = .ok d) : x.Picks shift reduces d := by
  induction resolvers generalizing shift reduces due with
  | nil =>
    unfold settle at h
    split at h
    · cases h
    · cases h
      exact picks_reduce (List.mem_singleton.2 rfl)
    · cases h
  | cons resolver rest ih =>
    rw [settle, Attempt.outcome_bind_eq_ok_iff] at h
    obtain ⟨res, hres, h⟩ := h
    have within := narrows_ask hres
    cases res with
    | settled d' =>
      cases h
      exact within
    | undecided shift' reduces' due' => exact (ih h).mono within.1 within.2

theorem choose_picks (h : (x.choose order c).outcome = .ok d) :
    x.Picks c.shift c.reduces.toList d := by
  unfold choose at h
  split at h
  · exact settle_picks h
  · split at h
    · rename_i q hq
      cases h
      exact hq
    · rename_i r _ hr
      cases h
      exact picks_reduce (List.mem_of_head? hr)
    · cases h

theorem choose_shift {q : Nat} (hc : ∀ pl, Entry.Offers (some (.act c)) pl ↔ pl = .shift q) :
    (x.choose order c).outcome = .ok (.shift q) := by
  have hshift : c.shift = some q := (hc (.shift q)).2 rfl
  have hnil : c.reduces.toList = [] := by
    refine List.eq_nil_iff_forall_not_mem.2 fun n hn => ?_
    have := (hc (.reduce n)).1 hn
    cases this
  have hconf : c.isConflict = false := by
    simp [Cell.isConflict, Cell.isShiftReduce, Cell.isReduceReduce, OrdSet.isEmpty, OrdSet.size,
      hnil]
  unfold choose
  simp [hconf, hshift]

theorem choose_reduce (hc : ∀ pl, Entry.Offers (some (.act c)) pl ↔ pl = .reduce n) :
    (x.choose order c).outcome = .ok (.reduce n none) := by
  have hshift : c.shift = none := by
    refine Option.eq_none_iff_forall_ne_some.2 fun q hq => ?_
    have := (hc (.shift q)).1 hq
    cases this
  have hlist : c.reduces.toList = [n] := by
    refine OrdSet.toList_eq_singleton_iff.2 fun k => ?_
    have := hc (.reduce k)
    rwa [Placement.reduce.injEq] at this
  have hconf : c.isConflict = false := by
    simp [Cell.isConflict, Cell.isShiftReduce, Cell.isReduceReduce, OrdSet.size, hshift, hlist]
  unfold choose
  simp [hconf, hshift, OrdSet.min?, hlist]

end DecisionPoint

/-! ### Steps -/

/-- An action of the parser. -/
inductive Parser.Action where
  | shift
  | reduce (rule : Nat)
  deriving DecidableEq, Repr

/-- The action of a decision. -/
def Decision.action : Decision → Parser.Action
  | .shift _ => .shift
  | .reduce n _ => .reduce n

namespace Parser

variable {σ : Type} [TokenSource σ] {s : Setting} {t : Table} {c c' : Config σ} {tree : Tree}
  {source source' : σ} {token : Symbol} {steps : Nat}

/-- The state on top of a stack. -/
def topState (frames : List Frame) : Nat := (frames.head?.map Frame.state).getD 0

/-- A step with an action that the entry of the state and the lookahead offers.  A shift makes its
leaf like a reduction with nothing on its right side. -/
inductive Step (t : Table) (c : Config σ) : Config σ → Prop
  | shift {q : Nat} {forest : Forest} {source : σ} {token : Symbol} :
      Entry.Offers (t.entry? c.state c.lookahead) (.shift q) →
      (c.forest.merge ⟨c.lookahead, []⟩ none).outcome = .ok forest →
      readToken t c.source = .ok (token, source) →
      Step t c ⟨⟨c.lookahead, q⟩ :: c.frames, forest, source, token⟩
  | reduce {n q : Nat} {r : Rule} {popped rest : List Frame} {forest : Forest} :
      Entry.Offers (t.entry? c.state c.lookahead) (.reduce n) →
      t.grammar.rules[n]? = some r → c.frames = popped ++ rest →
      popped.map Frame.symbol = r.rhs.reverse → (r.rhs ≠ [] → rest ≠ []) →
      t.goto? (topState rest) r.lhs = some q →
      (c.forest.merge r none).outcome = .ok forest →
      Step t c ⟨⟨r.lhs, q⟩ :: rest, forest, c.source, c.lookahead⟩

/-- A step with a given action. -/
inductive Takes (t : Table) (c : Config σ) : Action → Config σ → Prop
  | shift {q : Nat} {forest : Forest} {source : σ} {token : Symbol} :
      Entry.Offers (t.entry? c.state c.lookahead) (.shift q) →
      (c.forest.merge ⟨c.lookahead, []⟩ none).outcome = .ok forest →
      readToken t c.source = .ok (token, source) →
      Takes t c .shift ⟨⟨c.lookahead, q⟩ :: c.frames, forest, source, token⟩
  | reduce {n q : Nat} {r : Rule} {popped rest : List Frame} {forest : Forest} :
      Entry.Offers (t.entry? c.state c.lookahead) (.reduce n) →
      t.grammar.rules[n]? = some r → c.frames = popped ++ rest →
      popped.map Frame.symbol = r.rhs.reverse → (r.rhs ≠ [] → rest ≠ []) →
      t.goto? (topState rest) r.lhs = some q →
      (c.forest.merge r none).outcome = .ok forest →
      Takes t c (.reduce n) ⟨⟨r.lhs, q⟩ :: rest, forest, c.source, c.lookahead⟩

/-- Steps with given actions, one after the other. -/
inductive Runs (t : Table) : Config σ → List Action → Config σ → Prop
  | nil (c : Config σ) : Runs t c [] c
  | cons {c c₁ c' : Config σ} {a : Action} {as : List Action} :
      Takes t c a c₁ → Runs t c₁ as c' → Runs t c (a :: as) c'

/-- A configuration whose entry accepts and whose forest is a finished tree. -/
def Config.Finishes (t : Table) (c : Config σ) (tree : Tree) : Prop :=
  t.entry? c.state c.lookahead = some .accept ∧ c.forest.finalCheck = .ok () ∧
    c.forest.finish = .ok tree

/-- A tree that steps can build from the tokens of a source. -/
def Yields (t : Table) (source : σ) (tree : Tree) : Prop :=
  ∃ c c' : Config σ, begin t source = .ok c ∧ Relation.ReflTransGen (Step t) c c' ∧
    c'.Finishes t tree

theorem step_iff_exists_takes : Step t c c' ↔ ∃ a, Takes t c a c' := by
  constructor
  · intro h
    cases h with
    | shift hoffer hforest hread => exact ⟨.shift, .shift hoffer hforest hread⟩
    | reduce hoffer hr hframes hpop hrest hgoto hforest =>
      exact ⟨_, .reduce hoffer hr hframes hpop hrest hgoto hforest⟩
  · rintro ⟨a, h⟩
    cases h with
    | shift hoffer hforest hread => exact .shift hoffer hforest hread
    | reduce hoffer hr hframes hpop hrest hgoto hforest =>
      exact .reduce hoffer hr hframes hpop hrest hgoto hforest

theorem Runs.trans {c₁ : Config σ} {as bs : List Action} (h : Runs t c as c₁)
    (h' : Runs t c₁ bs c') : Runs t c (as ++ bs) c' := by
  induction h with
  | nil c => exact h'
  | cons hstep _ ih => exact .cons hstep (ih h')

theorem Runs.single {a : Action} (h : Takes t c a c') : Runs t c [a] c' := .cons h (.nil c')

theorem steps_iff_exists_runs :
    Relation.ReflTransGen (Step t) c c' ↔ ∃ as, Runs t c as c' := by
  constructor
  · intro h
    induction h with
    | refl => exact ⟨[], .nil c⟩
    | tail _ hstep ih =>
      obtain ⟨as, has⟩ := ih
      obtain ⟨a, ha⟩ := step_iff_exists_takes.1 hstep
      exact ⟨as ++ [a], has.trans (.single ha)⟩
  · rintro ⟨as, h⟩
    induction h with
    | nil c => exact .refl
    | cons hstep _ ih => exact .head (step_iff_exists_takes.2 ⟨_, hstep⟩) ih

theorem readToken_eq_ok_iff :
    readToken t source = .ok (token, source') ↔
      TokenSource.next source = (token, source') ∧
        (token = .blank ∨ token ∈ t.grammar.terminals) := by
  unfold readToken
  obtain ⟨token', source''⟩ := TokenSource.next source
  dsimp only
  split
  · rename_i h
    rw [Bool.or_eq_true, Symbol.isBlank_iff, Grammar.isTerminal_iff] at h
    rw [Except.ok.injEq]
    constructor
    · intro e
      cases e
      exact ⟨rfl, h⟩
    · exact fun e => e.1
  · rename_i h
    rw [Bool.or_eq_true, Symbol.isBlank_iff, Grammar.isTerminal_iff] at h
    constructor
    · intro e
      cases e
    · intro e
      obtain ⟨e, hmem⟩ := e
      cases e
      exact absurd hmem h

theorem begin_eq_ok_iff :
    begin t source = .ok c ↔ ∃ token source', readToken t source = .ok (token, source') ∧
      c = ⟨bottom, { automaton := t.automaton }, source', token⟩ := by
  unfold begin
  rw [bind_eq_ok_iff]
  constructor
  · intro h
    obtain ⟨⟨token, source'⟩, hread, e⟩ := h
    cases e
    exact ⟨token, source', hread, rfl⟩
  · intro h
    obtain ⟨token, source', hread, rfl⟩ := h
    exact ⟨(token, source'), hread, rfl⟩

/-- Unwinding takes frames with the given symbols and leaves the bottom one. -/
theorem unwind_eq_ok_iff {text : String} {ss : List Symbol} {frames rest : List Frame} :
    unwind text ss frames = .ok rest ↔ ∃ popped, frames = popped ++ rest ∧
      popped.map Frame.symbol = ss ∧ (ss ≠ [] → rest ≠ []) := by
  induction ss generalizing frames with
  | nil =>
    rw [unwind, Except.ok.injEq]
    constructor
    · intro e
      exact ⟨[], e, rfl, fun h => absurd rfl h⟩
    · intro h
      obtain ⟨popped, rfl, hp, -⟩ := h
      rw [List.map_eq_nil_iff.1 hp]
      rfl
  | cons x ss ih =>
    cases frames with
    | nil =>
      rw [unwind]
      constructor
      · intro e
        cases e
      · intro h
        obtain ⟨popped, hnil, hp, hrest⟩ := h
        exact absurd (List.append_eq_nil_iff.1 hnil.symm).2 (hrest (List.cons_ne_nil _ _))
    | cons f frames =>
      rw [unwind]
      split
      · rename_i h
        rw [Bool.and_eq_true, decide_eq_true_eq, Bool.not_eq_true', List.isEmpty_eq_false_iff] at h
        rw [ih]
        constructor
        · intro h'
          obtain ⟨popped, rfl, hp, hrest⟩ := h'
          refine ⟨f :: popped, rfl, by rw [List.map_cons, h.1, hp], fun _ hnil => ?_⟩
          rcases popped with _ | ⟨f', popped⟩
          · exact h.2 (by simpa using hnil)
          · exact hrest (by rw [← hp]; exact List.cons_ne_nil _ _) hnil
        · intro h'
          obtain ⟨popped, e, hp, hrest⟩ := h'
          cases popped with
          | nil => cases hp
          | cons f' popped =>
            rw [List.cons_append, List.cons.injEq] at e
            rw [List.map_cons, List.cons.injEq] at hp
            exact ⟨popped, e.2, hp.2, fun _ => hrest (List.cons_ne_nil _ _)⟩
      · rename_i h
        rw [Bool.and_eq_true, decide_eq_true_eq, Bool.not_eq_true', List.isEmpty_eq_false_iff] at h
        constructor
        · intro e
          cases e
        · intro h'
          obtain ⟨popped, e, hp, hrest⟩ := h'
          cases popped with
          | nil => cases hp
          | cons f' popped =>
            rw [List.cons_append, List.cons.injEq] at e
            rw [List.map_cons, List.cons.injEq] at hp
            refine absurd ⟨e.1 ▸ hp.1, fun hnil => ?_⟩ h
            rw [hnil] at e
            exact hrest (List.cons_ne_nil _ _) (List.append_eq_nil_iff.1 e.2.symm).2

theorem shift_outcome_iff {q : Nat} :
    (shift t c q).outcome = .ok c' ↔ ∃ forest token source,
      (c.forest.merge ⟨c.lookahead, []⟩ none).outcome = .ok forest ∧
      readToken t c.source = .ok (token, source) ∧
      c' = ⟨⟨c.lookahead, q⟩ :: c.frames, forest, source, token⟩ := by
  simp only [shift, Attempt.outcome_bind, Attempt.outcome_emit, Attempt.outcome_ofExcept,
    bind_eq_ok_iff, mapError_eq_ok_iff, Forest.pushLeaf_eq_merge]
  constructor
  · intro h
    obtain ⟨_, -, forest, hforest, ⟨token, source⟩, hread, e⟩ := h
    cases e
    exact ⟨forest, token, source, hforest, hread, rfl⟩
  · intro h
    obtain ⟨forest, token, source, hforest, hread, rfl⟩ := h
    exact ⟨(), trivial, forest, hforest, (token, source), hread, rfl⟩

theorem reduce_outcome_iff {n : Nat} {known : Option (List Position)} :
    (reduce t c n known).outcome = .ok c' ↔ ∃ r popped rest q forest,
      t.grammar.rules[n]? = some r ∧ c.frames = popped ++ rest ∧
      popped.map Frame.symbol = r.rhs.reverse ∧ (r.rhs ≠ [] → rest ≠ []) ∧
      t.goto? (topState rest) r.lhs = some q ∧
      (c.forest.merge r known).outcome = .ok forest ∧
      c' = ⟨⟨r.lhs, q⟩ :: rest, forest, c.source, c.lookahead⟩ := by
  unfold reduce
  cases hr : t.grammar.rules[n]? with
  | none => simp
  | some r =>
    dsimp only
    rw [Attempt.outcome_bind, Attempt.outcome_ofExcept, bind_eq_ok_iff]
    simp only [unwind_eq_ok_iff, ne_eq, List.reverse_eq_nil_iff]
    constructor
    · intro h
      obtain ⟨rest, ⟨popped, hframes, hpop, hrest⟩, h⟩ := h
      have htop : (rest.head?.map Frame.state).getD 0 = topState rest := rfl
      rw [htop] at h
      cases hq : t.goto? (topState rest) r.lhs with
      | none =>
        rw [hq] at h
        cases h
      | some q =>
        rw [hq] at h
        simp only [Attempt.outcome_bind, Attempt.outcome_emit, Attempt.outcome_adapt,
          bind_eq_ok_iff, mapError_eq_ok_iff] at h
        obtain ⟨_, -, forest, hforest, e⟩ := h
        cases e
        exact ⟨r, popped, rest, q, forest, rfl, hframes, hpop, hrest, hq, hforest, rfl⟩
    · intro h
      obtain ⟨r', popped, rest, q, forest, hr', hframes, hpop, hrest, hq, hforest, rfl⟩ := h
      cases hr'
      refine ⟨rest, ⟨popped, hframes, hpop, hrest⟩, ?_⟩
      have htop : (rest.head?.map Frame.state).getD 0 = topState rest := rfl
      rw [htop, hq]
      simp only [Attempt.outcome_bind, Attempt.outcome_emit, Attempt.outcome_adapt,
        bind_eq_ok_iff, mapError_eq_ok_iff]
      exact ⟨(), trivial, forest, hforest, rfl⟩

theorem accept_outcome_iff :
    (accept c).outcome = .ok tree ↔ c.forest.finalCheck = .ok () ∧ c.forest.finish = .ok tree := by
  simp only [accept, Attempt.outcome_bind, Attempt.outcome_emit, Attempt.outcome_ofExcept,
    bind_eq_ok_iff, mapError_eq_ok_iff]
  constructor
  · intro h
    obtain ⟨_, -, _, hcheck, hfinish⟩ := h
    exact ⟨hcheck, hfinish⟩
  · intro h
    exact ⟨(), trivial, (), h.1, h.2⟩

/-- Carrying out a decision that takes a candidate of the cell is a step with its action. -/
theorem takes_of_act {cell : Cell} {d : Decision}
    (he : t.entry? c.state c.lookahead = some (.act cell))
    (hd : (c.decisionPoint t).Picks cell.shift cell.reduces.toList d)
    (h : (act t c d).outcome = .ok c') : Takes t c d.action c' := by
  cases d with
  | shift q =>
    obtain ⟨forest, token, source, hforest, hread, rfl⟩ := shift_outcome_iff.1 h
    refine .shift ?_ hforest hread
    rw [he]
    exact hd
  | reduce n known =>
    obtain ⟨r, popped, rest, q, forest, hr, hframes, hpop, hrest, hq, hforest, rfl⟩ :=
      reduce_outcome_iff.1 h
    have hoffer : Entry.Offers (t.entry? c.state c.lookahead) (.reduce n) := by
      rw [he]
      exact hd.1
    cases known with
    | none => exact .reduce hoffer hr hframes hpop hrest hq hforest
    | some ps =>
      obtain ⟨r', hr', hps⟩ := hd.2 ps rfl
      cases hr.symm.trans hr'
      have hps : c.forest.preview r = .ok ps := hps
      rw [Forest.merge_known hps] at hforest
      exact .reduce hoffer hr hframes hpop hrest hq hforest

theorem step_of_act {cell : Cell} {d : Decision}
    (he : t.entry? c.state c.lookahead = some (.act cell))
    (hd : (c.decisionPoint t).Picks cell.shift cell.reduces.toList d)
    (h : (act t c d).outcome = .ok c') : Step t c c' :=
  step_iff_exists_takes.2 ⟨d.action, takes_of_act he hd h⟩

theorem step_cases {progress : Progress σ} (h : (step s c).outcome = .ok progress) :
    (∃ tree, progress = .finished tree ∧ c.Finishes s.table tree) ∨
      ∃ c', progress = .going c' ∧ Step s.table c c' := by
  unfold step at h
  rw [Attempt.outcome_bind, Attempt.outcome_emit, bind_eq_ok_iff] at h
  obtain ⟨_, -, h⟩ := h
  split at h
  · rename_i he
    rw [Attempt.outcome_bind_eq_ok_iff] at h
    obtain ⟨tree, htree, e⟩ := h
    cases e
    exact .inl ⟨tree, rfl, he, accept_outcome_iff.1 htree⟩
  · rename_i cell he
    simp only [Attempt.outcome_bind, bind_eq_ok_iff] at h
    obtain ⟨d, hd, c', hc', e⟩ := h
    cases e
    exact .inr ⟨c', rfl, step_of_act he (DecisionPoint.choose_picks hd) hc'⟩
  · cases h

theorem exists_steps_of_run (h : (run s steps c).value = some (.ok tree)) :
    ∃ c', Relation.ReflTransGen (Step s.table) c c' ∧ c'.Finishes s.table tree := by
  induction steps generalizing c with
  | zero => cases h
  | succ steps ih =>
    rw [run, Traced.value_bind] at h
    cases hstep : (step s c).run.value with
    | error e =>
      rw [hstep] at h
      cases h
    | ok progress =>
      rw [hstep] at h
      have houtcome : (step s c).outcome = .ok progress := hstep
      rcases step_cases houtcome with ⟨tree', rfl, hfin⟩ | ⟨c', rfl, hc'⟩
      · cases h
        exact ⟨c, .refl, hfin⟩
      · obtain ⟨c'', hsteps, hfin⟩ := ih h
        exact ⟨c'', hsteps.head hc', hfin⟩

/-- What a parse returns can be built by steps, whatever settles the conflicts. -/
theorem yields_of_parse (h : (parse s steps source).value = some (.ok tree)) :
    Yields s.table source tree := by
  unfold parse at h
  cases hc : begin s.table source with
  | error e =>
    rw [hc] at h
    cases h
  | ok c =>
    rw [hc] at h
    obtain ⟨c', hsteps, hfin⟩ := exists_steps_of_run h
    exact ⟨c, c', hc, hsteps, hfin⟩

/-! ### Tables without conflicts -/

/-- Every entry of a table offers one thing. -/
def Sole (t : Table) : Prop :=
  ∀ q x e, t.entry? q x = some e → ∃ pl, ∀ pl', Entry.Offers (some e) pl' ↔ pl' = pl

theorem Sole.offers_iff (h : Sole t) {q : Nat} {x : Symbol} {pl pl' : Placement}
    (hoffer : Entry.Offers (t.entry? q x) pl) :
    Entry.Offers (t.entry? q x) pl' ↔ pl' = pl := by
  cases he : t.entry? q x with
  | none =>
    rw [he] at hoffer
    exact absurd hoffer (by simp [Entry.Offers])
  | some e =>
    obtain ⟨pl₀, hpl⟩ := h q x e he
    rw [he, hpl] at hoffer
    rw [hpl, hoffer]

theorem Sole.step_eq (ht : Sole s.table) (h : Step s.table c c') :
    (step s c).outcome = .ok (.going c') := by
  unfold step
  rw [Attempt.outcome_bind, Attempt.outcome_emit, bind_eq_ok_iff]
  refine ⟨(), rfl, ?_⟩
  cases h with
  | @shift q forest source token hoffer hforest hread =>
    have hsole : ∀ pl, Entry.Offers (s.table.entry? c.state c.lookahead) pl ↔ pl = .shift q :=
      fun pl => ht.offers_iff hoffer
    obtain ⟨cell, he, -⟩ := Entry.offers_shift_iff.1 hoffer
    rw [he] at hsole ⊢
    simp only [Attempt.outcome_bind, bind_eq_ok_iff]
    refine ⟨_, DecisionPoint.choose_shift hsole, _, shift_outcome_iff.2 ?_, rfl⟩
    exact ⟨forest, token, source, hforest, hread, rfl⟩
  | @reduce n q r popped rest forest hoffer hr hframes hpop hrest hq hforest =>
    have hsole : ∀ pl, Entry.Offers (s.table.entry? c.state c.lookahead) pl ↔ pl = .reduce n :=
      fun pl => ht.offers_iff hoffer
    obtain ⟨cell, he, -⟩ := Entry.offers_reduce_iff.1 hoffer
    rw [he] at hsole ⊢
    simp only [Attempt.outcome_bind, bind_eq_ok_iff]
    refine ⟨_, DecisionPoint.choose_reduce hsole, _, reduce_outcome_iff.2 ?_, rfl⟩
    exact ⟨r, popped, rest, q, forest, hr, hframes, hpop, hrest, hq, hforest, rfl⟩

theorem Config.Finishes.step_eq (h : c.Finishes s.table tree) :
    (step s c).outcome = .ok (.finished tree) := by
  unfold step
  rw [Attempt.outcome_bind, Attempt.outcome_emit, bind_eq_ok_iff]
  refine ⟨(), rfl, ?_⟩
  rw [h.1]
  dsimp only
  rw [Attempt.outcome_bind_eq_ok_iff]
  exact ⟨tree, accept_outcome_iff.2 h.2, rfl⟩

theorem run_succ_of_going (h : (step s c).outcome = .ok (.going c')) :
    (run s (steps + 1) c).value = (run s steps c').value := by
  rw [run, Traced.value_bind, show (step s c).run.value = .ok (.going c') from h]

theorem run_succ_of_finished (h : (step s c).outcome = .ok (.finished tree)) :
    (run s (steps + 1) c).value = some (.ok tree) := by
  rw [run, Traced.value_bind, show (step s c).run.value = .ok (.finished tree) from h]
  rfl

/-- Without conflicts a sequence of steps that accepts is a run, given enough steps. -/
theorem Sole.run_eq (ht : Sole s.table) (h : Relation.ReflTransGen (Step s.table) c c')
    (hfin : c'.Finishes s.table tree) :
    ∃ n, ∀ steps, n ≤ steps → (run s steps c).value = some (.ok tree) := by
  induction h using Relation.ReflTransGen.head_induction_on with
  | refl =>
    refine ⟨1, fun steps hsteps => ?_⟩
    obtain ⟨k, rfl⟩ := Nat.exists_eq_add_of_le' hsteps
    exact run_succ_of_finished hfin.step_eq
  | head hstep _ ih =>
    obtain ⟨n, hn⟩ := ih
    refine ⟨n + 1, fun steps hsteps => ?_⟩
    obtain ⟨k, rfl⟩ : ∃ k, steps = k + 1 := ⟨steps - 1, by omega⟩
    rw [run_succ_of_going (ht.step_eq hstep)]
    exact hn k (by omega)

theorem Sole.parse_eq (ht : Sole s.table) (h : Yields s.table source tree) :
    ∃ n, ∀ steps, n ≤ steps → (parse s steps source).value = some (.ok tree) := by
  obtain ⟨c, c', hc, hsteps, hfin⟩ := h
  obtain ⟨n, hn⟩ := ht.run_eq hsteps hfin
  refine ⟨n, fun steps hle => ?_⟩
  rw [parse, hc]
  exact hn steps hle

theorem Sole.parse_iff (ht : Sole s.table) :
    (∃ steps, (parse s steps source).value = some (.ok tree)) ↔ Yields s.table source tree := by
  constructor
  · intro h
    obtain ⟨steps, h⟩ := h
    exact yields_of_parse h
  · intro h
    obtain ⟨n, hn⟩ := ht.parse_eq h
    exact ⟨n, hn n (Nat.le_refl n)⟩

end Parser

end TreeControl
