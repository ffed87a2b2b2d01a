import TreeControl.Proofs.Parser.LevelFilter
import TreeControl.Proofs.Parser.Resolution

/-! # How far the parser keeps to a derivation

Take a derivation whose levels are all accepted, and the actions that build it.  Each of them is
offered by the table, conflicts or not, and the level automaton refuses none.  Without a precedence
table a conflict is left to the levels alone (`ByLevels.prescribes`): they settle it for the only
reduction that fits, for the shift if no reduction fits, and not at all if several do.

So the parser either performs the next action of the derivation, or stands at a conflict in which
another reduction fits as well (`Takes.performs_or_departs`); then it performs that one or reports
the ambiguity.  A parse that never departs in this way returns the derivation
(`parse_follows_script`). -/

namespace TreeControl

theorem Cell.sole_of_not_conflict {c : Cell} (hc : c.isConflict = false) {pl : Placement}
    (hpl : Entry.Offers (some (.act c)) pl) :
    ∀ pl', Entry.Offers (some (.act c)) pl' ↔ pl' = pl := by
  rw [isConflict, Bool.or_eq_false_iff] at hc
  have permitted : Entry.Permitted .strict (.act c) := by
    refine ⟨⟨pl, hpl⟩, fun q n hq hn => ?_, fun n k hn hk => .inl ?_⟩
    · have hq : c.shift = some q := hq
      have hempty : c.reduces.isEmpty = false := OrdSet.isEmpty_eq_false_iff.2 ⟨n, hn⟩
      simp [isShiftReduce, hq, hempty] at hc
    · have hsize : c.reduces.toList.length ≤ 1 := by
        have := of_decide_eq_false hc.2
        rw [OrdSet.size] at this
        omega
      have hn : n ∈ c.reduces.toList := hn
      have hk : k ∈ c.reduces.toList := hk
      cases hlist : c.reduces.toList with
      | nil =>
        rw [hlist] at hn
        cases hn
      | cons x xs =>
        rw [hlist, List.length_cons] at hsize
        have hxs : xs = [] := List.eq_nil_of_length_eq_zero (by omega)
        rw [hlist, hxs, List.mem_singleton] at hn hk
        rw [hn, hk]
  obtain ⟨pl₀, hpl₀⟩ := permitted.sole rfl rfl
  intro pl'
  rw [hpl₀, (hpl₀ pl).1 hpl]

/-! ### Conflicts left to the levels -/

namespace DecisionPoint

variable {x : DecisionPoint} {c : Cell}

/-- Without precedence a conflict is settled for the only reduction that fits, for the shift if none
fits, and not at all if several do. -/
theorem choose_of_conflict (order : ResolutionOrder) (hprec : x.table.precedence = none)
    (hA : x.forest.automaton.isSome = true) (hc : c.isConflict = true) :
    (∀ n ps, (x.fitting c.reduces.toList).value = [(n, ps)] →
      (x.choose order c).outcome = .ok (.reduce n (some ps))) ∧
    (∀ q, (x.fitting c.reduces.toList).value = [] → c.shift = some q →
      (x.choose order c).outcome = .ok (.shift q)) ∧
    ∀ v₁ v₂ vs, (x.fitting c.reduces.toList).value = v₁ :: v₂ :: vs →
      (x.choose order c).outcome = .error (x.ambiguous ((v₁ :: v₂ :: vs).map Prod.fst)) := by
  have hsilent : x.SaysNothing := by
    rintro _ ⟨p, _, hp, -⟩
    rw [hprec] at hp
    cases hp
  have follow : ∀ {r}, x.ByLevels c c.shift r → (x.choose order c).outcome = r := fun h =>
    (h.prescribes hA hsilent order).choose_eq hc
  refine ⟨fun n ps hvalid => ?_, fun q hvalid hq => ?_, fun v₁ v₂ vs hvalid => ?_⟩
  · have hallowed : x.allowed c = [n] := by
      rw [← map_fst_fitting, hvalid]
      rfl
    exact follow (.one hallowed (mem_fitting (hvalid ▸ List.mem_singleton.2 rfl)))
  · have hallowed : x.allowed c = [] := by
      rw [← map_fst_fitting, hvalid]
      rfl
    exact follow (hq ▸ .shift hallowed)
  · have hallowed : x.allowed c = (v₁ :: v₂ :: vs).map Prod.fst := by
      rw [← map_fst_fitting, hvalid]
    rw [← hallowed]
    exact follow (.several (by simp [hallowed]))

end DecisionPoint

namespace Parser

variable {σ : Type} [TokenSource σ] {g : Grammar} {t : Table} {m : Means} {s : Setting}
  {c c' : Config σ} {source : σ} {u tree : Tree} {A D : Automaton} {a : Action}
  {acts : List Action} {cell : Cell} {d : Decision} {n k : Nat}

/-! ### What the parser performs -/

/-- The parser decides for an action and carries it out. -/
def Performs (s : Setting) (c : Config σ) (a : Action) (c' : Config σ) : Prop :=
  ∃ cell d, s.table.entry? c.state c.lookahead = some (.act cell) ∧
    ((c.decisionPoint s.table).choose s.order cell).outcome = .ok d ∧ d.action = a ∧
    (act s.table c d).outcome = .ok c'

/-- The parser performs actions one after the other. -/
inductive Follows (s : Setting) : Config σ → List Action → Config σ → Prop
  | nil (c : Config σ) : Follows s c [] c
  | cons {c c₁ c' : Config σ} {a : Action} {as : List Action} :
      Performs s c a c₁ → Follows s c₁ as c' → Follows s c (a :: as) c'

/-- The levels allow a reduction by a rule. -/
def Passes (t : Table) (c : Config σ) (n : Nat) : Prop :=
  ∃ r ps, t.grammar.rules[n]? = some r ∧ c.forest.preview r = .ok ps

/-- The parser does not perform an action: it stands at a conflict in which the levels allow a
reduction other than the action, and performs that one or reports the ambiguity. -/
def Departs (s : Setting) (c : Config σ) (a : Action) : Prop :=
  (∀ c', ¬ Performs s c a c') ∧
    ∃ cell n, s.table.entry? c.state c.lookahead = some (.act cell) ∧ cell.isConflict = true ∧
      n ∈ cell.reduces ∧ a ≠ .reduce n ∧ Passes s.table c n ∧
      ((∃ c', Performs s c (.reduce n) c') ∨ ∃ rules,
        (step s c).outcome = .error ((c.decisionPoint s.table).ambiguous rules))

theorem Performs.step_eq (h : Performs s c a c') : (step s c).outcome = .ok (.going c') := by
  obtain ⟨cell, d, he, hd, -, hact⟩ := h
  unfold step
  rw [Attempt.outcome_bind, Attempt.outcome_emit, bind_eq_ok_iff]
  refine ⟨(), rfl, ?_⟩
  rw [he]
  simp only [Attempt.outcome_bind, bind_eq_ok_iff]
  exact ⟨d, hd, c', hact, rfl⟩

theorem Performs.takes (h : Performs s c a c') : Takes s.table c a c' := by
  obtain ⟨cell, d, he, hd, rfl, hact⟩ := h
  exact takes_of_act he (DecisionPoint.choose_picks hd) hact

theorem run_of_follows (h : Follows s c acts c') :
    (run s (acts.length + k) c).value = (run s k c').value := by
  induction h with
  | nil c => rw [List.length_nil, Nat.zero_add]
  | @cons c c₁ c' a as hstep _ ih =>
    rw [List.length_cons, Nat.add_right_comm, run_succ_of_going hstep.step_eq]
    exact ih

theorem run_within_follows (h : Follows s c acts c') (hk : k ≤ acts.length) :
    (run s k c).value = none := by
  induction h generalizing k with
  | nil c =>
    rw [Nat.le_zero.1 hk]
    rfl
  | cons hstep _ ih =>
    cases k with
    | zero => rfl
    | succ k =>
      rw [run_succ_of_going hstep.step_eq]
      exact ih (Nat.le_of_succ_le_succ hk)

theorem act_of_takes (he : t.entry? c.state c.lookahead = some (.act cell))
    (h : Takes t c a c') (hd : (c.decisionPoint t).Picks cell.shift cell.reduces.toList d)
    (ha : d.action = a) : (act t c d).outcome = .ok c' := by
  cases h with
  | @shift q forest source token hoffer hforest hread =>
    cases d with
    | reduce n known => cases ha
    | shift q' =>
      rw [he] at hoffer
      cases Option.some.inj (Eq.trans (Eq.symm hd) hoffer)
      exact shift_outcome_iff.2 ⟨forest, token, source, hforest, hread, rfl⟩
  | @reduce n q r popped rest forest hoffer hr hframes hpop hrest hgoto hforest =>
    cases d with
    | shift q' => cases ha
    | reduce n' known =>
      cases ha
      refine reduce_outcome_iff.2
        ⟨r, popped, rest, q, forest, hr, hframes, hpop, hrest, hgoto, ?_, rfl⟩
      cases known with
      | none => exact hforest
      | some ps =>
        obtain ⟨r', hr', hps⟩ := hd.2 ps rfl
        cases hr.symm.trans hr'
        have hps : c.forest.preview r = .ok ps := hps
        rw [Forest.merge_known hps]
        exact hforest

theorem exists_act_of_preview (hc : Consistent t c) (hbuild : (Table.build g m).outcome = .ok t)
    (hg : g.WellFormed) (hoffer : Entry.Offers (t.entry? c.state c.lookahead) (.reduce n))
    (ps : List Position) : ∃ c', (act t c (.reduce n (some ps))).outcome = .ok c' := by
  obtain ⟨r, popped, rest, q, hr, hframes, hpop, hrest, hgoto, hle⟩ :=
    hc.exists_reduction hbuild hg hoffer
  exact ⟨_, reduce_outcome_iff.2 ⟨r, popped, rest, q, c.forest.reduced r ps, hr, hframes, hpop,
    fun _ => hrest, hgoto, Forest.merge_outcome_iff.2 ⟨ps, rfl, hle, rfl⟩, rfl⟩⟩

theorem Takes.passes (h : Takes t c (.reduce n) c') (hf : c.forest.automaton.isSome = true) :
    Passes t c n := by
  cases h with
  | @reduce _ _ r _ _ _ _ hr _ _ _ _ hforest =>
    obtain ⟨ps, hps, -, -⟩ := Forest.merge_outcome_iff.1 hforest
    rw [Forest.positionsFor, if_pos hf] at hps
    exact ⟨r, ps, hr, hps⟩

theorem Takes.exists_cell (h : Takes t c a c') :
    ∃ cell, t.entry? c.state c.lookahead = some (.act cell) ∧
      ((a = .shift ∧ ∃ q, cell.shift = some q) ∨ ∃ n ∈ cell.reduces, a = .reduce n) := by
  cases h with
  | shift hoffer _ _ =>
    obtain ⟨cell, he, hq⟩ := Entry.offers_shift_iff.1 hoffer
    exact ⟨cell, he, .inl ⟨rfl, _, hq⟩⟩
  | reduce hoffer _ _ _ _ _ _ =>
    obtain ⟨cell, he, hn⟩ := Entry.offers_reduce_iff.1 hoffer
    exact ⟨cell, he, .inr ⟨_, hn, rfl⟩⟩

/-! ### One step -/

theorem Performs.choose_eq (h : Performs s c a c')
    (he : s.table.entry? c.state c.lookahead = some (.act cell)) :
    ∃ d, ((c.decisionPoint s.table).choose s.order cell).outcome = .ok d ∧ d.action = a := by
  obtain ⟨cell', d, he', hd, ha, -⟩ := h
  cases he.symm.trans he'
  exact ⟨d, hd, ha⟩

/-- The parser performs a step that it decides for. -/
theorem Takes.performs (h : Takes s.table c a c')
    (he : s.table.entry? c.state c.lookahead = some (.act cell))
    (hd : ((c.decisionPoint s.table).choose s.order cell).outcome = .ok d) (ha : d.action = a) :
    Performs s c a c' :=
  ⟨cell, d, he, hd, ha, act_of_takes he h (DecisionPoint.choose_picks hd) ha⟩

theorem Takes.performs_of_not_conflict (h : Takes s.table c a c')
    (he : s.table.entry? c.state c.lookahead = some (.act cell)) (hcell : cell.isConflict = false) :
    Performs s c a c' := by
  obtain ⟨cell', he', ⟨rfl, q, hq⟩ | ⟨n, hn, rfl⟩⟩ := h.exists_cell
  · cases he.symm.trans he'
    have hoffer : Entry.Offers (some (.act cell)) (.shift q) := hq
    exact h.performs he (DecisionPoint.choose_shift (Cell.sole_of_not_conflict hcell hoffer)) rfl
  · cases he.symm.trans he'
    have hoffer : Entry.Offers (some (.act cell)) (.reduce n) := hn
    exact h.performs he (DecisionPoint.choose_reduce (Cell.sole_of_not_conflict hcell hoffer)) rfl

theorem passes_of_mem_fitting {ps : List Position}
    (h : (n, ps) ∈ ((c.decisionPoint t).fitting cell.reduces.toList).value) :
    n ∈ cell.reduces ∧ Passes t c n := by
  obtain ⟨hn, r, hr, hps⟩ := DecisionPoint.mem_fitting_iff.1 h
  exact ⟨hn, r, ps, hr, hps⟩

theorem Takes.performs_or_departs_of_one (h : Takes s.table c a c') (hc : Consistent s.table c)
    (hbuild : (Table.build g m).outcome = .ok s.table) (hg : g.WellFormed)
    (he : s.table.entry? c.state c.lookahead = some (.act cell)) (hcell : cell.isConflict = true)
    {ps : List Position}
    (hfits : (n, ps) ∈ ((c.decisionPoint s.table).fitting cell.reduces.toList).value)
    (hd : ((c.decisionPoint s.table).choose s.order cell).outcome = .ok (.reduce n (some ps))) :
    Performs s c a c' ∨ Departs s c a := by
  obtain ⟨hn, hpasses⟩ := passes_of_mem_fitting hfits
  by_cases ha : a = .reduce n
  · exact .inl (h.performs he hd ha.symm)
  · right
    refine ⟨fun c₁ h₁ => ?_, cell, n, he, hcell, hn, ha, hpasses, .inl ?_⟩
    · obtain ⟨d, hd', ha'⟩ := h₁.choose_eq he
      cases hd.symm.trans hd'
      exact ha ha'.symm
    · have hoffer : Entry.Offers (s.table.entry? c.state c.lookahead) (.reduce n) := by
        rw [he]
        exact hn
      obtain ⟨c₁, hact⟩ := exists_act_of_preview hc hbuild hg hoffer ps
      exact ⟨c₁, cell, _, he, hd, rfl, hact⟩

/-- A conflict in which several reductions fit is reported, and one of them is not the action. -/
theorem departs_of_several (a : Action)
    (he : s.table.entry? c.state c.lookahead = some (.act cell)) (hcell : cell.isConflict = true)
    {v₁ v₂ : Nat × List Position} {vs : List (Nat × List Position)}
    (hvalid : ((c.decisionPoint s.table).fitting cell.reduces.toList).value = v₁ :: v₂ :: vs)
    (hd : ((c.decisionPoint s.table).choose s.order cell).outcome =
      .error ((c.decisionPoint s.table).ambiguous ((v₁ :: v₂ :: vs).map Prod.fst))) :
    Departs s c a := by
  have hfirst : v₁.1 ∈ cell.reduces ∧ Passes s.table c v₁.1 :=
    passes_of_mem_fitting (hvalid ▸ List.mem_cons_self)
  have hsecond : v₂.1 ∈ cell.reduces ∧ Passes s.table c v₂.1 :=
    passes_of_mem_fitting (hvalid ▸ List.mem_cons_of_mem _ List.mem_cons_self)
  have hne : v₁.1 ≠ v₂.1 := by
    have hnodup := (OrdSet.nodup_toList cell.reduces).filter
      fun n => ((c.decisionPoint s.table).previewed? n).isSome
    rw [show cell.reduces.toList.filter _ = _ from DecisionPoint.map_fst_fitting.symm, hvalid]
      at hnodup
    intro e
    simp [e] at hnodup
  have hstep : (step s c).outcome = .error
      ((c.decisionPoint s.table).ambiguous ((v₁ :: v₂ :: vs).map Prod.fst)) := by
    unfold step
    rw [Attempt.outcome_bind, Attempt.outcome_emit, bind_eq_error_iff]
    refine .inr ⟨(), rfl, ?_⟩
    rw [he]
    dsimp only
    rw [Attempt.outcome_bind, hd]
    rfl
  refine ⟨fun c₁ h₁ => ?_, ?_⟩
  · obtain ⟨d, hd', -⟩ := h₁.choose_eq he
    cases hd.symm.trans hd'
  · by_cases ha : a = .reduce v₁.1
    · refine ⟨cell, v₂.1, he, hcell, hsecond.1, fun e => ?_, hsecond.2, .inr ⟨_, hstep⟩⟩
      exact hne (Action.reduce.inj (ha.symm.trans e))
    · exact ⟨cell, v₁.1, he, hcell, hfirst.1, ha, hfirst.2, .inr ⟨_, hstep⟩⟩

/-- Without precedence the parser performs a step that the table offers and the levels allow, or
departs from it. -/
theorem Takes.performs_or_departs (h : Takes s.table c a c') (hc : Consistent s.table c)
    (hbuild : (Table.build g m).outcome = .ok s.table) (hg : g.WellFormed)
    (hprec : s.table.precedence = none) (hA : s.table.automaton.isSome = true) :
    Performs s c a c' ∨ Departs s c a := by
  obtain ⟨cell, he, hcand⟩ := h.exists_cell
  cases hcell : cell.isConflict with
  | false => exact .inl (h.performs_of_not_conflict he hcell)
  | true =>
    have hf : (c.decisionPoint s.table).forest.automaton.isSome = true := hc.automaton ▸ hA
    obtain ⟨one, nothing, several⟩ :=
      DecisionPoint.choose_of_conflict s.order (x := c.decisionPoint s.table) hprec hf hcell
    cases hvalid : ((c.decisionPoint s.table).fitting cell.reduces.toList).value with
    | nil =>
      rcases hcand with ⟨rfl, q, hq⟩ | ⟨n, hn, rfl⟩
      · exact .inl (h.performs he (nothing q hvalid hq) rfl)
      · -- The reduction itself would fit.
        obtain ⟨r, ps, hr, hps⟩ := h.passes hf
        have hfits : (n, ps) ∈ ((c.decisionPoint s.table).fitting cell.reduces.toList).value :=
          DecisionPoint.mem_fitting_iff.2 ⟨hn, r, hr, hps⟩
        rw [hvalid] at hfits
        cases hfits
    | cons v₁ vs =>
      cases vs with
      | nil =>
        exact h.performs_or_departs_of_one hc hbuild hg he hcell (hvalid ▸ List.mem_cons_self)
          (one v₁.1 v₁.2 hvalid)
      | cons v₂ vs => exact .inr (departs_of_several a he hcell hvalid (several v₁ v₂ vs hvalid))

/-! ### Whole parses -/

/-- Under a level automaton that accepts all levels of a derivation, its actions lead to a
configuration that finishes with it. -/
theorem exists_runs_checked (hbuild : (Table.build g m).outcome = .ok t) (hg : g.WellFormed)
    (hD : t.automaton = some D) (hprep : D.Prepared) (hu : Script g u acts)
    (hstart : g.start = some u.symbol)
    (hlevels : ∀ level ∈ u.levels, D.accepts level = .ok true)
    (hsource : TokenSource.Supplies source (g.yield u)) :
    ∃ c₀ c tree, begin t source = .ok c₀ ∧ Runs t c₀ acts c ∧ c.Finishes t tree ∧
      tree.shape = u.shape := by
  obtain ⟨token, source', c, tree, hread, hruns, -, haccept, htrees, hshape⟩ :=
    exists_runs hbuild hg hu hstart hsource
  have hbegin : begin t source = .ok ⟨bottom, { automaton := some D }, source', token⟩ :=
    begin_eq_ok_iff.2 ⟨token, source', hread, by rw [hD]⟩
  have hstack : c.forest.stack.map Subtree.tree = [tree] :=
    Forest.finish_eq_ok_iff.1 (Forest.finish_iff_trees.2 htrees)
  have haccepted : ∀ level ∈ tree.levels, D.accepts level = .ok true := by
    rw [← Tree.levels_shape, hshape, Tree.levels_shape]
    exact hlevels
  -- Accepted levels can be read, and so can those of every forest on the way.
  have hreadable : Forest.Readable D (c.forest.stack.map Subtree.tree) := by
    rw [hstack]
    exact Forest.readable_of_accepted hprep haccepted
  obtain ⟨d, hruns', hlock⟩ := (Lockstep.of_runs_plain hprep ⟨rfl, rfl⟩ hruns hreadable).2
    ⟨bottom, { automaton := some D }, source', token⟩ ⟨rfl, rfl, rfl, Forest.shadows_empty D⟩
  refine ⟨_, d, tree, hbegin, hruns', ⟨?_, ?_, ?_⟩, hshape⟩
  · rw [hlock.state_eq, hlock.lookahead]
    exact haccept
  · exact (hlock.forest.finalCheck_iff hprep hstack).2 haccepted
  · rw [Forest.finish_eq_ok_iff, ← hlock.forest.trees]
    exact hstack

/-- Along steps that the table offers and the levels allow, the parser performs them all or departs
from one. -/
theorem Runs.follows_or_departs (hg : g.WellFormed)
    (hA : ∀ A, m.automaton = some A → A.Built)
    (hbuild : (Table.build g m).outcome = .ok s.table) (hprec : s.table.precedence = none)
    (hD : s.table.automaton.isSome = true) (h : Runs s.table c acts c')
    (hc : Reached s source c) :
    Follows s c acts c' ∨ ∃ done a rest c₁, acts = done ++ a :: rest ∧ Follows s c done c₁ ∧
      Departs s c₁ a := by
  induction h with
  | nil c => exact .inl (.nil c)
  | @cons c c₁ c' a as hstep _ ih =>
    rcases hstep.performs_or_departs (hc.consistent hg hA hbuild) hbuild hg hprec hD with hp | hd
    · rcases ih (.step hc hp.step_eq) with hf | ⟨done, b, rest, c₂, rfl, hf, hd⟩
      · exact .inl (.cons hp hf)
      · exact .inr ⟨a :: done, b, rest, c₂, rfl, .cons hp hf, hd⟩
    · exact .inr ⟨[], a, as, c, rfl, .nil c, hd⟩

/-- Let a table be built under a level automaton and without precedence, whatever conflicts it keeps,
and let the actions build a derivation under the start symbol whose levels are all accepted.  Then a
parse of its sentence, in either order of the resolvers, performs all the actions and returns the
derivation; or it performs some of them, without an error, and departs from the next. -/
theorem parse_follows_script (order : ResolutionOrder) (hg : g.Built) (hA : A.Built)
    (hm : m.automaton = some A) (hprec : m.precedence = none)
    (hbuild : (Table.build g m).outcome = .ok t) (hu : Script g u acts)
    (hstart : g.start = some u.symbol) (hlevels : ∀ level ∈ u.levels, A.Accepts level)
    (hsource : TokenSource.Supplies source (g.yield u)) :
    (∃ tree, tree.shape = u.shape ∧ ∀ steps, acts.length < steps →
      (parse ⟨t, order⟩ steps source).value = some (.ok tree)) ∨
    ∃ c₀ c done a rest, acts = done ++ a :: rest ∧ begin t source = .ok c₀ ∧
      Follows ⟨t, order⟩ c₀ done c ∧ Departs ⟨t, order⟩ c a ∧
      ∀ steps, steps ≤ done.length → (parse ⟨t, order⟩ steps source).value = none := by
  obtain ⟨-, hprepare, -, -, hprec', -⟩ := Table.build_outcome_iff.1 hbuild
  obtain ⟨D, hAD, hD⟩ := (Table.prepareLevels_outcome_iff hm).1 hprepare
  obtain ⟨hprep, hlang⟩ := Automaton.prepare_spec hA.wellFormed hAD
  have hlevels' : ∀ level ∈ u.levels, D.accepts level = .ok true := by
    intro level hlevel
    rw [hprep.accepts_iff, hlang]
    exact hlevels level hlevel
  have built : ∀ B, m.automaton = some B → B.Built := by
    intro B hB
    cases hm.symm.trans hB
    exact hA
  obtain ⟨c₀, c, tree, hbegin, hruns, hfin, hshape⟩ :=
    exists_runs_checked hbuild hg.wellFormed hD hprep hu hstart hlevels' hsource
  have hparse : ∀ steps, parse ⟨t, order⟩ steps source = run ⟨t, order⟩ steps c₀ := by
    intro steps
    rw [parse, hbegin]
  have hsome : t.automaton.isSome = true := by
    rw [hD]
    rfl
  have halong := hruns.follows_or_departs (s := ⟨t, order⟩) hg.wellFormed built hbuild
    (hprec'.trans hprec) hsome (.begin hbegin)
  rcases halong with hf | ⟨done, a, rest, c₁, rfl, hf, hd⟩
  · left
    refine ⟨tree, hshape, fun steps hsteps => ?_⟩
    obtain ⟨k, rfl⟩ : ∃ k, steps = acts.length + (k + 1) := ⟨steps - acts.length - 1, by omega⟩
    rw [hparse, run_of_follows hf]
    exact run_succ_of_finished hfin.step_eq
  · right
    refine ⟨c₀, c₁, done, a, rest, rfl, hbegin, hf, hd, fun steps hsteps => ?_⟩
    rw [hparse]
    exact run_within_follows hf hsteps

/-- The parser departs from the reading `x x` of the grammar with conflicts: `A x` fits as well. -/
theorem parse_follows_script_choice :
    ∃ g A t, Demo.choice = .ok g ∧ Demo.choiceLevels = .ok A ∧
      (Table.build g { automaton := some A }).outcome = .ok t ∧
      ∃ u : Tree, u = .node 2 ⟨"S"⟩ [.node 0 ⟨"x"⟩ [], .node 1 ⟨"x"⟩ []] ∧
        Script g u [.shift, .shift, .reduce 3] ∧ g.start = some u.symbol ∧
        (∀ level ∈ u.levels, A.Accepts level) ∧
        TokenSource.Supplies (ListedTokens.mk [⟨"x"⟩, ⟨"x"⟩] 0) (g.yield u) ∧
        ∃ c₀ c done a rest, [.shift, .shift, .reduce 3] = done ++ a :: rest ∧
          begin t (ListedTokens.mk [⟨"x"⟩, ⟨"x"⟩] 0) = .ok c₀ ∧
          Follows ⟨t, .levelsFirst⟩ c₀ done c ∧ Departs ⟨t, .levelsFirst⟩ c a := by
  have hg := Demo.choice_eq
  have hA := Demo.choiceLevels_eq
  have hD : (Demo.choiceLevels.toOption.getD {}).prepare.outcome =
      .ok ((Demo.choiceLevels.toOption.getD {}).prepare.outcome.toOption.getD {}) := by
    decide +kernel
  have hu : Script (Demo.choice.toOption.getD {})
      (.node 2 ⟨"S"⟩ [.node 0 ⟨"x"⟩ [], .node 1 ⟨"x"⟩ []]) [.shift, .shift, .reduce 3] := by
    have hx : (⟨"x"⟩ : Symbol) ∈ (Demo.choice.toOption.getD {}).terminals := by decide +kernel
    have hr : (Demo.choice.toOption.getD {}).rules[2]? =
        some ⟨⟨"S"⟩, [⟨"x"⟩, ⟨"x"⟩]⟩ := by decide +kernel
    exact Script.node hr (.cons (.leaf hx) (.cons (.leaf hx) .nil))
  have hstart : (Demo.choice.toOption.getD {}).start = some ⟨"S"⟩ := by decide +kernel
  have hyield : (Demo.choice.toOption.getD {}).yield
      (.node 2 ⟨"S"⟩ [.node 0 ⟨"x"⟩ [], .node 1 ⟨"x"⟩ []]) = [⟨"x"⟩, ⟨"x"⟩] := by decide +kernel
  have hlevels : ∀ level ∈ Tree.levels (.node 2 ⟨"S"⟩ [.node 0 ⟨"x"⟩ [], .node 1 ⟨"x"⟩ []]),
      (Demo.choiceLevels.toOption.getD {}).Accepts level := by
    obtain ⟨hprep, hlang⟩ :=
      Automaton.prepare_spec (Demo.built_choiceLevels hA).wellFormed hD
    have haccepts : ∀ level ∈ Tree.levels (.node 2 ⟨"S"⟩ [.node 0 ⟨"x"⟩ [], .node 1 ⟨"x"⟩ []]),
        ((Demo.choiceLevels.toOption.getD {}).prepare.outcome.toOption.getD {}).accepts level =
          .ok true := by decide +kernel
    intro level hlevel
    rw [← hlang, ← hprep.accepts_iff]
    exact haccepts level hlevel
  have hsource : TokenSource.Supplies (ListedTokens.mk [⟨"x"⟩, ⟨"x"⟩] 0)
      ((Demo.choice.toOption.getD {}).yield
        (.node 2 ⟨"S"⟩ [.node 0 ⟨"x"⟩ [], .node 1 ⟨"x"⟩ []])) := by
    rw [hyield]
    exact ⟨rfl, by decide, rfl, by decide, rfl⟩
  have hrun : ((Table.build (Demo.choice.toOption.getD {})
      { automaton := some (Demo.choiceLevels.toOption.getD {}) }).outcome.toOption.bind
        fun t => (parse ⟨t, .levelsFirst⟩ 6 (ListedTokens.mk [⟨"x"⟩, ⟨"x"⟩] 0)).value.bind
          fun x => x.toOption.map Tree.levels) = some [[⟨"S"⟩], [⟨"A"⟩, ⟨"x"⟩], [⟨"x"⟩]] := by
    decide +kernel
  obtain ⟨t, ht, hrun⟩ := Option.bind_eq_some_iff.1 hrun
  have hbuild := toOption_eq_some_iff.1 ht
  refine ⟨_, _, t, hg, hA, hbuild, _, rfl, hu, hstart, hlevels, hsource, ?_⟩
  rcases parse_follows_script .levelsFirst (Demo.built_choice hg) (Demo.built_choiceLevels hA) rfl
    rfl hbuild hu hstart hlevels hsource with ⟨tree, hshape, hparse⟩ | hdeparts
  · -- The tree that is returned has other levels.
    rw [hparse 6 (by decide)] at hrun
    have htree := congrArg Tree.levels hshape
    rw [Tree.levels_shape, Tree.levels_shape] at htree
    have hrun : some tree.levels = some [[⟨"S"⟩], [⟨"A"⟩, ⟨"x"⟩], [⟨"x"⟩]] := hrun
    rw [htree] at hrun
    exact absurd hrun (by decide)
  · obtain ⟨c₀, c, done, a, rest, hacts, hbegin, hf, hd, -⟩ := hdeparts
    exact ⟨c₀, c, done, a, rest, hacts, hbegin, hf, hd⟩

end Parser

end TreeControl
