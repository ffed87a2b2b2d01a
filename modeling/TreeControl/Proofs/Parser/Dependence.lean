import TreeControl.Proofs.Parser.Refusal

/-! # What a parse depends on

Two parses with the same table are compared step by step.  Their sources hand out the same tokens up
to the first blank one, wherever these stand, and their configurations have the same stack, forest
and lookahead (`Twin`).  Attempts agree if they report the same and end with related values or with
the same error up to its location (`Agree`), and a sequence of attempts agrees if every one of them
does (`Agree.bind`).

Twins decide alike (`Twin.agree_choose`), also in different orders of the resolvers if one of these
has no means (`choose_order_eq`).  With one step preserved, whole runs agree: `parse_depends`. -/

namespace TreeControl

/-- The error without the place where it occurred. -/
def ParseError.unlocated : ParseError → ParseError
  | symbolNotInGrammar s _ => symbolNotInGrammar s {}
  | noRuleForToken s q _ => noRuleForToken s q {}
  | stackMismatch r s found => stackMismatch r s found
  | missingGoto q s => missingGoto q s
  | unhandledConflict q s _ => unhandledConflict q s {}
  | noTreeConsistentRule q s _ => noTreeConsistentRule q s {}
  | ambiguousReduceReduce q s rules _ => ambiguousReduceReduce q s rules {}
  | precedence e _ => precedence e {}
  | tree e _ => tree e {}

/-! ### Sources -/

namespace TokenSource

variable {σ τ : Type} [TokenSource σ] [TokenSource τ] {source : σ} {source' : τ} {n : Nat}

/-- Two sources hand out the same tokens up to and including the first blank one. -/
def SameTokens (source : σ) (source' : τ) : Prop :=
  ∀ n, (∀ k < n, tokenAt source k ≠ .blank) → tokenAt source n = tokenAt source' n

theorem SameTokens.symm (h : SameTokens source source') : SameTokens source' source := by
  intro n
  induction n using Nat.strong_induction_on with
  | _ n ih =>
    intro hn
    refine (h n fun k hk => ?_).symm
    rw [← ih k hk fun j hj => hn j (hj.trans hk)]
    exact hn k hk

theorem SameTokens.next_eq (h : SameTokens source source') :
    (next source).1 = (next source').1 :=
  h 0 (by simp)

theorem SameTokens.tail (h : SameTokens source source') (hne : (next source).1 ≠ .blank) :
    SameTokens (next source).2 (next source').2 := by
  intro n hn
  refine h (n + 1) fun k hk => ?_
  cases k with
  | zero => exact hne
  | succ k => exact hn k (by omega)

end TokenSource

/-! ### Attempts that agree -/

section

variable {α α' β β' ε : Type} {R : α → α' → Prop} {Q : β → β' → Prop}

/-- Related values, or the same error up to its location. -/
inductive Alike (R : α → α' → Prop) : Except ParseError α → Except ParseError α' → Prop
  | ok {a : α} {b : α'} : R a b → Alike R (.ok a) (.ok b)
  | error {e e' : ParseError} : e.unlocated = e'.unlocated → Alike R (.error e) (.error e')

theorem Alike.exists_ok {x : Except ParseError α} {y : Except ParseError α'} {a : α}
    (h : Alike R x y) (hx : x = .ok a) : ∃ b, y = .ok b ∧ R a b := by
  cases h with
  | ok h =>
    cases hx
    exact ⟨_, rfl, h⟩
  | error h => cases hx

theorem Alike.refl (x : Except ParseError α) : Alike Eq x x := by
  cases x with
  | error e => exact .error rfl
  | ok a => exact .ok rfl

theorem alike_mapError (x : Except ε α) {f f' : ε → ParseError}
    (h : ∀ e, (f e).unlocated = (f' e).unlocated) :
    Alike Eq (x.mapError f) (x.mapError f') := by
  cases x with
  | error e => exact .error (h e)
  | ok a => exact .ok rfl

namespace Attempt

/-- Attempts that report the same and end alike. -/
structure Agree (R : α → α' → Prop) (x : Attempt ParseError α) (y : Attempt ParseError α') :
    Prop where
  events : x.events = y.events
  outcome : Alike R x.outcome y.outcome

variable {x : Attempt ParseError α} {y : Attempt ParseError α'} {f : α → Attempt ParseError β}
  {f' : α' → Attempt ParseError β'}

theorem agree_pure {a : α} {b : α'} (h : R a b) :
    Agree R (pure a : Attempt ParseError α) (pure b) :=
  ⟨rfl, .ok h⟩

theorem agree_throw {e e' : ParseError} (h : e.unlocated = e'.unlocated) :
    Agree R (throw e : Attempt ParseError α) (throw e' : Attempt ParseError α') :=
  ⟨rfl, .error h⟩

theorem agree_ofExcept {x : Except ParseError α} {y : Except ParseError α'} (h : Alike R x y) :
    Agree R (ofExcept x) (ofExcept y) :=
  ⟨rfl, h⟩

theorem agree_lift (x : Traced α) :
    Agree Eq (ExceptT.lift x : Attempt ParseError α) (ExceptT.lift x) :=
  ⟨rfl, .ok rfl⟩

theorem agree_adapt (x : Attempt ε α) {f f' : ε → ParseError}
    (h : ∀ e, (f e).unlocated = (f' e).unlocated) :
    Agree Eq (ExceptT.adapt f x : Attempt ParseError α) (ExceptT.adapt f' x) := by
  refine ⟨rfl, ?_⟩
  rw [outcome_adapt, outcome_adapt]
  exact alike_mapError x.outcome h

theorem Agree.bind (h : Agree R x y)
    (hf : ∀ a b, x.outcome = .ok a → R a b → Agree Q (f a) (f' b)) :
    Agree Q (x >>= f) (y >>= f') := by
  obtain ⟨hevents, houtcome⟩ := h
  cases hx : x.outcome with
  | error e =>
    cases hy : y.outcome with
    | ok b =>
      rw [hx, hy] at houtcome
      cases houtcome
    | error e' =>
      rw [hx, hy] at houtcome
      cases houtcome with
      | error he =>
        refine ⟨?_, ?_⟩
        · rw [events_bind_of_error hx, events_bind_of_error hy, hevents]
        · rw [outcome_bind, outcome_bind, hx, hy]
          exact .error he
  | ok a =>
    obtain ⟨b, hy, hab⟩ := houtcome.exists_ok hx
    obtain ⟨hevents', houtcome'⟩ := hf a b hx hab
    refine ⟨?_, ?_⟩
    · rw [events_bind_of_ok hx, events_bind_of_ok hy, hevents, hevents']
    · rw [outcome_bind, outcome_bind, hx, hy]
      exact houtcome'

theorem Agree.emit (e : Event) {x : Attempt ParseError α} {y : Attempt ParseError α'}
    (h : Agree R x y) :
    Agree R (Attempt.emit e >>= fun _ => x) (Attempt.emit e >>= fun _ => y) :=
  (agree_lift (Traced.emit e)).bind fun _ _ _ _ => h

end Attempt

end

/-! ### Decisions -/

namespace DecisionPoint

open Attempt

variable {x : DecisionPoint} {shift : Option Nat} {reduces : List Nat}
  {due due' : Option ParseError} {resolver : Resolver}

/-- The same decision at another place. -/
def relocate (x : DecisionPoint) (l : Location) : DecisionPoint := { x with location := l }

/-- The same decision, or the same candidates with the same error due, up to its location. -/
inductive Resolution.Alike : Resolution → Resolution → Prop
  | settled (d : Decision) : Alike (.settled d) (.settled d)
  | undecided {shift : Option Nat} {reduces : List Nat} {due due' : Option ParseError} :
      due.map ParseError.unlocated = due'.map ParseError.unlocated →
      Alike (.undecided shift reduces due) (.undecided shift reduces due')

section

variable (x) (l : Location)

theorem fitting_relocate (rules : List Nat) : (x.relocate l).fitting rules = x.fitting rules := rfl

theorem agree_precedenceVerdict :
    Agree Eq x.precedenceVerdict (x.relocate l).precedenceVerdict := by
  obtain ⟨table, frames, forest, lookahead, location⟩ := x
  unfold precedenceVerdict relocate
  dsimp only
  cases table.precedence with
  | none => exact agree_pure rfl
  | some p =>
    dsimp only
    by_cases hl : p.binds lookahead = true
    · rw [if_pos hl, if_pos hl]
      unfold nearest?
      cases (frames.map Frame.symbol).find? p.binds with
      | none => exact agree_pure rfl
      | some s =>
        refine Agree.bind (agree_ofExcept (alike_mapError _ fun e => rfl)) fun v _ _ hv => ?_
        cases hv
        exact .emit _ (agree_pure rfl)
    · rw [if_neg hl, if_neg hl]
      exact agree_pure rfl

variable {l} (hdue : due.map ParseError.unlocated = due'.map ParseError.unlocated)
include hdue

theorem agree_askPrecedence :
    Agree Resolution.Alike (x.askPrecedence shift reduces due)
      ((x.relocate l).askPrecedence shift reduces due') := by
  unfold askPrecedence
  split
  · refine (x.agree_precedenceVerdict l).bind fun v _ _ hv => ?_
    cases hv
    split
    · exact agree_pure (.undecided hdue)
    · exact agree_pure (.settled _)
    · split
      · exact agree_pure (.settled _)
      · exact agree_pure (.undecided hdue)
  · exact agree_pure (.undecided hdue)

theorem agree_askLevels :
    Agree Resolution.Alike (x.askLevels shift reduces due)
      ((x.relocate l).askLevels shift reduces due') := by
  unfold askLevels
  rw [fitting_relocate]
  have hforest : (x.relocate l).forest = x.forest := rfl
  by_cases hnone : x.forest.automaton.isNone = true
  · rw [if_pos hnone, if_pos (hforest ▸ hnone)]
    exact agree_pure (.undecided hdue)
  · rw [if_neg hnone, if_neg (hforest ▸ hnone)]
    refine Agree.bind (agree_lift _) fun valid _ _ hvalid => ?_
    cases hvalid
    split
    · exact agree_pure (.settled _)
    · exact agree_pure (.settled _)
    · exact agree_throw rfl
    · exact agree_pure (.undecided rfl)
    · exact agree_throw rfl

theorem agree_ask :
    Agree Resolution.Alike (x.ask resolver shift reduces due)
      ((x.relocate l).ask resolver shift reduces due') := by
  cases resolver with
  | precedence => exact x.agree_askPrecedence hdue
  | levels => exact x.agree_askLevels hdue

/-- Resolvers settle a conflict in the same way at another place. -/
theorem agree_settle (resolvers : List Resolver) :
    Agree Eq (x.settle resolvers shift reduces due)
      ((x.relocate l).settle resolvers shift reduces due') := by
  induction resolvers generalizing shift reduces due due' with
  | nil =>
    cases due with
    | some e =>
      obtain ⟨e', rfl, he⟩ := Option.map_eq_some_iff.1 hdue.symm
      exact agree_throw he.symm
    | none =>
      obtain rfl := Option.map_eq_none_iff.1 hdue.symm
      unfold settle
      split
      · cases ‹none = some _›
      · exact agree_pure rfl
      · exact agree_throw rfl
  | cons resolver rest ih =>
    refine (x.agree_ask hdue).bind fun res res' _ hres => ?_
    cases hres with
    | settled d => exact agree_pure rfl
    | undecided hdue => exact ih hdue

end

theorem agree_choose (x : DecisionPoint) (l : Location) (order : ResolutionOrder) (c : Cell) :
    Agree Eq (x.choose order c) ((x.relocate l).choose order c) := by
  unfold choose
  split
  · exact x.agree_settle rfl _
  · split
    · exact agree_pure rfl
    · exact agree_pure rfl
    · exact agree_throw rfl

end DecisionPoint

/-! ### Steps -/

namespace Parser

open Attempt

variable {σ τ : Type} [TokenSource σ] [TokenSource τ] {g : Grammar} {t : Table} {m : Means}
  {c c' : Config σ} {d : Config τ} {source : σ} {source' : τ} {order order' : ResolutionOrder}
  {acts : List Action} {a : Action} {steps : Nat}

/-- Configurations over the same stack, forest and lookahead; unless the end of the input has been
read, their sources go on with the same tokens. -/
structure Twin (t : Table) (c : Config σ) (d : Config τ) : Prop extends Mirrors c d where
  automaton : c.forest.automaton = t.automaton
  source : c.lookahead ≠ .blank → TokenSource.SameTokens c.source d.source

/-- What is read from sources of the same tokens. -/
def SameRead (x : Symbol × σ) (y : Symbol × τ) : Prop :=
  x.1 = y.1 ∧ (x.1 ≠ .blank → TokenSource.SameTokens x.2 y.2)

theorem alike_readToken (h : TokenSource.SameTokens source source') :
    Alike SameRead (readToken t source) (readToken t source') := by
  have hnext := h.next_eq
  have htail := h.tail
  unfold readToken
  generalize TokenSource.next source = x at hnext htail ⊢
  generalize TokenSource.next source' = y at hnext htail ⊢
  obtain ⟨token, rest⟩ := x
  obtain ⟨token', rest'⟩ := y
  obtain rfl : token = token' := hnext
  dsimp only
  split
  · exact .ok ⟨rfl, htail⟩
  · exact .error rfl

theorem alike_begin (h : TokenSource.SameTokens source source') :
    Alike (Twin t) (begin t source) (begin t source') := by
  have hread : Alike SameRead (readToken t source) (readToken t source') := alike_readToken h
  unfold begin
  generalize readToken t source = x at hread ⊢
  generalize readToken t source' = y at hread ⊢
  cases hread with
  | ok hread => exact .ok ⟨⟨rfl, rfl, hread.1.symm⟩, rfl, hread.2⟩
  | error he => exact .error he

/-- Shifts of a token that is not blank agree. -/
theorem Twin.agree_shift (h : Twin t c d) (hne : c.lookahead ≠ .blank) (q : Nat) :
    Agree (Twin t) (shift t c q) (shift t d q) := by
  unfold shift
  rw [h.lookahead, h.forest, h.frames]
  refine .emit _ ?_
  refine Agree.bind (agree_ofExcept (alike_mapError _ fun e => rfl)) fun forest _ hforest e => ?_
  cases e
  refine (agree_ofExcept (alike_readToken (h.source hne))).bind fun x y _ hread => ?_
  have hautomaton : forest.automaton = c.forest.automaton := by
    rw [outcome_ofExcept, mapError_eq_ok_iff, Forest.pushLeaf_eq_merge] at hforest
    exact Forest.automaton_of_merge hforest
  exact agree_pure ⟨⟨rfl, rfl, hread.1.symm⟩, hautomaton.trans h.automaton, hread.2⟩

theorem Twin.agree_reduce (h : Twin t c d) (n : Nat) (known : Option (List Position)) :
    Agree (Twin t) (reduce t c n known) (reduce t d n known) := by
  unfold reduce
  rw [h.frames, h.forest]
  split
  · exact agree_throw rfl
  · refine Agree.bind (agree_ofExcept (.refl _)) fun rest _ _ e => ?_
    cases e
    dsimp only
    split
    · exact agree_throw rfl
    · refine .emit _ ?_
      refine Agree.bind (agree_adapt _ fun e => rfl) fun forest _ hforest e => ?_
      cases e
      rw [outcome_adapt, mapError_eq_ok_iff] at hforest
      have hautomaton := (Forest.automaton_of_merge hforest).trans h.automaton
      exact agree_pure ⟨⟨rfl, rfl, h.lookahead⟩, hautomaton, h.source⟩

theorem Twin.agree_accept (h : Twin t c d) : Agree Eq (accept c) (accept d) := by
  unfold accept
  rw [h.forest]
  refine .emit _ ?_
  refine Agree.bind (agree_ofExcept (alike_mapError _ fun e => rfl)) fun _ _ _ _ => ?_
  exact agree_ofExcept (alike_mapError _ fun e => rfl)

/-- Twins decide alike, in either order of the resolvers if one of them has no means. -/
theorem Twin.agree_choose (h : Twin t c d)
    (horder : order = order' ∨ t.precedence = none ∨ t.automaton = none) (cell : Cell) :
    Agree Eq ((c.decisionPoint t).choose order cell) ((d.decisionPoint t).choose order' cell) := by
  have hpoint : d.decisionPoint t = (c.decisionPoint t).relocate d.location := by
    unfold Config.decisionPoint DecisionPoint.relocate
    rw [h.frames, h.forest, h.lookahead]
  have horder' : order = order' ∨ (c.decisionPoint t).table.precedence = none ∨
      (c.decisionPoint t).forest.automaton = none := by
    rw [show (c.decisionPoint t).forest.automaton = t.automaton from h.automaton]
    exact horder
  rw [hpoint, DecisionPoint.choose_order_eq horder']
  exact DecisionPoint.agree_choose _ _ order' cell

/-- A decision of twins is carried out alike: what is shifted is a terminal and not the end. -/
theorem Twin.agree_act (h : Twin t c d) (hg : g.WellFormed)
    (hbuild : (Table.build g m).outcome = .ok t) {cell : Cell} {decision : Decision}
    (he : t.entry? c.state c.lookahead = some (.act cell))
    (hd : ((c.decisionPoint t).choose order cell).outcome = .ok decision) :
    Agree (Twin t) (act t c decision) (act t d decision) := by
  cases decision with
  | reduce n known => exact h.agree_reduce n known
  | shift q =>
    have hoffer : Entry.Offers (t.entry? c.state c.lookahead) (.shift q) := by
      rw [he]
      exact DecisionPoint.choose_picks hd
    obtain ⟨-, hterm⟩ := moves_of_shift hbuild hg hoffer
    exact h.agree_shift (fun e => hg.named.1 (e ▸ hterm)) q

/-- Steps that go on to twins or finish with the same tree. -/
inductive Progress.Twin (t : Table) : Progress σ → Progress τ → Prop
  | going {c : Config σ} {d : Config τ} : Parser.Twin t c d → Twin t (.going c) (.going d)
  | finished (tree : Tree) : Twin t (.finished tree) (.finished tree)

theorem Twin.agree_step (h : Twin t c d) (hg : g.WellFormed)
    (hbuild : (Table.build g m).outcome = .ok t)
    (horder : order = order' ∨ t.precedence = none ∨ t.automaton = none) :
    Agree (Progress.Twin t) (step ⟨t, order⟩ c) (step ⟨t, order'⟩ d) := by
  unfold step
  rw [h.state_eq, h.lookahead]
  refine .emit _ ?_
  dsimp only
  split
  · refine h.agree_accept.bind fun tree _ _ e => ?_
    cases e
    exact agree_pure (.finished tree)
  · rename_i cell he
    refine (h.agree_choose horder cell).bind fun decision _ hd e => ?_
    cases e
    refine (h.agree_act hg hbuild he hd).bind fun c' d' _ h' => ?_
    exact agree_pure (.going h')
  · exact agree_throw rfl

/-! ### Runs -/

/-- Twins run alike, however many steps there are. -/
theorem Twin.run_eq (h : Twin t c d) (hg : g.WellFormed)
    (hbuild : (Table.build g m).outcome = .ok t)
    (horder : order = order' ∨ t.precedence = none ∨ t.automaton = none) (steps : Nat) :
    (run ⟨t, order⟩ steps c).events = (run ⟨t, order'⟩ steps d).events ∧
      (run ⟨t, order⟩ steps c).value.map (Except.mapError ParseError.unlocated) =
        (run ⟨t, order'⟩ steps d).value.map (Except.mapError ParseError.unlocated) := by
  induction steps generalizing c d with
  | zero => exact ⟨rfl, rfl⟩
  | succ steps ih =>
    obtain ⟨hevents, houtcome⟩ := h.agree_step hg hbuild horder
    rw [run, run, Traced.events_bind, Traced.events_bind, Traced.value_bind, Traced.value_bind]
    rw [show (step ⟨t, order⟩ c).run.events = _ from hevents]
    unfold outcome at houtcome
    generalize (step ⟨t, order⟩ c).run.value = x at houtcome ⊢
    generalize (step ⟨t, order'⟩ d).run.value = y at houtcome ⊢
    cases houtcome with
    | error he => exact ⟨rfl, congrArg (some ∘ Except.error) he⟩
    | ok hprogress =>
      cases hprogress with
      | finished tree => exact ⟨rfl, rfl⟩
      | going h' =>
        obtain ⟨hrest, hvalue⟩ := ih h'
        exact ⟨congrArg _ hrest, hvalue⟩

/-- The parser can perform actions on the tokens of a source. -/
def CanPerform (s : Setting) (source : σ) (acts : List Action) : Prop :=
  ∃ c c', begin s.table source = .ok c ∧ Follows s c acts c'

theorem Twin.exists_performs (h : Twin t c d) (hg : g.WellFormed)
    (hbuild : (Table.build g m).outcome = .ok t)
    (horder : order = order' ∨ t.precedence = none ∨ t.automaton = none)
    (hperforms : Performs ⟨t, order⟩ c a c') :
    ∃ d', Performs ⟨t, order'⟩ d a d' ∧ Twin t c' d' := by
  obtain ⟨cell, decision, he, hd, ha, hact⟩ := hperforms
  obtain ⟨_, hd', e⟩ := (h.agree_choose horder cell).outcome.exists_ok hd
  cases e
  obtain ⟨d', hact', h'⟩ := (h.agree_act hg hbuild he hd).outcome.exists_ok hact
  refine ⟨d', ⟨cell, decision, ?_, hd', ha, hact'⟩, h'⟩
  rw [h.state_eq, h.lookahead]
  exact he

theorem Twin.exists_follows (h : Twin t c d) (hg : g.WellFormed)
    (hbuild : (Table.build g m).outcome = .ok t)
    (horder : order = order' ∨ t.precedence = none ∨ t.automaton = none)
    (hfollows : Follows ⟨t, order⟩ c acts c') : ∃ d', Follows ⟨t, order'⟩ d acts d' := by
  induction hfollows generalizing d with
  | nil c => exact ⟨d, .nil d⟩
  | cons hstep _ ih =>
    obtain ⟨d₁, hstep', h₁⟩ := h.exists_performs hg hbuild horder hstep
    obtain ⟨d', hd'⟩ := ih h₁
    exact ⟨d', .cons hstep' hd'⟩

theorem CanPerform.of_sameTokens (h : CanPerform ⟨t, order⟩ source acts) (hg : g.WellFormed)
    (hbuild : (Table.build g m).outcome = .ok t) (hsource : TokenSource.SameTokens source source')
    (horder : order = order' ∨ t.precedence = none ∨ t.automaton = none) :
    CanPerform ⟨t, order'⟩ source' acts := by
  obtain ⟨c, c', hbegin, hfollows⟩ := h
  obtain ⟨d, hbegin', htwin⟩ := (alike_begin hsource).exists_ok hbegin
  obtain ⟨d', hd'⟩ := htwin.exists_follows hg hbuild horder hfollows
  exact ⟨d, d', hbegin', hd'⟩

/-- A parse depends on the table, on the tokens up to the first blank one and on the order of the
resolvers; the order matters only if there are both a precedence table and a level automaton.  With
the same of these, whatever the locations and the rest of the policy, the same is reported in as
many steps, the result is the same up to the location of an error, and the same actions are
performed. -/
theorem parse_depends {p q : Policy} (hg : g.Built)
    (hbuild : (Table.build g m).outcome = .ok t) (hsource : TokenSource.SameTokens source source')
    (horder : p.order = q.order ∨ t.precedence = none ∨ t.automaton = none) :
    (∀ steps, (parse ⟨t, p.order⟩ steps source).events = (parse ⟨t, q.order⟩ steps source').events ∧
      (parse ⟨t, p.order⟩ steps source).value.map (Except.mapError ParseError.unlocated) =
        (parse ⟨t, q.order⟩ steps source').value.map (Except.mapError ParseError.unlocated)) ∧
    ∀ acts, CanPerform ⟨t, p.order⟩ source acts ↔ CanPerform ⟨t, q.order⟩ source' acts := by
  have hwf := hg.wellFormed
  refine ⟨fun steps => ?_, fun acts => ⟨fun h => ?_, fun h => ?_⟩⟩
  · have hbegin : Alike (Twin t) (begin t source) (begin t source') := alike_begin hsource
    unfold parse
    dsimp only
    generalize begin t source = x at hbegin ⊢
    generalize begin t source' = y at hbegin ⊢
    cases hbegin with
    | error he => exact ⟨rfl, congrArg (some ∘ Except.error) he⟩
    | ok htwin => exact htwin.run_eq hwf hbuild horder steps
  · exact h.of_sameTokens hwf hbuild hsource horder
  · exact h.of_sameTokens hwf hbuild hsource.symm (horder.imp_left Eq.symm)

/-- Without a precedence table the grammar with conflicts refuses `x x x` in either order of the
resolvers, and without a place if the source knows none. -/
theorem parse_depends_choice :
    ∃ g A t, Demo.choice = .ok g ∧ Demo.choiceLevels = .ok A ∧
      (Table.build g { automaton := some A }).outcome = .ok t ∧
      (parse ⟨t, .levelsFirst⟩ 20 (ListedTokens.mk [⟨"x"⟩, ⟨"x"⟩, ⟨"x"⟩, .blank, ⟨"x"⟩] 0)).value =
        some (.error (.noRuleForToken ⟨"x"⟩ 5 ⟨1, 3⟩)) ∧
      (parse ⟨t, .precedenceFirst⟩ 20
          (Unlocated.mk (ListedTokens.mk [⟨"x"⟩, ⟨"x"⟩, ⟨"x"⟩] 0))).value.map
            (Except.mapError ParseError.unlocated) =
        some (.error (.noRuleForToken ⟨"x"⟩ 5 {})) ∧
      ∀ acts, CanPerform ⟨t, .levelsFirst⟩
          (ListedTokens.mk [⟨"x"⟩, ⟨"x"⟩, ⟨"x"⟩, .blank, ⟨"x"⟩] 0) acts ↔
        CanPerform ⟨t, .precedenceFirst⟩
          (Unlocated.mk (ListedTokens.mk [⟨"x"⟩, ⟨"x"⟩, ⟨"x"⟩] 0)) acts := by
  have hrun : ((Table.build (Demo.choice.toOption.getD {})
      { automaton := some (Demo.choiceLevels.toOption.getD {}) }).outcome.toOption.bind
        fun t => (parse ⟨t, .levelsFirst⟩ 20
          (ListedTokens.mk [⟨"x"⟩, ⟨"x"⟩, ⟨"x"⟩, .blank, ⟨"x"⟩] 0)).value.bind
            fun
              | .error e => some e
              | .ok _ => none) = some (.noRuleForToken ⟨"x"⟩ 5 ⟨1, 3⟩) := by
    decide +kernel
  obtain ⟨t, ht, hrun⟩ := Option.bind_eq_some_iff.1 hrun
  obtain ⟨x, hx, hrun⟩ := Option.bind_eq_some_iff.1 hrun
  have hbuild := toOption_eq_some_iff.1 ht
  have hprec : t.precedence = none := (Table.build_outcome_iff.1 hbuild).2.2.2.2.1
  have hsource : TokenSource.SameTokens
      (ListedTokens.mk [⟨"x"⟩, ⟨"x"⟩, ⟨"x"⟩, .blank, ⟨"x"⟩] 0)
      (Unlocated.mk (ListedTokens.mk [⟨"x"⟩, ⟨"x"⟩, ⟨"x"⟩] 0)) := by
    intro n hn
    match n with
    | 0 | 1 | 2 | 3 => rfl
    | n + 4 => exact absurd rfl (hn 3 (by omega))
  obtain ⟨hruns, hacts⟩ :=
    parse_depends (p := { order := .levelsFirst }) (q := { report := true })
      (Demo.built_choice Demo.choice_eq) hbuild hsource (.inr (.inl hprec))
  cases x with
  | ok tree => cases hrun
  | error e =>
    cases hrun
    have hvalue := (hruns 20).2
    rw [show (parse ⟨t, .levelsFirst⟩ 20 _).value = _ from hx] at hvalue
    exact ⟨_, _, t, Demo.choice_eq, Demo.choiceLevels_eq, hbuild, hx, hvalue.symm, hacts⟩

end Parser

end TreeControl
