import TreeControl.Proofs.Parser.Reached

/-! # What settles a conflict

`DecisionPoint.Prescribes` writes down how a conflict is to be settled, one rule for each case: by
the verdict of precedence on the nearest symbol of the stack that has one (`Says`), and by the
reductions that the level automaton could still accept (`allowed`), in either order.  The rules leave
no case open (`exists_prescribes`), and whatever they prescribe the parser does
(`Prescribes.choose_eq`), so no two of them contradict each other.  A parse does the same in every
configuration that it reaches: `step_of_conflict`.

The parser asks its resolvers in a loop that carries the candidates and an error that is due.  What
a resolver answers is said once for precedence (`outcome_askPrecedence`) and once for the levels
(`outcome_askLevels`); a round of the loop then settles the conflict, fails, or leaves the rest to the
next resolver (`settle_of_settled`, `settle_of_error`, `settle_of_undecided`).  A resolver without
its means is silent and may be struck from the order (`Silent.settle_eq`), so without a precedence
table or without a level automaton the order does not matter. -/

namespace TreeControl

namespace DecisionPoint

/-! ### What the resolvers have to say -/

/-- `s` is the symbol nearest to the top of the stack that has a precedence. -/
def Nearest (x : DecisionPoint) (p : Precedence) (s : Symbol) : Prop :=
  ∃ above f below, x.frames = above ++ f :: below ∧ f.symbol = s ∧ p.binds s = true ∧
    ∀ g ∈ above, p.binds g.symbol = false

/-- Precedence compares the nearest symbol on the stack with the lookahead, with this result. -/
def Says (x : DecisionPoint) (verdict : Except Precedence.Error Verdict) : Prop :=
  ∃ p s, x.table.precedence = some p ∧ p.binds x.lookahead = true ∧ x.Nearest p s ∧
    p.verdict s x.lookahead = verdict

/-- There is no precedence table, or the lookahead or every symbol on the stack has no entry. -/
def SaysNothing (x : DecisionPoint) : Prop := ∀ verdict, ¬ x.Says verdict

/-- The positions that a reduction would lead to, if the levels allow it. -/
def previewed? (x : DecisionPoint) (rule : Nat) : Option (List Position) :=
  x.table.grammar.rules[rule]?.bind fun r => (x.forest.preview r).toOption

/-- The candidates that the levels allow, in their order. -/
def allowed (x : DecisionPoint) (c : Cell) : List Nat :=
  c.reduces.toList.filter fun n => (x.previewed? n).isSome

/-! ### The procedure -/

/-- What the levels alone prescribe for a shift that may be left and the reductions of a cell. -/
inductive ByLevels (x : DecisionPoint) (c : Cell) :
    Option Nat → Except ParseError Decision → Prop
  | one {shift : Option Nat} {n : Nat} {ps : List Position} :
      x.allowed c = [n] → x.previewed? n = some ps → ByLevels x c shift (.ok (.reduce n (some ps)))
  | shift {q : Nat} : x.allowed c = [] → ByLevels x c (some q) (.ok (.shift q))
  | stuck : x.allowed c = [] →
      ByLevels x c none (.error (.noTreeConsistentRule x.state x.lookahead x.location))
  | several {shift : Option Nat} : 1 < (x.allowed c).length →
      ByLevels x c shift (.error (x.ambiguous (x.allowed c)))

/-- What is left of the shift of a cell when precedence has been asked and has not decided. -/
inductive Leaves (x : DecisionPoint) (c : Cell) : Option Nat → Prop
  | noShift : c.shift = none → Leaves x c none
  | noReduction : c.reduces.toList = [] → Leaves x c c.shift
  | silent : x.SaysNothing → Leaves x c c.shift
  | reduce : 1 < c.reduces.toList.length → x.Says (.ok .reduce) → Leaves x c none

/-- What is prescribed for a conflict. -/
inductive Prescribes (x : DecisionPoint) (c : Cell) :
    ResolutionOrder → Except ParseError Decision → Prop
  /-- Precedence refuses to compare. -/
  | refused {e : Precedence.Error} : c.shift.isSome = true → c.reduces.toList ≠ [] →
      x.Says (.error e) → Prescribes x c .precedenceFirst (.error (.precedence e x.location))
  /-- Precedence is for the shift. -/
  | shift {q : Nat} : c.shift = some q → c.reduces.toList ≠ [] → x.Says (.ok .shift) →
      Prescribes x c .precedenceFirst (.ok (.shift q))
  /-- Precedence is for reducing, and there is one reduction. -/
  | reduce {n : Nat} : c.shift.isSome = true → c.reduces.toList = [n] → x.Says (.ok .reduce) →
      Prescribes x c .precedenceFirst (.ok (.reduce n none))
  /-- What precedence leaves open is settled by the levels. -/
  | levels {shift : Option Nat} {r : Except ParseError Decision} :
      x.forest.automaton.isSome = true → Leaves x c shift → ByLevels x c shift r →
      Prescribes x c .precedenceFirst r
  /-- What precedence leaves open stays open without a level automaton. -/
  | unhandled {shift : Option Nat} : x.forest.automaton = none → Leaves x c shift →
      Prescribes x c .precedenceFirst
        (.error (.unhandledConflict x.state x.lookahead x.location))
  /-- The levels come first, and they decide or no shift is left to precedence. -/
  | levelsAlone {r : Except ParseError Decision} : x.forest.automaton.isSome = true →
      c.shift = none ∨ (x.allowed c).length ≤ 1 → ByLevels x c c.shift r →
      Prescribes x c .levelsFirst r
  /-- The levels allow several reductions beside a shift, and precedence is for the shift. -/
  | openShift {q : Nat} : x.forest.automaton.isSome = true → c.shift = some q →
      1 < (x.allowed c).length → x.Says (.ok .shift) → Prescribes x c .levelsFirst (.ok (.shift q))
  /-- The levels allow several reductions beside a shift, and precedence refuses to compare. -/
  | openRefused {e : Precedence.Error} : x.forest.automaton.isSome = true →
      c.shift.isSome = true → 1 < (x.allowed c).length → x.Says (.error e) →
      Prescribes x c .levelsFirst (.error (.precedence e x.location))
  /-- The levels allow several reductions beside a shift, and precedence is not for the shift. -/
  | openAmbiguous : x.forest.automaton.isSome = true → c.shift.isSome = true →
      1 < (x.allowed c).length → x.Says (.ok .reduce) ∨ x.SaysNothing →
      Prescribes x c .levelsFirst (.error (x.ambiguous (x.allowed c)))
  /-- Without a level automaton the order does not matter. -/
  | plain {r : Except ParseError Decision} : x.forest.automaton = none →
      Prescribes x c .precedenceFirst r → Prescribes x c .levelsFirst r

variable {x : DecisionPoint} {c : Cell} {p : Precedence} {s : Symbol} {shift : Option Nat}
  {reduces : List Nat} {due : Option ParseError} {n q : Nat} {ps : List Position}
  {e : Precedence.Error} {order order' : ResolutionOrder} {resolver : Resolver}
  {rest : List Resolver} {r : Except ParseError Decision} {err : ParseError} {d : Decision}

/-! ### What precedence answers -/

theorem nearest?_eq_some_iff : x.nearest? p = some s ↔ x.Nearest p s := by
  unfold nearest? Nearest
  rw [List.find?_eq_some_iff_append]
  constructor
  · rintro ⟨hs, above, below, hframes, habove⟩
    obtain ⟨above', rest, hsplit, rfl, hrest⟩ := List.map_eq_append_iff.1 hframes
    obtain ⟨f, below', rfl, hf, -⟩ := List.map_eq_cons_iff.1 hrest
    exact ⟨above', f, below', hsplit, hf, hs, fun g hg => by
      simpa using habove g.symbol (List.mem_map_of_mem hg)⟩
  · rintro ⟨above, f, below, hsplit, rfl, hs, habove⟩
    refine ⟨hs, above.map Frame.symbol, below.map Frame.symbol, by simp [hsplit], ?_⟩
    intro g hg
    obtain ⟨f', hf', rfl⟩ := List.mem_map.1 hg
    simp [habove f' hf']

theorem Says.outcome_eq {verdict : Except Precedence.Error Verdict} (h : x.Says verdict) :
    x.precedenceVerdict.outcome =
      (verdict.mapError (ParseError.precedence · x.location)).map some := by
  obtain ⟨p, s, hp, hlook, hnear, rfl⟩ := h
  unfold precedenceVerdict
  simp only [hp, hlook, nearest?_eq_some_iff.2 hnear, if_true, Attempt.outcome_bind,
    Attempt.outcome_ofExcept]
  cases p.verdict s x.lookahead <;> rfl

theorem SaysNothing.outcome_eq (h : x.SaysNothing) : x.precedenceVerdict.outcome = .ok none := by
  unfold precedenceVerdict
  cases hp : x.table.precedence with
  | none => rfl
  | some p =>
    by_cases hlook : p.binds x.lookahead = true
    · cases hnear : x.nearest? p with
      | none => simp [hlook, hnear]
      | some s => exact absurd ⟨p, s, hp, hlook, nearest?_eq_some_iff.1 hnear, rfl⟩ (h _)
    · simp [hlook]

theorem outcome_askPrecedence (hreduces : reduces ≠ []) :
    (x.askPrecedence (some q) reduces due).outcome = x.precedenceVerdict.outcome >>= fun
      | none => .ok (.undecided (some q) reduces due)
      | some .shift => .ok (.settled (.shift q))
      | some .reduce =>
        if reduces.tail.isEmpty then .ok (.settled (.reduce (reduces.head hreduces) none))
        else .ok (.undecided none reduces due) := by
  obtain ⟨m, ms, rfl⟩ := List.exists_cons_of_ne_nil hreduces
  unfold askPrecedence
  rw [Attempt.outcome_bind]
  refine congrArg _ (funext fun v => ?_)
  rcases v with _ | _ | _
  · rfl
  · rfl
  · show Attempt.outcome (if ms.isEmpty then _ else _) = if ms.isEmpty then _ else _
    split <;> rfl

/-- What precedence leaves of a shift, it leaves beside the reductions. -/
theorem Leaves.ask_eq (h : x.Leaves c shift) :
    (x.ask .precedence c.shift c.reduces.toList due).outcome =
      .ok (.undecided shift c.reduces.toList due) := by
  show (x.askPrecedence c.shift c.reduces.toList due).outcome = _
  have hquiet : c.shift = none ∨ c.reduces.toList = [] →
      (x.askPrecedence c.shift c.reduces.toList due).outcome =
        .ok (.undecided c.shift c.reduces.toList due) := by
    unfold askPrecedence
    rintro (hnone | hnil)
    · rw [hnone]
      rfl
    · rw [hnil]
      cases c.shift <;> rfl
  cases h with
  | noShift hnone =>
    rw [hquiet (.inl hnone), hnone]
  | noReduction hnil => exact hquiet (.inr hnil)
  | silent hsaid =>
    cases hs : c.shift with
    | none =>
      rw [← hs]
      exact hquiet (.inl hs)
    | some q =>
      by_cases hnil : c.reduces.toList = []
      · rw [← hs]
        exact hquiet (.inr hnil)
      · rw [outcome_askPrecedence hnil, hsaid.outcome_eq]
        rfl
  | reduce hlength hsaid =>
    cases hs : c.shift with
    | none =>
      rw [← hs, hquiet (.inl hs), hs]
    | some q =>
      have hne : c.reduces.toList ≠ [] := by
        intro hnil
        rw [hnil] at hlength
        simp at hlength
      have htail : c.reduces.toList.tail.isEmpty = false := by
        rw [List.isEmpty_eq_false_iff, ← List.length_pos_iff, List.length_tail]
        omega
      rw [outcome_askPrecedence hne, hsaid.outcome_eq]
      show (if c.reduces.toList.tail.isEmpty then _ else _) = _
      rw [htail]
      rfl

/-! ### What the levels answer -/

theorem value_fits : (x.fits n).value = (x.previewed? n).map (n, ·) := by
  ext ⟨k, ps⟩
  rw [fits_eq_some_iff, previewed?]
  cases x.table.grammar.rules[n]? with
  | none => simp
  | some r => cases hr : x.forest.preview r <;> simp [hr, Except.toOption, eq_comm]

theorem map_fst_fitting : (x.fitting c.reduces.toList).value.map Prod.fst = x.allowed c := by
  rw [value_fitting, allowed]
  induction c.reduces.toList with
  | nil => rfl
  | cons n ns ih =>
    rw [List.filterMap_cons, value_fits, List.filter_cons]
    cases hn : x.previewed? n with
    | none => simpa using ih
    | some ps => simpa using ih

theorem mem_fitting (h : (n, ps) ∈ (x.fitting c.reduces.toList).value) :
    x.previewed? n = some ps := by
  obtain ⟨-, r, hr, hps⟩ := mem_fitting_iff.1 h
  rw [previewed?, hr, Option.bind_some, hps]
  rfl

/-- The levels are heard if there is a level automaton. -/
theorem outcome_askLevels (hA : x.forest.automaton.isSome = true) :
    (x.askLevels shift c.reduces.toList due).outcome =
      match x.allowed c, shift with
      | [n], _ => .ok (.settled (.reduce n (x.previewed? n)))
      | [], some q => .ok (.settled (.shift q))
      | [], none => .error (.noTreeConsistentRule x.state x.lookahead x.location)
      | _, some _ => .ok (.undecided shift (x.allowed c) (some (x.ambiguous (x.allowed c))))
      | _, none => .error (x.ambiguous (x.allowed c)) := by
  unfold askLevels
  rw [Option.isNone_eq_false_iff.2 hA]
  simp only [Bool.false_eq_true, if_false, Attempt.outcome_bind, Attempt.outcome_lift]
  have hmem : ∀ n ps, (n, ps) ∈ (x.fitting c.reduces.toList).value → x.previewed? n = some ps :=
    fun n ps => mem_fitting
  rw [← map_fst_fitting]
  generalize (x.fitting c.reduces.toList).value = valid at hmem
  rcases valid with _ | ⟨⟨n, ps⟩, _ | ⟨v, valid⟩⟩
  · cases shift <;> rfl
  · have hps := hmem n ps (List.mem_singleton.2 rfl)
    show _ = Except.ok (Resolution.settled (.reduce n (x.previewed? n)))
    rw [hps]
    rfl
  · cases shift <;> rfl

/-- Several reductions that the levels allow are left, beside a shift, to precedence. -/
theorem outcome_askLevels_of_several (hA : x.forest.automaton.isSome = true)
    (hlength : 1 < (x.allowed c).length) :
    (x.askLevels shift c.reduces.toList due).outcome =
      match shift with
      | some q => .ok (.undecided (some q) (x.allowed c) (some (x.ambiguous (x.allowed c))))
      | none => .error (x.ambiguous (x.allowed c)) := by
  rw [outcome_askLevels hA]
  match x.allowed c, hlength with
  | m :: k :: ms, _ => cases shift <;> rfl

/-! ### The loop over the resolvers -/

theorem settle_of_settled (h : (x.ask resolver shift reduces due).outcome = .ok (.settled d)) :
    (x.settle (resolver :: rest) shift reduces due).outcome = .ok d := by
  rw [settle, Attempt.outcome_bind, h]
  rfl

theorem settle_of_error (h : (x.ask resolver shift reduces due).outcome = .error err) :
    (x.settle (resolver :: rest) shift reduces due).outcome = .error err := by
  rw [settle, Attempt.outcome_bind, h]
  rfl

theorem settle_of_undecided {shift' : Option Nat} {reduces' : List Nat} {due' : Option ParseError}
    (h : (x.ask resolver shift reduces due).outcome = .ok (.undecided shift' reduces' due')) :
    (x.settle (resolver :: rest) shift reduces due).outcome =
      (x.settle rest shift' reduces' due').outcome := by
  rw [settle, Attempt.outcome_bind, h]
  rfl

/-! ### Resolvers without their means -/

theorem askPrecedence_of_none (h : x.table.precedence = none) :
    x.askPrecedence shift reduces due = pure (.undecided shift reduces due) := by
  have hverdict : x.precedenceVerdict = pure none := by
    unfold precedenceVerdict
    rw [h]
  unfold askPrecedence
  split
  · rw [hverdict]
    rfl
  · rfl

theorem askLevels_of_none (h : x.forest.automaton = none) :
    x.askLevels shift reduces due = pure (.undecided shift reduces due) := by
  unfold askLevels
  rw [h]
  rfl

/-- A resolver that leaves every conflict as it is. -/
def Silent (x : DecisionPoint) (resolver : Resolver) : Prop :=
  ∀ shift reduces due,
    x.ask resolver shift reduces due = pure (.undecided shift reduces due)

/-- A silent resolver need not be asked. -/
theorem Silent.settle_eq (h : x.Silent resolver) (resolvers : List Resolver) :
    x.settle resolvers shift reduces due =
      x.settle (resolvers.filter (· ≠ resolver)) shift reduces due := by
  induction resolvers generalizing shift reduces due with
  | nil => rfl
  | cons r rest ih =>
    by_cases hr : r = resolver
    · subst hr
      rw [List.filter_cons_of_neg (by simp), ← ih, settle, h, pure_bind]
    · rw [List.filter_cons_of_pos (by simpa using hr), settle, settle]
      refine congrArg _ (funext fun res => ?_)
      cases res with
      | settled d => rfl
      | undecided shift reduces due => exact ih

/-- Without one of the means the order of the resolvers does not matter. -/
theorem choose_order_eq
    (h : order = order' ∨ x.table.precedence = none ∨ x.forest.automaton = none) (c : Cell) :
    x.choose order c = x.choose order' c := by
  have of_silent : ∀ resolver, x.Silent resolver → x.choose order c = x.choose order' c := by
    intro resolver hsilent
    unfold choose
    rw [hsilent.settle_eq order.resolvers, hsilent.settle_eq order'.resolvers]
    cases order <;> cases order' <;> cases resolver <;> rfl
  obtain rfl | h | h := h
  · rfl
  · exact of_silent .precedence fun shift reduces due => askPrecedence_of_none h
  · exact of_silent .levels fun shift reduces due => askLevels_of_none h

/-! ### The procedure is followed -/

/-- What the levels prescribe is done when they are asked first and nothing else has a say. -/
theorem ByLevels.settle_eq (h : x.ByLevels c shift r) (hA : x.forest.automaton.isSome = true)
    (hrest : rest = [] ∨ shift = none ∨ (x.allowed c).length ≤ 1) :
    (x.settle (.levels :: rest) shift c.reduces.toList none).outcome = r := by
  cases h with
  | @one shift n ps hone hps =>
    apply settle_of_settled
    show (x.askLevels shift c.reduces.toList none).outcome = _
    rw [outcome_askLevels hA, hone, ← hps]
  | @shift q hnil =>
    apply settle_of_settled
    show (x.askLevels (some q) c.reduces.toList none).outcome = _
    rw [outcome_askLevels hA, hnil]
  | stuck hnil =>
    apply settle_of_error
    show (x.askLevels none c.reduces.toList none).outcome = _
    rw [outcome_askLevels hA, hnil]
  | @several shift hlength =>
    cases shift with
    | none => exact settle_of_error (outcome_askLevels_of_several hA hlength)
    | some q =>
      obtain rfl : rest = [] := by simpa [not_le.2 hlength] using hrest
      have hask : (x.ask .levels (some q) c.reduces.toList none).outcome =
          .ok (.undecided (some q) (x.allowed c) (some (x.ambiguous (x.allowed c)))) :=
        outcome_askLevels_of_several hA hlength
      exact settle_of_undecided hask

theorem Leaves.several (h : x.Leaves c shift) (hc : c.isConflict = true) (hnone : shift = none) :
    1 < c.reduces.toList.length := by
  have hsize : c.shift = none → 1 < c.reduces.toList.length := by
    intro hs
    simpa [Cell.isConflict, Cell.isShiftReduce, Cell.isReduceReduce, OrdSet.size, hs] using hc
  cases h with
  | noShift hs => exact hsize hs
  | noReduction _ => exact hsize hnone
  | silent _ => exact hsize hnone
  | reduce hlength _ => exact hlength

theorem settle_nil_of_several (h : shift = none → 1 < reduces.length) :
    (x.settle [] shift reduces none).outcome =
      .error (.unhandledConflict x.state x.lookahead x.location) := by
  unfold settle
  split
  · cases ‹none = some _›
  · simp at h
  · rfl

theorem Prescribes.choose_eq (h : x.Prescribes c order r) (hc : c.isConflict = true) :
    (x.choose order c).outcome = r := by
  have hchoose : ∀ order, x.choose order c =
      x.settle order.resolvers c.shift c.reduces.toList none := fun _ => if_pos hc
  have several : ∀ {q}, x.forest.automaton.isSome = true → c.shift = some q →
      1 < (x.allowed c).length → (x.ask .levels c.shift c.reduces.toList none).outcome =
        .ok (.undecided (some q) (x.allowed c) (some (x.ambiguous (x.allowed c)))) := by
    intro q hA hq hlength
    rw [hq]
    exact outcome_askLevels_of_several hA hlength
  have hne : 1 < (x.allowed c).length → x.allowed c ≠ [] := by
    intro hlength hnil
    rw [hnil] at hlength
    simp at hlength
  induction h with
  | refused hshift hreduces hsaid =>
    obtain ⟨q, hq⟩ := Option.isSome_iff_exists.1 hshift
    rw [hchoose, hq]
    apply settle_of_error
    show (x.askPrecedence _ _ _).outcome = _
    rw [outcome_askPrecedence hreduces, hsaid.outcome_eq]
    rfl
  | shift hq hreduces hsaid =>
    rw [hchoose, hq]
    apply settle_of_settled
    show (x.askPrecedence _ _ _).outcome = _
    rw [outcome_askPrecedence hreduces, hsaid.outcome_eq]
    rfl
  | reduce hshift hreduces hsaid =>
    obtain ⟨q, hq⟩ := Option.isSome_iff_exists.1 hshift
    rw [hchoose, hq, hreduces]
    apply settle_of_settled
    show (x.askPrecedence _ _ _).outcome = _
    rw [outcome_askPrecedence (List.cons_ne_nil _ _), hsaid.outcome_eq]
    rfl
  | levels hA hleaves hlevels =>
    rw [hchoose]
    exact (settle_of_undecided hleaves.ask_eq).trans
      (hlevels.settle_eq hA (.inl rfl))
  | unhandled hA hleaves =>
    rw [hchoose]
    have hquiet : ∀ shift, (x.ask .levels shift c.reduces.toList none).outcome =
        .ok (.undecided shift c.reduces.toList none) := fun _ =>
      congrArg Attempt.outcome (askLevels_of_none hA)
    exact (settle_of_undecided hleaves.ask_eq).trans ((settle_of_undecided (hquiet _)).trans
      (settle_nil_of_several (hleaves.several hc)))
  | levelsAlone hA hfew hlevels =>
    rw [hchoose]
    exact hlevels.settle_eq hA (.inr hfew)
  | openShift hA hq hlength hsaid =>
    rw [hchoose]
    refine (settle_of_undecided (several hA hq hlength)).trans (settle_of_settled ?_)
    show (x.askPrecedence _ _ _).outcome = _
    rw [outcome_askPrecedence (hne hlength), hsaid.outcome_eq]
    rfl
  | openRefused hA hshift hlength hsaid =>
    obtain ⟨q, hq⟩ := Option.isSome_iff_exists.1 hshift
    rw [hchoose]
    refine (settle_of_undecided (several hA hq hlength)).trans (settle_of_error ?_)
    show (x.askPrecedence _ _ _).outcome = _
    rw [outcome_askPrecedence (hne hlength), hsaid.outcome_eq]
    rfl
  | openAmbiguous hA hshift hlength hsaid =>
    obtain ⟨q, hq⟩ := Option.isSome_iff_exists.1 hshift
    have hask : ∃ shift', (x.ask .precedence (some q) (x.allowed c)
        (some (x.ambiguous (x.allowed c)))).outcome =
          .ok (.undecided shift' (x.allowed c) (some (x.ambiguous (x.allowed c)))) := by
      show ∃ shift', (x.askPrecedence _ _ _).outcome = _
      rw [outcome_askPrecedence (hne hlength)]
      rcases hsaid with hsaid | hsaid
      · have htail : (x.allowed c).tail.isEmpty = false := by
          rw [List.isEmpty_eq_false_iff, ← List.length_pos_iff, List.length_tail]
          omega
        rw [hsaid.outcome_eq]
        show ∃ shift', (if (x.allowed c).tail.isEmpty then _ else _) = _
        rw [htail]
        exact ⟨_, rfl⟩
      · rw [hsaid.outcome_eq]
        exact ⟨_, rfl⟩
    obtain ⟨shift', hask⟩ := hask
    rw [hchoose]
    exact (settle_of_undecided (several hA hq hlength)).trans (settle_of_undecided hask)
  | plain hA _ ih =>
    rw [← ih]
    exact congrArg Attempt.outcome (choose_order_eq (.inr (.inr hA)) c)

/-- Without precedence only the levels speak, in either order of the resolvers. -/
theorem ByLevels.prescribes (h : x.ByLevels c c.shift r) (hA : x.forest.automaton.isSome = true)
    (hsilent : x.SaysNothing) (order : ResolutionOrder) : x.Prescribes c order r := by
  cases order with
  | precedenceFirst => exact .levels hA (.silent hsilent) h
  | levelsFirst =>
    by_cases hfew : c.shift = none ∨ (x.allowed c).length ≤ 1
    · exact .levelsAlone hA hfew h
    · obtain ⟨hshift, hlength⟩ := not_or.1 hfew
      generalize hs : c.shift = shift at h hshift
      cases h with
      | one hone _ => simp [hone] at hlength
      | shift hnil => simp [hnil] at hlength
      | stuck hnil => simp [hnil] at hlength
      | several hmany =>
        exact .openAmbiguous hA (hs ▸ Option.isSome_iff_ne_none.2 hshift) hmany (.inr hsilent)

theorem verdict_cases (x : DecisionPoint) :
    x.SaysNothing ∨ (∃ e, x.Says (.error e)) ∨ x.Says (.ok .shift) ∨ x.Says (.ok .reduce) := by
  by_cases h : ∃ verdict, x.Says verdict
  · obtain ⟨e | _ | _, h⟩ := h
    · exact .inr (.inl ⟨e, h⟩)
    · exact .inr (.inr (.inl h))
    · exact .inr (.inr (.inr h))
  · exact .inl (not_exists.1 h)

theorem exists_byLevels (x : DecisionPoint) (c : Cell) (shift : Option Nat) :
    ∃ r, x.ByLevels c shift r := by
  cases hallowed : x.allowed c with
  | nil =>
    cases shift with
    | none => exact ⟨_, .stuck hallowed⟩
    | some q => exact ⟨_, .shift hallowed⟩
  | cons n ns =>
    cases ns with
    | nil =>
      have hn : n ∈ x.allowed c := by simp [hallowed]
      obtain ⟨ps, hps⟩ := Option.isSome_iff_exists.1 (List.mem_filter.1 hn).2
      exact ⟨_, .one hallowed hps⟩
    | cons m ns => exact ⟨_, .several (by simp [hallowed])⟩

/-- The procedure leaves no case open. -/
theorem exists_prescribes (x : DecisionPoint) (c : Cell) (order : ResolutionOrder) :
    ∃ r, x.Prescribes c order r := by
  have first : ∃ r, x.Prescribes c .precedenceFirst r := by
    have left : ∀ {shift}, x.Leaves c shift → ∃ r, x.Prescribes c .precedenceFirst r := by
      intro shift hleaves
      cases hA : x.forest.automaton with
      | none => exact ⟨_, .unhandled hA hleaves⟩
      | some D =>
        obtain ⟨r, hr⟩ := x.exists_byLevels c shift
        exact ⟨r, .levels (by simp [hA]) hleaves hr⟩
    cases hq : c.shift with
    | none => exact left (.noShift hq)
    | some q =>
      have hshift : c.shift.isSome = true := by simp [hq]
      by_cases hnil : c.reduces.toList = []
      · exact left (.noReduction hnil)
      · rcases x.verdict_cases with hsaid | ⟨e, hsaid⟩ | hsaid | hsaid
        · exact left (.silent hsaid)
        · exact ⟨_, .refused hshift hnil hsaid⟩
        · exact ⟨_, .shift hq hnil hsaid⟩
        · cases hlist : c.reduces.toList with
          | nil => exact absurd hlist hnil
          | cons n ns =>
            cases ns with
            | nil => exact ⟨_, .reduce hshift hlist hsaid⟩
            | cons m ns => exact left (.reduce (by simp [hlist]) hsaid)
  cases order with
  | precedenceFirst => exact first
  | levelsFirst =>
    cases hA : x.forest.automaton with
    | none =>
      obtain ⟨r, hr⟩ := first
      exact ⟨r, .plain hA hr⟩
    | some D =>
      have hsome : x.forest.automaton.isSome = true := by simp [hA]
      by_cases hfew : c.shift = none ∨ (x.allowed c).length ≤ 1
      · obtain ⟨r, hr⟩ := x.exists_byLevels c c.shift
        exact ⟨r, .levelsAlone hsome hfew hr⟩
      · obtain ⟨hshift, hlength⟩ := not_or.1 hfew
        obtain ⟨q, hq⟩ := Option.ne_none_iff_exists'.1 hshift
        have hq' : c.shift.isSome = true := by simp [hq]
        have hmany : 1 < (x.allowed c).length := not_le.1 hlength
        rcases x.verdict_cases with hsaid | ⟨e, hsaid⟩ | hsaid | hsaid
        · exact ⟨_, .openAmbiguous hsome hq' hmany (.inr hsaid)⟩
        · exact ⟨_, .openRefused hsome hq' hmany hsaid⟩
        · exact ⟨_, .openShift hsome hq hmany hsaid⟩
        · exact ⟨_, .openAmbiguous hsome hq' hmany (.inl hsaid)⟩

theorem prescribes_iff (hc : c.isConflict = true) :
    x.Prescribes c order r ↔ (x.choose order c).outcome = r := by
  constructor
  · intro h
    exact h.choose_eq hc
  · rintro rfl
    obtain ⟨r, hr⟩ := x.exists_prescribes c order
    rw [hr.choose_eq hc]
    exact hr

end DecisionPoint

namespace Parser

variable {σ : Type} [TokenSource σ] {s : Setting} {source : σ} {c : Config σ} {cell : Cell}

theorem step_outcome_of_act (he : s.table.entry? c.state c.lookahead = some (.act cell)) :
    (step s c).outcome = ((c.decisionPoint s.table).choose s.order cell).outcome >>= fun d =>
      (act s.table c d).outcome >>= fun c' => .ok (.going c') := by
  unfold step
  rw [Attempt.outcome_bind, Attempt.outcome_emit, he]
  show Attempt.outcome (_ >>= _) = _
  simp only [Attempt.outcome_bind, Attempt.outcome_pure]

/-- Whenever a parse comes to a conflict, exactly one decision or error is prescribed, and the parser
carries out this decision or fails with this error.  The level automaton is that of the table. -/
theorem step_of_conflict (hc : Reached s source c)
    (he : s.table.entry? c.state c.lookahead = some (.act cell)) (hcell : cell.isConflict = true) :
    (c.decisionPoint s.table).forest.automaton = s.table.automaton ∧
      ∃ r, (∀ r', (c.decisionPoint s.table).Prescribes cell s.order r' ↔ r' = r) ∧
        (step s c).outcome = r >>= fun d =>
          (act s.table c d).outcome >>= fun c' => .ok (.going c') := by
  refine ⟨hc.automaton_eq, _, fun r' => ?_, step_outcome_of_act he⟩
  rw [DecisionPoint.prescribes_iff hcell, eq_comm]

/-- Behind the first `x` the shift competes with two reductions, of which the levels allow one. -/
theorem step_of_conflict_choice :
    ∃ g A t c cell n ps, Demo.choice = .ok g ∧ Demo.choiceLevels = .ok A ∧
      (Table.build g { automaton := some A }).outcome = .ok t ∧
      Reached ⟨t, .levelsFirst⟩ (ListedTokens.mk [⟨"x"⟩, ⟨"x"⟩] 0) c ∧
      t.entry? c.state c.lookahead = some (.act cell) ∧ cell.isConflict = true ∧
      ((∀ r', (c.decisionPoint t).Prescribes cell .levelsFirst r' ↔
        r' = .ok (.reduce n (some ps))) ∧
      (step ⟨t, .levelsFirst⟩ c).outcome = (act t c (.reduce n (some ps))).outcome >>= fun c' =>
        .ok (.going c')) := by
  have hg := Demo.choice_eq
  have hA := Demo.choiceLevels_eq
  have hrun : ((Table.build (Demo.choice.toOption.getD {})
      { automaton := some (Demo.choiceLevels.toOption.getD {}) }).outcome.toOption.bind fun t =>
        (begin t (ListedTokens.mk [⟨"x"⟩, ⟨"x"⟩] 0)).toOption.bind fun c₀ =>
          (step ⟨t, .levelsFirst⟩ c₀).outcome.toOption.bind fun
            | .finished _ => none
            | .going c => (t.entry? c.state c.lookahead).bind fun
              | .act cell => ((c.decisionPoint t).choose .levelsFirst cell).outcome.toOption.map
                  fun d => (cell.isConflict, d.action, decide (d = .reduce 4 none))
              | .accept => none
              | .goto _ => none) = some (true, .reduce 4, false) := by
    decide +kernel
  obtain ⟨t, ht, hrun⟩ := Option.bind_eq_some_iff.1 hrun
  obtain ⟨c₀, hc₀, hrun⟩ := Option.bind_eq_some_iff.1 hrun
  obtain ⟨progress, hstep, hrun⟩ := Option.bind_eq_some_iff.1 hrun
  rw [toOption_eq_some_iff] at ht hc₀ hstep
  cases progress with
  | finished _ => cases hrun
  | going c =>
    obtain ⟨entry, he, hrun⟩ := Option.bind_eq_some_iff.1 hrun
    cases entry with
    | accept => cases hrun
    | goto _ => cases hrun
    | act cell =>
      obtain ⟨d, hd, hrun⟩ := Option.map_eq_some_iff.1 hrun
      rw [toOption_eq_some_iff] at hd
      obtain ⟨hcell, hrun⟩ := Prod.mk.inj hrun
      have hc : Reached ⟨t, .levelsFirst⟩ (ListedTokens.mk [⟨"x"⟩, ⟨"x"⟩] 0) c :=
        .step (.begin hc₀) hstep
      obtain ⟨-, r, hr, hact⟩ := step_of_conflict hc he hcell
      have hchoose := (hr _).1 ((DecisionPoint.prescribes_iff hcell).2 rfl)
      cases hchoose.symm.trans hd
      cases d with
      | shift q => cases hrun
      | reduce n known =>
        obtain ⟨haction, hknown⟩ := Prod.mk.inj hrun
        cases haction
        cases known with
        | none => exact absurd rfl (of_decide_eq_false hknown)
        | some ps => exact ⟨_, _, t, c, cell, 4, ps, hg, hA, ht, hc, he, hcell, hr, hact⟩

end Parser

end TreeControl
