import TreeControl.Proofs.Demo
import TreeControl.Proofs.Grammar.Prediction
import TreeControl.Proofs.Table.Filling

/-! # Which tables can be built

A state and a symbol have candidates: a shift, reductions, or acceptance (`Grammar.Shifts`,
`Grammar.Reduces`, `Grammar.AcceptsAt`).  They are read off the groups and the follow sets and do not
depend on the order in which a row is filled; `Grammar.Determines` says which entry they make.

A row is filled one placement after the other, and the first one that does not fit ends the
construction.  Two placements that are asked for in one entry are compatible
(`Grammar.Asks.compatible`), so a placement that does not fit makes a conflict of candidates that the
policy forbids, and the error names it (`Site.forbids_of_place`).  Together with what stands in a
finished table this says exactly when there is one and what it holds (`Table.build_candidates`). -/

namespace TreeControl

/-! ### Candidates -/

namespace Grammar

/-- A state shifts a terminal: it leads to another state over it. -/
def Shifts (G : Grammar) (i : Nat) (s : Symbol) (q : Nat) : Prop :=
  s ∈ G.terminals ∧ G.Moves i s q

/-- A state reduces by a rule, which is completed there, before a symbol that can follow its left
side. -/
def Reduces (G : Grammar) (i : Nat) (s : Symbol) (n : Nat) : Prop :=
  n ≠ 0 ∧ ∃ r, G.rules[n]? = some r ∧ G.Holds i ⟨n, r.rhs.length⟩ ∧
    s ∈ G.predict.value.follow r.lhs

/-- A state accepts at the end of the input, where rule 0 is completed. -/
def AcceptsAt (G : Grammar) (i : Nat) (s : Symbol) : Prop :=
  s = .blank ∧ G.Holds i ⟨0, 1⟩

/-- A policy forbids the candidates of a state and a symbol, as an error says. -/
inductive Forbids (G : Grammar) (policy : Policy) (i : Nat) (s : Symbol) : BuildError → Prop
  | accept {n : Nat} : G.AcceptsAt i s → G.Reduces i s n →
      Forbids G policy i s (.acceptConflict i (G.ruleText n))
  | shiftReduce {q n : Nat} : policy.allowShiftReduce = false → G.Shifts i s q →
      G.Reduces i s n → Forbids G policy i s (.shiftReduceConflict i s q (G.ruleText n))
  | reduceReduce {n k : Nat} : policy.allowReduceReduce = false → n ≠ k → G.Reduces i s n →
      G.Reduces i s k →
      Forbids G policy i s (.reduceReduceConflict i s (G.ruleText n) (G.ruleText k))

/-- The entry that the candidates of a state and a symbol make. -/
structure Determines (G : Grammar) (i : Nat) (s : Symbol) (e : Option Entry) : Prop where
  none_iff : e = none ↔ ¬ G.AcceptsAt i s ∧ (∀ q, ¬ G.Moves i s q) ∧ ∀ n, ¬ G.Reduces i s n
  accept_iff : e = some .accept ↔ G.AcceptsAt i s
  goto_iff : ∀ q, e = some (.goto q) ↔ s ∈ G.nonterminals ∧ G.Moves i s q
  act_iff : ∀ c, e = some (.act c) ↔ ((∃ q, G.Shifts i s q) ∨ ∃ n, G.Reduces i s n) ∧
    (∀ q, c.shift = some q ↔ G.Shifts i s q) ∧ ∀ n, n ∈ c.reduces ↔ G.Reduces i s n

end Grammar

/-- Two placements can be asked for in one entry. -/
def Placement.Compatible : Placement → Placement → Prop
  | .accept, .accept => True
  | .accept, .reduce _ => True
  | .reduce _, .accept => True
  | .reduce _, .reduce _ => True
  | .reduce _, .shift _ => True
  | .shift _, .reduce _ => True
  | .shift q, .shift q' => q = q'
  | .goto q, .goto q' => q = q'
  | _, _ => False

namespace Grammar

variable {g G : Grammar} {p : Prediction} {i q n : Nat} {s top start : Symbol}
  {pl pl' : Placement}

theorem asks_accept_iff (hG : G.Augments g top start) :
    G.Asks p i s .accept ↔ G.AcceptsAt i s := by
  constructor
  · intro h
    cases h with
    | @accept item hi hzero hdone =>
      have hmarker := hG.marker_of_completed hi (hzero ▸ hG.rule_zero) hdone
      obtain ⟨rule, marker⟩ := item
      cases hzero
      cases hmarker
      exact ⟨rfl, hi⟩
  · rintro ⟨rfl, hi⟩
    refine .accept hi rfl ?_
    simp [expected?, hG.rule_zero]

theorem asks_reduce_iff (hG : G.Augments g top start) :
    G.Asks G.predict.value i s (.reduce n) ↔ G.Reduces i s n := by
  constructor
  · intro h
    cases h with
    | @reduce item r _ hi hzero hr hdone hs =>
      have hmarker := hG.marker_of_completed hi hr hdone
      obtain ⟨rule, marker⟩ := item
      cases hmarker
      exact ⟨hzero, r, hr, hi, hs⟩
  · rintro ⟨hzero, r, hr, hi, hs⟩
    refine .reduce hi hzero hr ?_ hs
    simp [expected?, hr]

theorem asks_shift_iff (hG : G.WellFormed) :
    G.Asks p i s (.shift q) ↔ G.Shifts i s q := by
  constructor
  · intro h
    cases h with
    | shift hq hn => exact ⟨(mem_of_moves hG hq).resolve_right hn, hq⟩
  · rintro ⟨hs, hq⟩
    exact .shift hq (hG.apart s hs)

theorem asks_goto_iff : G.Asks p i s (.goto q) ↔ s ∈ G.nonterminals ∧ G.Moves i s q := by
  constructor
  · intro h
    cases h with
    | goto hq hn => exact ⟨hn, hq⟩
  · rintro ⟨hn, hq⟩
    exact .goto hq hn

/-- A goto stands under a nonterminal, anything else under a terminal or the end of the input. -/
theorem Asks.symbol_cases (hG : G.WellFormed) (h : G.Asks G.predict.value i s pl) :
    (s ∈ G.nonterminals ∧ ∃ q, pl = .goto q) ∨
      (¬ s ∈ G.nonterminals ∧ (pl = .accept ∧ s = .blank ∨ (∃ n, pl = .reduce n) ∨
        ∃ q, pl = .shift q ∧ s ≠ .blank)) := by
  cases h with
  | accept _ _ _ => exact .inr ⟨hG.named.2, .inl ⟨rfl, rfl⟩⟩
  | @reduce item r _ _ _ _ _ hs =>
    refine .inr ⟨fun hn => ?_, .inr (.inl ⟨_, rfl⟩)⟩
    rcases (Prediction.bounded_predict G).mem_follow hs with rfl | ht
    · exact hG.named.2 hn
    · exact hG.apart s ht hn
  | goto _ hn => exact .inl ⟨hn, _, rfl⟩
  | shift hq hn =>
    refine .inr ⟨hn, .inr (.inr ⟨_, rfl, ?_⟩)⟩
    rintro rfl
    exact hG.named.1 ((mem_of_moves hG hq).resolve_right hn)

theorem Asks.compatible (hG : G.WellFormed) (h : G.Asks G.predict.value i s pl)
    (h' : G.Asks G.predict.value i s pl') : pl.Compatible pl' := by
  rcases h.symbol_cases hG with ⟨hn, q, rfl⟩ | ⟨hn, hpl⟩ <;>
    rcases h'.symbol_cases hG with ⟨hn', q', rfl⟩ | ⟨hn', hpl'⟩
  · exact (asks_goto_iff.1 h).2.unique (asks_goto_iff.1 h').2
  · exact absurd hn hn'
  · exact absurd hn' hn
  · rcases hpl with ⟨rfl, hb⟩ | ⟨n, rfl⟩ | ⟨q, rfl, hb⟩
    · rcases hpl' with ⟨rfl, -⟩ | ⟨n', rfl⟩ | ⟨q', rfl, hb'⟩
      · trivial
      · trivial
      · exact absurd hb hb'
    · rcases hpl' with ⟨rfl, -⟩ | ⟨n', rfl⟩ | ⟨q', rfl, -⟩ <;> trivial
    · rcases hpl' with ⟨rfl, hb'⟩ | ⟨n', rfl⟩ | ⟨q', rfl, -⟩
      · exact absurd hb' hb
      · trivial
      · exact ((asks_shift_iff hG).1 h).2.unique ((asks_shift_iff hG).1 h').2

end Grammar

/-! ### Placements in one entry -/

namespace Site

variable {site : Site} {e : Option Entry} {pl : Placement} {c : Cell} {target rule : Nat}
  {err : BuildError}

theorem keepShiftReduce_error (h : (site.keepShiftReduce target rule).outcome = .error err) :
    site.policy.allowShiftReduce = false ∧
      err = .shiftReduceConflict site.state site.symbol target (site.grammar.ruleText rule) := by
  unfold keepShiftReduce at h
  cases hallow : site.policy.allowShiftReduce with
  | false =>
    rw [hallow] at h
    cases h
    exact ⟨rfl, rfl⟩
  | true =>
    rw [hallow] at h
    cases hreport : site.policy.report <;> simp [hreport] at h

theorem keepReduceReduce_error (h : (site.keepReduceReduce target rule).outcome = .error err) :
    site.policy.allowReduceReduce = false ∧
      err = .reduceReduceConflict site.state site.symbol (site.grammar.ruleText target)
        (site.grammar.ruleText rule) := by
  unfold keepReduceReduce at h
  cases hallow : site.policy.allowReduceReduce with
  | false =>
    rw [hallow] at h
    cases h
    exact ⟨rfl, rfl⟩
  | true =>
    rw [hallow] at h
    cases hreport : site.policy.report <;> simp [hreport] at h

theorem addShift_error (h : (site.addShift c target).outcome = .error err) :
    (∃ first, c.shift = some first ∧ first ≠ target) ∨
      ∃ n ∈ c.reduces, site.policy.allowShiftReduce = false ∧
        err = .shiftReduceConflict site.state site.symbol target (site.grammar.ruleText n) := by
  unfold addShift at h
  cases hs : c.shift with
  | some first =>
    rw [hs] at h
    dsimp only at h
    split at h
    · cases h
    · rename_i hne
      exact .inl ⟨first, rfl, hne⟩
  | none =>
    rw [hs] at h
    dsimp only at h
    cases hm : c.reduces.min? with
    | none =>
      rw [hm] at h
      cases h
    | some n =>
      rw [hm] at h
      have h := Attempt.outcome_bind_pure_eq_error_iff.1 h
      exact .inr ⟨n, OrdSet.mem_of_min? hm, keepShiftReduce_error h⟩

theorem addReduce_error (h : (site.addReduce c rule).outcome = .error err) :
    (∃ q, c.shift = some q ∧ site.policy.allowShiftReduce = false ∧
        err = .shiftReduceConflict site.state site.symbol q (site.grammar.ruleText rule)) ∨
      ∃ n ∈ c.reduces, n ≠ rule ∧ site.policy.allowReduceReduce = false ∧
        err = .reduceReduceConflict site.state site.symbol (site.grammar.ruleText n)
          (site.grammar.ruleText rule) := by
  unfold addReduce at h
  split at h
  · cases h
  · rename_i hr
    cases hs : c.shift with
    | none =>
      cases hm : c.reduces.min? with
      | none =>
        rw [hs, hm] at h
        cases h
      | some n =>
        rw [hs, hm] at h
        have h := Attempt.outcome_bind_pure_eq_error_iff.1 h
        have hn := OrdSet.mem_of_min? hm
        exact .inr ⟨n, hn, fun e => hr (e ▸ hn), keepReduceReduce_error h⟩
    | some q =>
      cases hm : c.reduces.min? with
      | none =>
        rw [hs, hm] at h
        have h := Attempt.outcome_bind_pure_eq_error_iff.1 h
        exact .inl ⟨q, rfl, keepShiftReduce_error h⟩
      | some n =>
        simp only [hs, hm] at h
        rw [Attempt.outcome_bind, bind_eq_error_iff] at h
        rcases h with h | ⟨_, -, h⟩
        · exact .inl ⟨q, rfl, keepShiftReduce_error h⟩
        · have h := Attempt.outcome_bind_pure_eq_error_iff.1 h
          have hn := OrdSet.mem_of_min? hm
          exact .inr ⟨n, hn, fun e => hr (e ▸ hn), keepReduceReduce_error h⟩

/-- Where an entry offers what is asked for, a placement that is asked for fails only on candidates
that the policy forbids. -/
theorem forbids_of_place {g G : Grammar} {policy : Policy} {i : Nat} {s top start : Symbol}
    (hG : G.Augments g top start) (hwf : G.WellFormed) (hpl : G.Asks G.predict.value i s pl)
    (hoffer : ∀ pl', Entry.Offers e pl' → G.Asks G.predict.value i s pl')
    (hsome : ∀ e₀, e = some e₀ → ∃ pl', Entry.Offers (some e₀) pl')
    (h : (place ⟨G, policy, i, s⟩ e pl).outcome = .error err) : G.Forbids policy i s err := by
  have apart : ∀ pl', Entry.Offers e pl' → pl'.Compatible pl :=
    fun pl' hpl' => (hoffer pl' hpl').compatible hwf hpl
  have reduces : ∀ n, Entry.Offers e (.reduce n) → G.Reduces i s n :=
    fun n hn => (Grammar.asks_reduce_iff hG).1 (hoffer _ hn)
  cases e with
  | none =>
    cases pl with
    | deadEnd => cases hpl
    | _ => cases h
  | some e₀ =>
    cases e₀ with
    | accept =>
      cases pl with
      | accept => cases h
      | reduce n =>
        cases h
        exact .accept ((Grammar.asks_accept_iff hG).1 (hoffer .accept trivial))
          ((Grammar.asks_reduce_iff hG).1 hpl)
      | _ => exact absurd (apart .accept trivial) id
    | goto q =>
      cases pl with
      | goto q' =>
        have hq : q = q' := apart (.goto q) rfl
        simp [place, hq] at h
      | _ => exact absurd (apart (.goto q) rfl) id
    | act c =>
      cases pl with
      | deadEnd => cases hpl
      | goto q =>
        obtain ⟨pl', hpl'⟩ := hsome _ rfl
        cases pl' with
        | shift q' => exact absurd (apart _ hpl') id
        | reduce n => exact absurd (apart _ hpl') id
        | _ => cases hpl'
      | accept =>
        cases hm : c.reduces.min? with
        | some n =>
          simp only [place, hm] at h
          cases h
          exact .accept ((Grammar.asks_accept_iff hG).1 hpl) (reduces n (OrdSet.mem_of_min? hm))
        | none =>
          -- A cell without reductions offers a shift, which is not asked for beside acceptance.
          obtain ⟨pl', hpl'⟩ := hsome _ rfl
          cases pl' with
          | shift q => exact absurd (apart _ hpl') id
          | reduce n =>
            have hempty := OrdSet.min?_eq_none_iff.1 hm
            rw [OrdSet.isEmpty_eq_false_iff.2 ⟨n, hpl'⟩] at hempty
            cases hempty
          | _ => cases hpl'
      | shift q =>
        have h := Attempt.outcome_bind_pure_eq_error_iff.1 h
        rcases addShift_error h with ⟨first, hs, hne⟩ | ⟨n, hn, hallow, rfl⟩
        · exact absurd (apart (.shift first) hs) hne
        · exact .shiftReduce hallow ((Grammar.asks_shift_iff hwf).1 hpl) (reduces n hn)
      | reduce n =>
        have h := Attempt.outcome_bind_pure_eq_error_iff.1 h
        have hn := (Grammar.asks_reduce_iff hG).1 hpl
        rcases addReduce_error h with ⟨q, hs, hallow, rfl⟩ | ⟨k, hk, hne, hallow, rfl⟩
        · have hq := (Grammar.asks_shift_iff hwf).1 (hoffer (.shift q) hs)
          exact .shiftReduce hallow hq hn
        · exact .reduceReduce hallow hne (reduces k hk) hn

end Site

/-! ### Whole tables -/

namespace Table

variable {g G : Grammar} {m : Means} {t : Table} {policy : Policy} {i : Nat} {s top start : Symbol}
  {e : BuildError} {group : Group}

theorem forbids_of_fillRow (hG : G.Augments g top start) (hwf : G.WellFormed)
    (hi : G.groups[i]? = some group)
    (h : (fillRow G G.predict.value policy (group, i)).outcome = .error e) :
    ∃ s, G.Forbids policy i s e := by
  rw [fillRow, Attempt.outcome_foldlM] at h
  obtain ⟨before, ⟨s, pl⟩, after, row, hsplit, hbefore, h⟩ := exists_of_foldlM_eq_error h
  have h := Attempt.outcome_bind_pure_eq_error_iff.1 h
  have asked : ∀ x ∈ before ++ (s, pl) :: after, G.Asks G.predict.value i x.1 x.2 :=
    fun x hx => (mem_placements_iff hG hi).1 (hsplit ▸ hx)
  refine ⟨s, Site.forbids_of_place hG hwf (asked (s, pl) (by simp)) (fun pl' hpl' => ?_)
    (fun e₀ he₀ => ?_) h⟩
  · -- What stands in the row was put there before.
    have hmem := (offers_of_foldlM hbefore).1 hpl'
    exact asked (s, pl') (List.mem_append_left _ (hmem.resolve_left (by simp [Entry.Offers])))
  · exact (permitted_of_foldlM (fun s e he => by cases he) hbefore s e₀ he₀).offers

theorem exists_prepareLevels (hA : ∀ A, m.automaton = some A → ∃ q, A.start = some q) :
    ∃ D, (prepareLevels m).outcome = .ok D := by
  cases hm : m.automaton with
  | none => exact ⟨none, prepareLevels_outcome_none hm⟩
  | some A =>
    obtain ⟨q, hq⟩ := hA A hm
    have hD := Automaton.prepare_outcome_iff.2 ⟨q, hq, rfl⟩
    exact ⟨_, (prepareLevels_outcome_iff hm).2 ⟨_, hD, rfl⟩⟩

theorem build_eq_error_iff {D : Option Automaton} (hG : g.augment = .ok G)
    (hD : (prepareLevels m).outcome = .ok D) :
    (build g m).outcome = .error e ↔
      G.groups.zipIdx.mapM (fun x => (fillRow G G.predict.value m.chosenPolicy x).outcome) =
        .error e := by
  simp only [build, Attempt.outcome_bind, Attempt.outcome_ofExcept, Attempt.outcome_lift,
    Attempt.outcome_mapM, Attempt.outcome_pure, bind_eq_error_iff, mapError_eq_ok_iff,
    mapError_eq_error_iff, hG, hD, Except.ok.injEq, exists_eq_left', reduceCtorEq, false_and,
    and_false, exists_false, false_or, or_false]
  exact Iff.rfl

/-- A construction that fails in neither the grammar nor the automaton fails on candidates that the
policy forbids. -/
theorem forbids_of_build (hg : g.Built) (hG : g.augment = .ok G)
    (hA : ∀ A, m.automaton = some A → ∃ q, A.start = some q)
    (h : (build g m).outcome = .error e) : ∃ i s, G.Forbids m.chosenPolicy i s e := by
  obtain ⟨top, start, haug⟩ := Grammar.augments_of_augment hG
  obtain ⟨D, hD⟩ := exists_prepareLevels hA
  obtain ⟨⟨group, i⟩, hmem, hrow⟩ := exists_of_mapM_eq_error ((build_eq_error_iff hG hD).1 h)
  have hi : G.groups[i]? = some group := List.mem_zipIdx_iff_getElem?.1 hmem
  exact ⟨i, forbids_of_fillRow haug (haug.wellFormed hg.wellFormed) hi hrow⟩

theorem not_forbids_of_build (hg : g.Built) (h : (build g m).outcome = .ok t) :
    ¬ t.grammar.Forbids m.chosenPolicy i s e := by
  obtain ⟨top, start, hG⟩ := augments_of_build h
  have hwf := hG.wellFormed hg.wellFormed
  have reduces : ∀ n, t.grammar.Reduces i s n → Entry.Offers (t.entry? i s) (.reduce n) :=
    fun n hn => (offers_entry?_iff h).2 ((Grammar.asks_reduce_iff hG).2 hn)
  intro hforbids
  cases hforbids with
  | @accept n haccept hn =>
    have haccept := (offers_entry?_iff h).2 ((Grammar.asks_accept_iff hG).2 haccept)
    have hn := reduces n hn
    rw [Entry.offers_accept_iff.1 haccept] at hn
    exact hn
  | @shiftReduce q n hallow hq hn =>
    have hq := (offers_entry?_iff h).2 ((Grammar.asks_shift_iff hwf).2 hq)
    obtain ⟨c, hc, -⟩ := Entry.offers_shift_iff.1 hq
    have hpermitted := (permitted_of_build h hc).shiftReduce q n (hc ▸ hq) (hc ▸ reduces n hn)
    simp [hallow] at hpermitted
  | @reduceReduce n k hallow hne hn hk =>
    obtain ⟨c, hc, -⟩ := Entry.offers_reduce_iff.1 (reduces n hn)
    have hpermitted := (permitted_of_build h hc).reduceReduce n k (hc ▸ reduces n hn)
      (hc ▸ reduces k hk)
    exact hpermitted.elim hne (by simp [hallow])

theorem determines_of_build (hg : g.Built) (h : (build g m).outcome = .ok t) :
    t.grammar.Determines i s (t.entry? i s) := by
  obtain ⟨top, start, hG⟩ := augments_of_build h
  have hwf := hG.wellFormed hg.wellFormed
  have accept : Entry.Offers (t.entry? i s) .accept ↔ t.grammar.AcceptsAt i s :=
    (offers_entry?_iff h).trans (Grammar.asks_accept_iff hG)
  have goto : ∀ q, Entry.Offers (t.entry? i s) (.goto q) ↔
      s ∈ t.grammar.nonterminals ∧ t.grammar.Moves i s q :=
    fun q => (offers_entry?_iff h).trans Grammar.asks_goto_iff
  have shift : ∀ q, Entry.Offers (t.entry? i s) (.shift q) ↔ t.grammar.Shifts i s q :=
    fun q => (offers_entry?_iff h).trans (Grammar.asks_shift_iff hwf)
  have reduce : ∀ n, Entry.Offers (t.entry? i s) (.reduce n) ↔ t.grammar.Reduces i s n :=
    fun n => (offers_entry?_iff h).trans (Grammar.asks_reduce_iff hG)
  refine ⟨?_, ?_, fun q => ?_, fun c => ?_⟩
  · constructor
    · intro he
      rw [he] at accept goto shift reduce
      refine ⟨fun ha => accept.2 ha, fun q hq => ?_, fun n hn => (reduce n).2 hn⟩
      rcases Grammar.mem_of_moves hwf hq with hs | hs
      · exact (shift q).2 ⟨hs, hq⟩
      · exact (goto q).2 ⟨hs, hq⟩
    · rintro ⟨ha, hq, hn⟩
      cases he : t.entry? i s with
      | none => rfl
      | some e₀ =>
        obtain ⟨pl, hpl⟩ := (permitted_of_build h he).offers
        rw [← he] at hpl
        cases pl with
        | accept => exact absurd (accept.1 hpl) ha
        | goto q => exact absurd ((goto q).1 hpl).2 (hq q)
        | shift q => exact absurd ((shift q).1 hpl).2 (hq q)
        | reduce n => exact absurd ((reduce n).1 hpl) (hn n)
        | deadEnd => cases (offers_entry?_iff h).1 hpl
  · exact Entry.offers_accept_iff.symm.trans accept
  · exact Entry.offers_goto_iff.symm.trans (goto q)
  · constructor
    · intro he
      obtain ⟨pl, hpl⟩ := (permitted_of_build h he).offers
      rw [he] at shift reduce
      refine ⟨?_, shift, reduce⟩
      cases pl with
      | shift q => exact .inl ⟨q, (shift q).1 hpl⟩
      | reduce n => exact .inr ⟨n, (reduce n).1 hpl⟩
      | _ => cases hpl
    · rintro ⟨hsome, hshift, hreduces⟩
      obtain ⟨c', hc'⟩ : ∃ c', t.entry? i s = some (.act c') := by
        rcases hsome with ⟨q, hq⟩ | ⟨n, hn⟩
        · exact (Entry.offers_shift_iff.1 ((shift q).2 hq)).imp fun _ => And.left
        · exact (Entry.offers_reduce_iff.1 ((reduce n).2 hn)).imp fun _ => And.left
      rw [hc'] at shift reduce
      have e₁ : c'.shift = c.shift := Option.ext fun q => (shift q).trans (hshift q).symm
      have e₂ : c'.reduces = c.reduces := OrdSet.ext fun n => (reduce n).trans (hreduces n).symm
      rw [hc']
      obtain ⟨sh, rs⟩ := c'
      cases e₁
      cases e₂
      rfl

/-- A table can be built unless the policy forbids candidates of a state and a symbol.  If it cannot,
the error names such candidates; if it can, every entry holds exactly the candidates there. -/
theorem build_candidates (hg : g.Built) (hstart : g.start = some start)
    (hA : ∀ A, m.automaton = some A → ∃ q, A.start = some q) :
    ∃ G, g.augment = .ok G ∧
      ((∃ e, (build g m).outcome = .error e) ↔ ∃ i s e, G.Forbids m.chosenPolicy i s e) ∧
      (∀ e, (build g m).outcome = .error e → ∃ i s, G.Forbids m.chosenPolicy i s e) ∧
      ∀ t, (build g m).outcome = .ok t → t.grammar = G ∧ t.groups = G.groups ∧
        t.rows.length = G.groups.length ∧ ∀ i s, G.Determines i s (t.entry? i s) := by
  obtain ⟨G, hG⟩ : ∃ G, g.augment = .ok G := by
    unfold Grammar.augment
    rw [hstart]
    exact ⟨_, rfl⟩
  have same : ∀ t, (build g m).outcome = .ok t → t.grammar = G := by
    intro t ht
    exact Except.ok.inj ((build_outcome_iff.1 ht).1.symm.trans hG)
  refine ⟨G, hG, ⟨?_, ?_⟩, fun e he => forbids_of_build hg hG hA he, fun t ht => ?_⟩
  · rintro ⟨e, he⟩
    obtain ⟨i, s, hforbids⟩ := forbids_of_build hg hG hA he
    exact ⟨i, s, e, hforbids⟩
  · rintro ⟨i, s, e, hforbids⟩
    cases ht : (build g m).outcome with
    | error e' => exact ⟨e', rfl⟩
    | ok t =>
      rw [← same t ht] at hforbids
      exact absurd hforbids (not_forbids_of_build hg ht)
  · obtain ⟨-, -, hgroups, -, -, -⟩ := build_outcome_iff.1 ht
    rw [← same t ht]
    exact ⟨rfl, hgroups, length_rows_of_build ht, fun i s => determines_of_build hg ht⟩

/-- The grammar with conflicts has a table only beside an automaton. -/
theorem build_candidates_choice :
    ∃ g A G, Demo.choice = .ok g ∧ Demo.choiceLevels = .ok A ∧ g.start = some ⟨"S"⟩ ∧
      A.start = some 0 ∧ g.augment = .ok G ∧ (∃ i s e, G.Forbids .strict i s e) ∧
      ∃ t, (build g { automaton := some A }).outcome = .ok t ∧
        ∀ i s, G.Determines i s (t.entry? i s) := by
  have hstart : (Demo.choice.toOption.getD {}).start = some ⟨"S"⟩ := by decide +kernel
  have hstart' : (Demo.choiceLevels.toOption.getD {}).start = some 0 := by decide +kernel
  have hg := Demo.built_choice Demo.choice_eq
  obtain ⟨G, hG, hfail, -, -⟩ := build_candidates (m := {}) hg hstart (fun A hA => by cases hA)
  obtain ⟨G', hG', -, -, hentries⟩ :=
    build_candidates (m := { automaton := some (Demo.choiceLevels.toOption.getD {}) }) hg hstart
      (fun A hA => by
        cases hA
        exact ⟨0, hstart'⟩)
  cases hG.symm.trans hG'
  have hnone : (build (Demo.choice.toOption.getD {}) {}).outcome.toOption.isNone = true := by
    decide +kernel
  have hsome : (build (Demo.choice.toOption.getD {})
      { automaton := some (Demo.choiceLevels.toOption.getD {}) }).outcome.toOption.isSome = true := by
    decide +kernel
  obtain ⟨t, ht⟩ := Option.isSome_iff_exists.1 hsome
  have ht := toOption_eq_some_iff.1 ht
  refine ⟨_, _, G, Demo.choice_eq, Demo.choiceLevels_eq, hstart, hstart', hG, hfail.1 ?_, t, ht,
    (hentries t ht).2.2.2⟩
  cases he : (build (Demo.choice.toOption.getD {}) {}).outcome with
  | error e => exact ⟨e, rfl⟩
  | ok t =>
    rw [he] at hnone
    cases hnone

end Table

end TreeControl
