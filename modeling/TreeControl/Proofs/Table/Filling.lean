import TreeControl.Proofs.Attempt
import TreeControl.Proofs.Table.Items
import TreeControl.Table.Basic

/-! # What stands in a parse table

An entry offers what was put into it and nothing else: `Site.Puts` describes a single placement and
`offers_of_foldlM` a whole row.  So the entry of a state and a symbol offers exactly what the items
of the state ask for (`Table.offers_entry?_iff`).

An entry offers more than one thing only as far as the policy allows it (`Entry.Permitted`).  A
policy that keeps no conflict lets an entry offer one thing, and the table then is the same under any
policy (`Table.build_of_strict`). -/

namespace TreeControl

/-- An entry, which may still be empty, offers an action. -/
def Entry.Offers : Option Entry → Placement → Prop
  | some .accept, .accept => True
  | some (.goto q), .goto q' => q' = q
  | some (.act c), .shift q => c.shift = some q
  | some (.act c), .reduce r => r ∈ c.reduces
  | _, _ => False

theorem Entry.offers_accept_iff {e : Option Entry} : Offers e .accept ↔ e = some .accept := by
  rcases e with _ | (_ | _ | _) <;> simp [Offers]

theorem Entry.offers_goto_iff {e : Option Entry} {q : Nat} :
    Offers e (.goto q) ↔ e = some (.goto q) := by
  rcases e with _ | (_ | _ | _) <;> simp [Offers, eq_comm]

theorem Entry.offers_shift_iff {e : Option Entry} {q : Nat} :
    Offers e (.shift q) ↔ ∃ c, e = some (.act c) ∧ c.shift = some q := by
  rcases e with _ | (_ | _ | _) <;> simp [Offers]

theorem Entry.offers_reduce_iff {e : Option Entry} {r : Nat} :
    Offers e (.reduce r) ↔ ∃ c, e = some (.act c) ∧ r ∈ c.reduces := by
  rcases e with _ | (_ | _ | _) <;> simp [Offers]

/-- An entry offers something, and more than one thing only as far as a policy allows it. -/
structure Entry.Permitted (policy : Policy) (e : Entry) : Prop where
  offers : ∃ pl, Offers (some e) pl
  shiftReduce : ∀ q n, Offers (some e) (.shift q) → Offers (some e) (.reduce n) →
    policy.allowShiftReduce = true
  reduceReduce : ∀ n k, Offers (some e) (.reduce n) → Offers (some e) (.reduce k) →
    n = k ∨ policy.allowReduceReduce = true

/-- Where no conflict is kept, an entry offers one thing. -/
theorem Entry.Permitted.sole {policy : Policy} {e : Entry} (h : e.Permitted policy)
    (hsr : policy.allowShiftReduce = false) (hrr : policy.allowReduceReduce = false) :
    ∃ pl, ∀ pl', Offers (some e) pl' ↔ pl' = pl := by
  obtain ⟨pl, hpl⟩ := h.offers
  refine ⟨pl, fun pl' => ⟨fun hpl' => ?_, fun e => e ▸ hpl⟩⟩
  have apart : ∀ q n, Offers (some e) (.shift q) → ¬ Offers (some e) (.reduce n) := by
    intro q n hq hn
    have := h.shiftReduce q n hq hn
    simp [hsr] at this
  have one : ∀ n k, Offers (some e) (.reduce n) → Offers (some e) (.reduce k) → n = k := by
    intro n k hn hk
    exact (h.reduceReduce n k hn hk).resolve_right (by simp [hrr])
  cases e with
  | accept =>
    cases pl <;> cases pl' <;> simp [Offers] at hpl hpl' ⊢
  | goto q =>
    cases pl <;> cases pl' <;> simp [Offers] at hpl hpl' ⊢
    rw [hpl, hpl']
  | act c =>
    cases pl with
    | shift q =>
      cases pl' with
      | shift q' => exact congrArg _ (Option.some.inj (hpl'.symm.trans hpl))
      | reduce n => exact absurd hpl' (apart q n hpl)
      | _ => cases hpl'
    | reduce n =>
      cases pl' with
      | shift q => exact absurd hpl (apart q n hpl')
      | reduce k => exact congrArg _ (one k n hpl' hpl)
      | _ => cases hpl'
    | _ => cases hpl

/-! ### Single placements -/

namespace Site

variable {site : Site} {e : Option Entry} {e' e₀ : Entry} {pl pl' : Placement} {c c' : Cell}
  {target rule : Nat}

/-- What a placement makes of an entry. -/
inductive Puts (site : Site) : Option Entry → Placement → Entry → Prop
  | accept : Puts site none .accept .accept
  | goto (q : Nat) : Puts site none (.goto q) (.goto q)
  | shift (q : Nat) : Puts site none (.shift q) (.act { shift := some q })
  | reduce (r : Nat) : Puts site none (.reduce r) (.act { reduces := .singleton r })
  | kept {e : Entry} {pl : Placement} : Entry.Offers (some e) pl → Puts site (some e) pl e
  | addShift {c : Cell} (q : Nat) : c.shift = none →
      (c.reduces.isEmpty = true ∨ site.policy.allowShiftReduce = true) →
      Puts site (some (.act c)) (.shift q) (.act { c with shift := some q })
  | addReduce {c : Cell} (r : Nat) : ¬ r ∈ c.reduces →
      (c.shift = none ∨ site.policy.allowShiftReduce = true) →
      (c.reduces.isEmpty = true ∨ site.policy.allowReduceReduce = true) →
      Puts site (some (.act c)) (.reduce r) (.act { c with reduces := c.reduces.insert r })

theorem keepShiftReduce_outcome_iff {u : Unit} :
    (site.keepShiftReduce target rule).outcome = .ok u ↔
      site.policy.allowShiftReduce = true := by
  unfold keepShiftReduce
  cases site.policy.allowShiftReduce <;> cases site.policy.report <;> simp

theorem keepReduceReduce_outcome_iff {u : Unit} :
    (site.keepReduceReduce target rule).outcome = .ok u ↔
      site.policy.allowReduceReduce = true := by
  unfold keepReduceReduce
  cases site.policy.allowReduceReduce <;> cases site.policy.report <;> simp

theorem addShift_outcome_iff :
    (site.addShift c target).outcome = .ok c' ↔ (c.shift = some target ∧ c' = c) ∨
      (c.shift = none ∧ (c.reduces.isEmpty = true ∨ site.policy.allowShiftReduce = true) ∧
        c' = { c with shift := some target }) := by
  unfold addShift
  cases hs : c.shift with
  | some first =>
    dsimp only
    split
    · rename_i h
      simp [h, eq_comm (a := c')]
    · rename_i h
      simp [h]
  | none =>
    dsimp only
    cases hm : c.reduces.min? with
    | none => simp [OrdSet.min?_eq_none_iff.1 hm, eq_comm (a := c')]
    | some r =>
      have hne : ¬ c.reduces.isEmpty = true := by
        rw [← OrdSet.min?_eq_none_iff, hm]
        exact Option.some_ne_none r
      simp only [Attempt.outcome_bind, bind_eq_ok_iff, keepShiftReduce_outcome_iff,
        Attempt.outcome_pure, Except.ok.injEq]
      simp [hne, eq_comm (a := c')]

theorem addReduce_outcome_iff :
    (site.addReduce c rule).outcome = .ok c' ↔ (rule ∈ c.reduces ∧ c' = c) ∨
      (¬ rule ∈ c.reduces ∧ (c.shift = none ∨ site.policy.allowShiftReduce = true) ∧
        (c.reduces.isEmpty = true ∨ site.policy.allowReduceReduce = true) ∧
        c' = { c with reduces := c.reduces.insert rule }) := by
  unfold addReduce
  split
  · rename_i h
    simp [h, eq_comm (a := c')]
  · rename_i h
    have hmin : ∀ r, c.reduces.min? = some r → ¬ c.reduces.isEmpty = true := by
      intro r hm he
      rw [OrdSet.min?_eq_none_iff.2 he] at hm
      cases hm
    cases hs : c.shift with
    | none =>
      cases hm : c.reduces.min? with
      | none => simp [h, OrdSet.min?_eq_none_iff.1 hm, eq_comm (a := c')]
      | some r =>
        simp only [Attempt.outcome_bind, bind_eq_ok_iff, keepReduceReduce_outcome_iff,
          Attempt.outcome_pure, Except.ok.injEq]
        simp [h, hmin r hm, eq_comm (a := c')]
    | some q =>
      cases hm : c.reduces.min? with
      | none =>
        simp only [Attempt.outcome_bind, bind_eq_ok_iff, keepShiftReduce_outcome_iff,
          Attempt.outcome_pure, Except.ok.injEq]
        simp [h, OrdSet.min?_eq_none_iff.1 hm, eq_comm (a := c')]
      | some r =>
        simp only [Attempt.outcome_bind, bind_eq_ok_iff, keepShiftReduce_outcome_iff,
          keepReduceReduce_outcome_iff, Attempt.outcome_pure, Except.ok.injEq]
        simp [h, hmin r hm, eq_comm (a := c')]

theorem puts_of_place_none (h : (site.place none pl).outcome = .ok e') : site.Puts none pl e' := by
  cases pl with
  | accept =>
    cases h
    exact .accept
  | goto q =>
    cases h
    exact .goto q
  | shift q =>
    cases h
    exact .shift q
  | reduce r =>
    cases h
    exact .reduce r
  | deadEnd => cases h

theorem puts_of_place_some (h : (site.place (some e₀) pl).outcome = .ok e') :
    site.Puts (some e₀) pl e' := by
  cases e₀ with
  | accept =>
    cases pl with
    | accept =>
      cases h
      exact .kept trivial
    | goto q => cases h
    | shift q => cases h
    | reduce r => cases h
    | deadEnd => cases h
  | goto q =>
    cases pl with
    | accept => cases h
    | goto q' =>
      simp only [place] at h
      split at h
      · rename_i hq
        cases h
        exact .kept hq.symm
      · cases h
    | shift q' => cases h
    | reduce r => cases h
    | deadEnd => cases h
  | act c =>
    cases pl with
    | accept =>
      simp only [place] at h
      split at h
      · cases h
      · cases h
    | goto q => cases h
    | shift q =>
      simp only [place, Attempt.outcome_bind, bind_eq_ok_iff, addShift_outcome_iff,
        Attempt.outcome_pure, Except.ok.injEq] at h
      obtain ⟨c', h, rfl⟩ := h
      rcases h with ⟨hs, rfl⟩ | ⟨hs, hr, rfl⟩
      · exact .kept hs
      · exact .addShift q hs hr
    | reduce r =>
      simp only [place, Attempt.outcome_bind, bind_eq_ok_iff, addReduce_outcome_iff,
        Attempt.outcome_pure, Except.ok.injEq] at h
      obtain ⟨c', h, rfl⟩ := h
      rcases h with ⟨hr, rfl⟩ | ⟨hr, hs, hrr, rfl⟩
      · exact .kept hr
      · exact .addReduce r hr hs hrr
    | deadEnd => cases h

theorem place_of_offers (h : Entry.Offers (some e') pl) :
    (site.place (some e') pl).outcome = .ok e' := by
  cases e' with
  | accept =>
    cases pl with
    | accept => rfl
    | _ => cases h
  | goto q =>
    cases pl with
    | goto q' =>
      cases h
      simp [place]
    | _ => cases h
  | act c =>
    cases pl with
    | shift q =>
      simp only [place, Attempt.outcome_bind, bind_eq_ok_iff, addShift_outcome_iff]
      exact ⟨c, .inl ⟨h, rfl⟩, rfl⟩
    | reduce r =>
      simp only [place, Attempt.outcome_bind, bind_eq_ok_iff, addReduce_outcome_iff]
      exact ⟨c, .inl ⟨h, rfl⟩, rfl⟩
    | _ => cases h

theorem place_outcome_iff : (site.place e pl).outcome = .ok e' ↔ site.Puts e pl e' := by
  constructor
  · intro h
    cases e with
    | none => exact puts_of_place_none h
    | some e₀ => exact puts_of_place_some h
  · intro h
    cases h with
    | accept => rfl
    | goto q => rfl
    | shift q => rfl
    | reduce r => rfl
    | kept h => exact place_of_offers h
    | addShift q hs hr =>
      simp only [place, Attempt.outcome_bind, bind_eq_ok_iff, addShift_outcome_iff]
      exact ⟨_, .inr ⟨hs, hr, rfl⟩, rfl⟩
    | addReduce r hr hs hrr =>
      simp only [place, Attempt.outcome_bind, bind_eq_ok_iff, addReduce_outcome_iff]
      exact ⟨_, .inr ⟨hr, hs, hrr, rfl⟩, rfl⟩

theorem Puts.offers_iff (h : site.Puts e pl e') :
    Entry.Offers (some e') pl' ↔ Entry.Offers e pl' ∨ pl' = pl := by
  cases h with
  | accept => cases pl' <;> simp [Entry.Offers]
  | goto q => cases pl' <;> simp [Entry.Offers]
  | shift q => cases pl' <;> simp [Entry.Offers, eq_comm]
  | reduce r => cases pl' <;> simp [Entry.Offers]
  | kept h =>
    constructor
    · exact .inl
    · intro h'
      exact h'.elim id fun e => e ▸ h
  | addShift q hs _ => cases pl' <;> simp [Entry.Offers, hs, eq_comm]
  | addReduce r hr _ _ => cases pl' <;> simp [Entry.Offers, or_comm]

theorem Puts.permitted (h : site.Puts e pl e')
    (he : ∀ e₀, e = some e₀ → e₀.Permitted site.policy) : e'.Permitted site.policy := by
  cases h with
  | accept => exact ⟨⟨.accept, trivial⟩, by simp [Entry.Offers], by simp [Entry.Offers]⟩
  | goto q => exact ⟨⟨.goto q, rfl⟩, by simp [Entry.Offers], by simp [Entry.Offers]⟩
  | shift q => exact ⟨⟨.shift q, rfl⟩, by simp [Entry.Offers], by simp [Entry.Offers]⟩
  | reduce r =>
    refine ⟨⟨.reduce r, OrdSet.mem_singleton.2 rfl⟩, by simp [Entry.Offers], fun n k hn hk => ?_⟩
    exact .inl ((OrdSet.mem_singleton.1 hn).trans (OrdSet.mem_singleton.1 hk).symm)
  | kept _ => exact he _ rfl
  | @addShift c q hs hr =>
    refine ⟨⟨.shift q, rfl⟩, fun _ n _ hn => hr.resolve_left ?_, (he _ rfl).reduceReduce⟩
    rw [Bool.not_eq_true, OrdSet.isEmpty_eq_false_iff]
    exact ⟨n, hn⟩
  | @addReduce c r hr hs hrr =>
    refine ⟨⟨.reduce r, OrdSet.mem_insert.2 (.inl rfl)⟩, fun q _ hq _ => ?_, fun n k hn hk => ?_⟩
    · have hq : c.shift = some q := hq
      exact hs.resolve_left (by simp [hq])
    · rcases hrr with hempty | hallow
      · have none_of : ∀ x, ¬ x ∈ c.reduces := by
          intro x hx
          rw [OrdSet.mem_def, List.isEmpty_iff.1 hempty] at hx
          cases hx
        rcases OrdSet.mem_insert.1 hn with rfl | hn
        · exact .inl ((OrdSet.mem_insert.1 hk).resolve_right (none_of k)).symm
        · exact absurd hn (none_of n)
      · exact .inr hallow

/-- What can be put into an entry where no conflict is kept can be put into it under any policy. -/
theorem Puts.of_strict {site' : Site} (h : site.Puts e pl e')
    (hsr : site.policy.allowShiftReduce = false) (hrr : site.policy.allowReduceReduce = false) :
    site'.Puts e pl e' := by
  cases h with
  | accept => exact .accept
  | goto q => exact .goto q
  | shift q => exact .shift q
  | reduce r => exact .reduce r
  | kept h => exact .kept h
  | addShift q hs hr => exact .addShift q hs (.inl (hr.resolve_right (by simp [hsr])))
  | addReduce r hr hs hempty =>
    exact .addReduce r hr (.inl (hs.resolve_right (by simp [hsr])))
      (.inl (hempty.resolve_right (by simp [hrr])))

end Site

/-! ### Rows -/

/-- What the items of a state ask for in its row. -/
inductive Grammar.Asks (G : Grammar) (p : Prediction) (q : Nat) : Symbol → Placement → Prop
  | accept {i : Item} : G.Holds q i → i.rule = 0 → G.expected? i = none →
      Asks G p q .blank .accept
  | reduce {i : Item} {r : Rule} {s : Symbol} : G.Holds q i → i.rule ≠ 0 →
      G.rules[i.rule]? = some r → G.expected? i = none → s ∈ p.follow r.lhs →
      Asks G p q s (.reduce i.rule)
  | goto {s : Symbol} {q' : Nat} : G.Moves q s q' → s ∈ G.nonterminals →
      Asks G p q s (.goto q')
  | shift {s : Symbol} {q' : Nat} : G.Moves q s q' → ¬ s ∈ G.nonterminals →
      Asks G p q s (.shift q')

namespace Table

variable {g G : Grammar} {p : Prediction} {m : Means} {t : Table} {policy policy' : Policy}
  {state q : Nat} {s top start : Symbol} {pl : Placement} {row row' : Row}
  {l : List (Symbol × Placement)} {group : Group}

theorem fillEntry_outcome_iff {x : Symbol × Placement} :
    (fillEntry G policy state row x).outcome = .ok row' ↔
      ∃ e, Site.Puts ⟨G, policy, state, x.1⟩ (row.get? x.1) x.2 e ∧ row.insert x.1 e = row' := by
  simp only [fillEntry, Attempt.outcome_bind, bind_eq_ok_iff, Site.place_outcome_iff,
    Attempt.outcome_pure, Except.ok.injEq]

theorem offers_of_foldlM
    (h : l.foldlM (fun row x => (fillEntry G policy state row x).outcome) row = .ok row') :
    Entry.Offers (row'.get? s) pl ↔ Entry.Offers (row.get? s) pl ∨ (s, pl) ∈ l := by
  induction l generalizing row with
  | nil =>
    cases h
    simp
  | cons x l ih =>
    rw [List.foldlM_cons, bind_eq_ok_iff] at h
    obtain ⟨row₁, hx, h⟩ := h
    obtain ⟨e, hputs, rfl⟩ := fillEntry_outcome_iff.1 hx
    rw [ih h, OrdMap.get?_insert, List.mem_cons, ← or_assoc]
    refine or_congr_left ?_
    obtain ⟨y, pl₀⟩ := x
    split
    · rename_i hs
      rw [hputs.offers_iff, hs]
      simp
    · rename_i hs
      simp [hs]

theorem permitted_of_foldlM (hrow : ∀ s e, row.get? s = some e → e.Permitted policy)
    (h : l.foldlM (fun row x => (fillEntry G policy state row x).outcome) row = .ok row') :
    ∀ s e, row'.get? s = some e → e.Permitted policy := by
  induction l generalizing row with
  | nil =>
    cases h
    exact hrow
  | cons x l ih =>
    rw [List.foldlM_cons, bind_eq_ok_iff] at h
    obtain ⟨row₁, hx, h⟩ := h
    obtain ⟨e, hputs, rfl⟩ := fillEntry_outcome_iff.1 hx
    refine ih (fun s e' he' => ?_) h
    rw [OrdMap.get?_insert] at he'
    split at he'
    · cases he'
      exact hputs.permitted fun e₀ he₀ => hrow x.1 e₀ he₀
    · exact hrow s e' he'

theorem foldlM_of_strict (hsr : policy.allowShiftReduce = false)
    (hrr : policy.allowReduceReduce = false)
    (h : l.foldlM (fun row x => (fillEntry G policy state row x).outcome) row = .ok row') :
    l.foldlM (fun row x => (fillEntry G policy' state row x).outcome) row = .ok row' := by
  induction l generalizing row with
  | nil => exact h
  | cons x l ih =>
    rw [List.foldlM_cons, bind_eq_ok_iff] at h ⊢
    obtain ⟨row₁, hx, h⟩ := h
    obtain ⟨e, hputs, he⟩ := fillEntry_outcome_iff.1 hx
    have hputs' : Site.Puts ⟨G, policy', state, x.1⟩ (row.get? x.1) x.2 e :=
      hputs.of_strict hsr hrr
    exact ⟨row₁, fillEntry_outcome_iff.2 ⟨e, hputs', he⟩, ih h⟩

/-- The placements of a state's items are what they ask for; no expected symbol leads nowhere. -/
theorem mem_placements_iff (hG : G.Augments g top start) (hq : G.groups[q]? = some group) :
    (s, pl) ∈ group.items.toList.flatMap (placements G p group) ↔ G.Asks p q s pl := by
  rw [List.mem_flatMap]
  constructor
  · intro h
    obtain ⟨i, hi, hpl⟩ := h
    have hholds : G.Holds q i := ⟨group, hq, hi⟩
    unfold placements at hpl
    cases hr : G.rules[i.rule]? with
    | none =>
      rw [hr] at hpl
      cases hpl
    | some r =>
      rw [hr] at hpl
      dsimp only at hpl
      cases hx : r.rhs[i.marker]? with
      | none =>
        rw [hx] at hpl
        dsimp only at hpl
        have hdone : G.expected? i = none := by simp [Grammar.expected?, hr, hx]
        split at hpl
        · rename_i hzero
          cases List.mem_singleton.1 hpl
          exact .accept hholds hzero hdone
        · rename_i hzero
          obtain ⟨x, hx, e⟩ := List.mem_map.1 hpl
          cases e
          exact .reduce hholds hzero hr hdone hx
      | some x =>
        rw [hx] at hpl
        dsimp only at hpl
        have hexp : G.expected? i = some x := Grammar.expected?_eq_some_iff.2 ⟨r, hr, hx⟩
        obtain ⟨q', ⟨group', hq', hmove⟩, -⟩ := hG.exists_moves hholds hexp
        cases hq.symm.trans hq'
        rw [hmove] at hpl
        cases List.mem_singleton.1 hpl
        split
        · rename_i hn
          exact .goto ⟨group, hq, hmove⟩ (Grammar.isNonterminal_iff.1 hn)
        · rename_i hn
          exact .shift ⟨group, hq, hmove⟩ fun h => hn (Grammar.isNonterminal_iff.2 h)
  · -- An item behind a move is found again through the symbol it expects.
    have moved : ∀ q', G.Moves q s q' → ∃ i ∈ group.items.toList,
        placements G p group i = [(s, if G.isNonterminal s then .goto q' else .shift q')] := by
      intro q' hmove
      obtain ⟨i, ⟨group', hq', hi⟩, hexp⟩ := Grammar.exists_expected_of_moves hmove
      cases hq.symm.trans hq'
      obtain ⟨group', hq', hget⟩ := hmove
      cases hq.symm.trans hq'
      obtain ⟨r, hr, hx⟩ := Grammar.expected?_eq_some_iff.1 hexp
      refine ⟨i, hi, ?_⟩
      unfold placements
      simp only [hr, hx, hget]
    have completed : ∀ (i : Item) (r : Rule), G.rules[i.rule]? = some r → G.expected? i = none →
        placements G p group i = if i.rule = 0 then [(.blank, .accept)]
          else (p.follow r.lhs).toList.map (·, .reduce i.rule) := by
      intro i r hr hdone
      have hx : r.rhs[i.marker]? = none := by simpa [Grammar.expected?, hr] using hdone
      unfold placements
      simp only [hr, hx]
    intro h
    cases h with
    | @accept i hholds hzero hdone =>
      obtain ⟨group', hq', hi⟩ := hholds
      cases hq.symm.trans hq'
      refine ⟨i, hi, ?_⟩
      rw [completed i _ (hzero ▸ hG.rule_zero) hdone, if_pos hzero]
      exact List.mem_singleton.2 rfl
    | @reduce i r _ hholds hzero hr hdone hs =>
      obtain ⟨group', hq', hi⟩ := hholds
      cases hq.symm.trans hq'
      refine ⟨i, hi, ?_⟩
      rw [completed i r hr hdone, if_neg hzero]
      exact List.mem_map.2 ⟨s, hs, rfl⟩
    | @goto _ q' hmove hn =>
      obtain ⟨i, hi, hpl⟩ := moved q' hmove
      refine ⟨i, hi, ?_⟩
      rw [hpl, if_pos (Grammar.isNonterminal_iff.2 hn)]
      exact List.mem_singleton.2 rfl
    | @shift _ q' hmove hn =>
      obtain ⟨i, hi, hpl⟩ := moved q' hmove
      refine ⟨i, hi, ?_⟩
      rw [hpl, if_neg fun h => hn (Grammar.isNonterminal_iff.1 h)]
      exact List.mem_singleton.2 rfl

/-! ### Whole tables -/

theorem goto?_eq_some_iff {q' : Nat} :
    t.goto? q s = some q' ↔ Entry.Offers (t.entry? q s) (.goto q') := by
  rw [Entry.offers_goto_iff, goto?]
  split
  · rename_i he
    rw [he]
    simp
  · rename_i he
    simp only [reduceCtorEq, false_iff]
    exact he q'

theorem build_outcome_iff :
    (build g m).outcome = .ok t ↔
      g.augment = .ok t.grammar ∧ (prepareLevels m).outcome = .ok t.automaton ∧
      t.groups = t.grammar.groups ∧
      t.groups.zipIdx.mapM
        (fun x => (fillRow t.grammar t.grammar.predict.value m.chosenPolicy x).outcome) =
          .ok t.rows ∧
      t.precedence = m.precedence ∧ t.policy = m.chosenPolicy := by
  simp only [build, Attempt.outcome_bind, Attempt.outcome_ofExcept, Attempt.outcome_lift,
    Attempt.outcome_mapM, Attempt.outcome_pure, bind_eq_ok_iff, mapError_eq_ok_iff,
    Except.ok.injEq]
  constructor
  · intro h
    obtain ⟨G, hG, D, hD, _, rfl, _, rfl, rows, hrows, rfl⟩ := h
    exact ⟨hG, hD, rfl, hrows, rfl, rfl⟩
  · intro h
    obtain ⟨hG, hD, hgroups, hrows, hprec, hpol⟩ := h
    rw [hgroups] at hrows
    refine ⟨_, hG, _, hD, _, rfl, _, rfl, _, hrows, ?_⟩
    rw [← hprec, ← hpol]
    obtain ⟨G, groups, rows, precedence, D, policy⟩ := t
    dsimp only at hgroups
    rw [hgroups]
    rfl

theorem prepareLevels_outcome_iff {A : Automaton} {D : Option Automaton}
    (hA : m.automaton = some A) :
    (prepareLevels m).outcome = .ok D ↔ ∃ D', A.prepare.outcome = .ok D' ∧ D = some D' := by
  unfold prepareLevels
  rw [hA]
  simp only [Attempt.outcome_bind, Attempt.outcome_adapt, Attempt.outcome_pure, bind_eq_ok_iff,
    mapError_eq_ok_iff, Except.ok.injEq, eq_comm (a := D)]

theorem prepareLevels_outcome_none (hA : m.automaton = none) :
    (prepareLevels m).outcome = .ok none := by
  unfold prepareLevels
  rw [hA]
  rfl

theorem automaton_eq_none_of_build (h : (build g m).outcome = .ok t) (hm : m.automaton = none) :
    t.automaton = none := by
  obtain ⟨-, hlevels, -, -, -, -⟩ := build_outcome_iff.1 h
  rw [prepareLevels_outcome_none hm, Except.ok.injEq] at hlevels
  exact hlevels.symm

theorem augments_of_build (h : (build g m).outcome = .ok t) :
    ∃ top start, t.grammar.Augments g top start :=
  Grammar.augments_of_augment (build_outcome_iff.1 h).1

theorem length_rows_of_build (h : (build g m).outcome = .ok t) :
    t.rows.length = t.grammar.groups.length := by
  obtain ⟨-, -, hgroups, hrows, -, -⟩ := build_outcome_iff.1 h
  rw [mapM_eq_ok_iff, hgroups] at hrows
  simpa using hrows.length_eq.symm

/-- A state has a row if it is one of the groups, and the row is filled with the placements of its
items. -/
theorem row_cases (h : (build g m).outcome = .ok t) (q : Nat) :
    (t.grammar.groups[q]? = none ∧ t.rows[q]? = none) ∨
      ∃ group row, t.grammar.groups[q]? = some group ∧ t.rows[q]? = some row ∧
        (group.items.toList.flatMap
          (placements t.grammar t.grammar.predict.value group)).foldlM
            (fun row x => (fillEntry t.grammar m.chosenPolicy q row x).outcome) ∅ = .ok row := by
  obtain ⟨-, -, hgroups, hrows, -, -⟩ := build_outcome_iff.1 h
  rw [mapM_eq_ok_iff, hgroups] at hrows
  have hlen := (length_rows_of_build h).symm
  rcases Nat.lt_or_ge q t.grammar.groups.length with hq | hq
  · right
    have hrow := hrows.get (by simpa using hq) (hlen ▸ hq)
    rw [fillRow, Attempt.outcome_foldlM] at hrow
    refine ⟨_, _, List.getElem?_eq_getElem hq, List.getElem?_eq_getElem (hlen ▸ hq), ?_⟩
    simpa using hrow
  · left
    rw [List.getElem?_eq_none_iff, List.getElem?_eq_none_iff]
    exact ⟨hq, hlen ▸ hq⟩

/-- The entry of a state and a symbol offers exactly what the items of the state ask for. -/
theorem offers_entry?_iff (h : (build g m).outcome = .ok t) :
    Entry.Offers (t.entry? q s) pl ↔ t.grammar.Asks t.grammar.predict.value q s pl := by
  obtain ⟨top, start, hG⟩ := augments_of_build h
  unfold entry?
  rcases row_cases h q with ⟨hgroup, hrow⟩ | ⟨group, row, hgroup, hrow, hfold⟩
  · rw [hrow]
    constructor
    · intro hoffer
      exact absurd hoffer (by simp [Entry.Offers])
    · intro hasks
      have none_of : ∀ group, t.grammar.groups[q]? ≠ some group := by simp [hgroup]
      cases hasks with
      | accept hi _ _ => exact absurd hi.choose_spec.1 (none_of _)
      | reduce hi _ _ _ _ => exact absurd hi.choose_spec.1 (none_of _)
      | goto hq _ => exact absurd hq.choose_spec.1 (none_of _)
      | shift hq _ => exact absurd hq.choose_spec.1 (none_of _)
  · rw [hrow, Option.bind_some, offers_of_foldlM hfold, mem_placements_iff hG hgroup]
    simp [Entry.Offers]

theorem permitted_of_build (h : (build g m).outcome = .ok t) {e : Entry}
    (he : t.entry? q s = some e) : e.Permitted m.chosenPolicy := by
  unfold entry? at he
  rcases row_cases h q with ⟨-, hrow⟩ | ⟨group, row, -, hrow, hfold⟩
  · rw [hrow] at he
    cases he
  · rw [hrow] at he
    exact permitted_of_foldlM (fun s e he => by cases he) hfold s e he

theorem sole_entry? (h : (build g m).outcome = .ok t)
    (hsr : m.chosenPolicy.allowShiftReduce = false)
    (hrr : m.chosenPolicy.allowReduceReduce = false) {e : Entry} (he : t.entry? q s = some e) :
    ∃ pl, ∀ pl', Entry.Offers (some e) pl' ↔ pl' = pl :=
  (permitted_of_build h he).sole hsr hrr

/-- A table that can be built without keeping a conflict has the same rows under any policy. -/
theorem build_of_strict {m' : Means} {D : Option Automaton} (h : (build g m).outcome = .ok t)
    (hsr : m.chosenPolicy.allowShiftReduce = false)
    (hrr : m.chosenPolicy.allowReduceReduce = false)
    (hD : (prepareLevels m').outcome = .ok D) :
    (build g m').outcome = .ok { t with
      precedence := m'.precedence, automaton := D, policy := m'.chosenPolicy } := by
  obtain ⟨hG, -, hgroups, hrows, -, -⟩ := build_outcome_iff.1 h
  refine build_outcome_iff.2 ⟨hG, hD, hgroups, ?_, rfl, rfl⟩
  rw [mapM_eq_ok_iff] at hrows ⊢
  refine hrows.imp fun x row hrow => ?_
  rw [fillRow, Attempt.outcome_foldlM] at hrow ⊢
  exact foldlM_of_strict hsr hrr hrow

end Table

end TreeControl
