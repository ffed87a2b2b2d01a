import TreeControl.Proofs.Grammar.Built
import TreeControl.Proofs.Search
import TreeControl.Table.Group

/-! # The items of a state

Both searches behind the groups are exact: a closed set of items holds what its items ask for and
nothing else (`mem_closeItems_iff`), and the item sets hold every set one symbol further
(`itemsAfter_mem_itemSets`).

After that the numbering of the groups is hidden behind two relations: `Holds` says which items a
state has, and `Moves` where it leads over a symbol. -/

namespace TreeControl.Grammar

variable {g G : Grammar} {s top start : Symbol} {i j : Item} {I : OrdSet Item} {q q' : Nat}

/-! ### Closed sets of items -/

theorem expected?_eq_some_iff :
    g.expected? i = some s ↔ ∃ r, g.rules[i.rule]? = some r ∧ r.rhs[i.marker]? = some s := by
  unfold expected?
  rw [Option.bind_eq_some_iff]

theorem mem_predicted_iff :
    j ∈ g.predicted i ↔ ∃ r, g.rules[j.rule]? = some r ∧ g.expected? i = some r.lhs ∧
      r.lhs ∈ g.nonterminals ∧ j.marker = 0 := by
  unfold predicted
  cases hi : g.expected? i with
  | none => simp
  | some s =>
    dsimp only
    split
    · rename_i hs
      rw [isNonterminal_iff] at hs
      simp only [rulesOf, List.mem_map, List.mem_filter, decide_eq_true_eq]
      constructor
      · rintro ⟨_, ⟨⟨r, n⟩, ⟨hr, rfl⟩, rfl⟩, rfl⟩
        rw [List.mem_zipIdx_iff_getElem?] at hr
        exact ⟨r, hr, rfl, hs, rfl⟩
      · rintro ⟨r, hr, hlhs, -, hm⟩
        cases hlhs
        refine ⟨(j.rule, r), ⟨(r, j.rule), ⟨List.mem_zipIdx_iff_getElem?.2 hr, rfl⟩, rfl⟩, ?_⟩
        rw [← hm]
    · rename_i hs
      rw [isNonterminal_iff] at hs
      simp only [List.not_mem_nil, false_iff]
      rintro ⟨r, -, hlhs, hmem, -⟩
      cases hlhs
      exact hs hmem

theorem lt_length_of_mem_predicted (h : j ∈ g.predicted i) : j.rule < g.rules.length := by
  obtain ⟨r, hr, -⟩ := mem_predicted_iff.1 h
  exact (List.getElem?_eq_some_iff.1 hr).1

theorem marker_of_mem_predicted (h : j ∈ g.predicted i) : j.marker = 0 := by
  obtain ⟨_, -, -, -, hm⟩ := mem_predicted_iff.1 h
  exact hm

theorem enough_closeItems (g : Grammar) (I : OrdSet Item) :
    Enough g.predicted (I.size + g.rules.length) I.toList := by
  refine ⟨OrdSet.nodup_toList I, I.toList ++ (List.range g.rules.length).map (⟨·, 0⟩),
    fun j hj => List.mem_append_left _ hj, fun j _ k hk => ?_, ?_⟩
  · refine List.mem_append_right _ (List.mem_map.2 ⟨k.rule, ?_, ?_⟩)
    · exact List.mem_range.2 (lt_length_of_mem_predicted hk)
    · rw [← marker_of_mem_predicted hk]
  · rw [List.length_append, List.length_map, List.length_range]
    exact Nat.le_refl _

/-- A closed set holds what can be reached from its items by asking for rules. -/
theorem mem_closeItems_iff :
    i ∈ g.closeItems I ↔
      ∃ j ∈ I, Relation.ReflTransGen (fun a b => b ∈ g.predicted a) j i := by
  unfold closeItems
  rw [OrdSet.mem_ofList]
  exact mem_explore_iff (g.enough_closeItems I)

theorem mem_closeItems_of_mem (h : i ∈ I) : i ∈ g.closeItems I :=
  mem_closeItems_iff.2 ⟨i, h, .refl⟩

theorem predicted_mem_closeItems (hi : i ∈ g.closeItems I) (hj : j ∈ g.predicted i) :
    j ∈ g.closeItems I := by
  obtain ⟨k, hk, h⟩ := mem_closeItems_iff.1 hi
  exact mem_closeItems_iff.2 ⟨k, hk, h.tail hj⟩

theorem closeItems_cases (h : i ∈ g.closeItems I) :
    i ∈ I ∨ ∃ j ∈ g.closeItems I, i ∈ g.predicted j := by
  obtain ⟨k, hk, h⟩ := mem_closeItems_iff.1 h
  cases h with
  | refl => exact .inl hk
  | tail hkj hji => exact .inr ⟨_, mem_closeItems_iff.2 ⟨k, hk, hkj⟩, hji⟩

/-! ### Item sets -/

theorem mem_itemsAfter_of_expected (hi : i ∈ I) (hs : g.expected? i = some s) :
    i.advance ∈ g.itemsAfter I s := by
  refine mem_closeItems_of_mem (OrdSet.mem_map.2 ⟨i, ?_, rfl⟩)
  exact OrdSet.mem_filter.2 ⟨hi, decide_eq_true hs⟩

theorem itemsAfter_cases (h : i ∈ g.itemsAfter I s) :
    (∃ j ∈ I, g.expected? j = some s ∧ i = j.advance) ∨
      ∃ j ∈ g.itemsAfter I s, i ∈ g.predicted j := by
  rcases closeItems_cases h with h | h
  · obtain ⟨j, hj, rfl⟩ := OrdSet.mem_map.1 h
    obtain ⟨hj, hs⟩ := OrdSet.mem_filter.1 hj
    exact .inl ⟨j, hj, of_decide_eq_true hs, rfl⟩
  · exact .inr h

theorem mem_expectedSymbols_iff :
    s ∈ g.expectedSymbols I ↔ ∃ i ∈ I, g.expected? i = some s := by
  unfold expectedSymbols
  rw [OrdSet.mem_ofList, List.mem_filterMap]
  exact Iff.rfl

theorem mem_allItems_iff :
    i ∈ g.allItems ↔ ∃ r, g.rules[i.rule]? = some r ∧ i.marker ≤ r.rhs.length := by
  unfold allItems
  simp only [List.mem_flatMap, List.mem_map, List.mem_range]
  constructor
  · rintro ⟨⟨r, n⟩, hr, m, hm, rfl⟩
    exact ⟨r, List.mem_zipIdx_iff_getElem?.1 hr, Nat.le_of_lt_succ hm⟩
  · rintro ⟨r, hr, hm⟩
    exact ⟨(r, i.rule), List.mem_zipIdx_iff_getElem?.2 hr, i.marker, Nat.lt_succ_of_le hm, rfl⟩

theorem advance_mem_allItems (h : g.expected? i = some s) : i.advance ∈ g.allItems := by
  obtain ⟨r, hr, hs⟩ := expected?_eq_some_iff.1 h
  exact mem_allItems_iff.2 ⟨r, hr, (List.getElem?_eq_some_iff.1 hs).1⟩

theorem predicted_mem_allItems (h : j ∈ g.predicted i) : j ∈ g.allItems := by
  obtain ⟨r, hr, -, -, hm⟩ := mem_predicted_iff.1 h
  refine mem_allItems_iff.2 ⟨r, hr, ?_⟩
  rw [hm]
  exact Nat.zero_le _

theorem itemsAfter_subset_allItems (h : i ∈ g.itemsAfter I s) : i ∈ g.allItems := by
  rcases itemsAfter_cases h with ⟨j, -, hj, rfl⟩ | ⟨j, -, hj⟩
  · exact advance_mem_allItems hj
  · exact predicted_mem_allItems hj

theorem enough_itemSets (h : (⟨0, 0⟩ : Item) ∈ g.allItems) :
    Enough g.itemsNext (Nat.pow 2 g.allItems.length) [g.closeItems (.singleton ⟨0, 0⟩)] := by
  refine ⟨List.nodup_singleton _, g.allItems.sublists.map OrdSet.ofList, fun J hJ => ?_,
    fun J _ K hK => ?_, ?_⟩
  · rw [List.mem_singleton.1 hJ]
    refine OrdSet.mem_map_sublists fun i hi => ?_
    rcases closeItems_cases hi with hi | ⟨j, -, hj⟩
    · rw [OrdSet.mem_singleton.1 hi]
      exact h
    · exact predicted_mem_allItems hj
  · obtain ⟨s, -, rfl⟩ := List.mem_map.1 hK
    exact OrdSet.mem_map_sublists fun i hi => itemsAfter_subset_allItems hi
  · rw [List.length_map, List.length_sublists]
    exact Nat.le_refl _

/-- The item sets are the sets that can be reached one symbol after the other. -/
theorem mem_itemSets_iff (h : (⟨0, 0⟩ : Item) ∈ g.allItems) :
    I ∈ g.itemSets ↔
      Relation.ReflTransGen (fun a b => b ∈ g.itemsNext a) (g.closeItems (.singleton ⟨0, 0⟩)) I := by
  unfold itemSets
  rw [mem_explore_iff (enough_itemSets h)]
  simp

theorem itemsAfter_mem_itemSets (h : (⟨0, 0⟩ : Item) ∈ g.allItems) (hI : I ∈ g.itemSets)
    (hs : s ∈ g.expectedSymbols I) : g.itemsAfter I s ∈ g.itemSets := by
  rw [mem_itemSets_iff h] at hI ⊢
  exact hI.tail (List.mem_map.2 ⟨s, hs, rfl⟩)

theorem predicted_mem_of_mem_itemSets (h : (⟨0, 0⟩ : Item) ∈ g.allItems) (hI : I ∈ g.itemSets)
    (hi : i ∈ I) (hj : j ∈ g.predicted i) : j ∈ I := by
  cases (mem_itemSets_iff h).1 hI with
  | refl => exact predicted_mem_closeItems hi hj
  | tail _ hnext =>
    obtain ⟨s, -, rfl⟩ := List.mem_map.1 hnext
    exact predicted_mem_closeItems hi hj

/-! ### States -/

/-- A state has an item. -/
def Holds (g : Grammar) (q : Nat) (i : Item) : Prop :=
  ∃ group, g.groups[q]? = some group ∧ i ∈ group.items

/-- A state leads to another over a symbol. -/
def Moves (g : Grammar) (q : Nat) (s : Symbol) (q' : Nat) : Prop :=
  ∃ group, g.groups[q]? = some group ∧ group.transitions.get? s = some q'

theorem getElem?_groups {group : Group} (h : g.groups[q]? = some group) :
    g.itemSets[q]? = some group.items ∧
      group.transitions = .ofKeys (g.expectedSymbols group.items) fun s =>
        g.itemSets.idxOf (g.itemsAfter group.items s) := by
  unfold groups at h
  rw [List.getElem?_map, Option.map_eq_some_iff] at h
  obtain ⟨I, hI, rfl⟩ := h
  exact ⟨hI, rfl⟩

theorem holds_iff : g.Holds q i ↔ ∃ I, g.itemSets[q]? = some I ∧ i ∈ I := by
  constructor
  · rintro ⟨group, hg, hi⟩
    exact ⟨_, (getElem?_groups hg).1, hi⟩
  · rintro ⟨I, hI, hi⟩
    unfold Holds groups
    simp only [List.getElem?_map, hI]
    exact ⟨_, rfl, hi⟩

theorem moves_iff :
    g.Moves q s q' ↔ ∃ I, g.itemSets[q]? = some I ∧ s ∈ g.expectedSymbols I ∧
      q' = g.itemSets.idxOf (g.itemsAfter I s) := by
  constructor
  · rintro ⟨group, hg, hq⟩
    obtain ⟨hI, htrans⟩ := getElem?_groups hg
    rw [htrans, OrdMap.get?_ofKeys] at hq
    split at hq
    · rename_i hs
      cases hq
      exact ⟨_, hI, hs, rfl⟩
    · cases hq
  · rintro ⟨I, hI, hs, rfl⟩
    unfold Moves groups
    simp only [List.getElem?_map, hI]
    refine ⟨_, rfl, ?_⟩
    rw [OrdMap.get?_ofKeys, if_pos hs]

theorem Moves.unique {q₁ q₂ : Nat} (h₁ : g.Moves q s q₁) (h₂ : g.Moves q s q₂) : q₁ = q₂ := by
  obtain ⟨I, hI, -, rfl⟩ := moves_iff.1 h₁
  obtain ⟨J, hJ, -, rfl⟩ := moves_iff.1 h₂
  cases hI.symm.trans hJ
  rfl

theorem exists_expected_of_moves (hq : G.Moves q s q') :
    ∃ i, G.Holds q i ∧ G.expected? i = some s := by
  obtain ⟨I, hI, hs, -⟩ := moves_iff.1 hq
  obtain ⟨i, hi, hs⟩ := mem_expectedSymbols_iff.1 hs
  exact ⟨i, holds_iff.2 ⟨I, hI, hi⟩, hs⟩

theorem mem_of_moves (hG : G.WellFormed) (hq : G.Moves q s q') :
    s ∈ G.terminals ∨ s ∈ G.nonterminals := by
  obtain ⟨i, -, hs⟩ := exists_expected_of_moves hq
  obtain ⟨r, hr, hs⟩ := expected?_eq_some_iff.1 hs
  exact hG.rhs_mem r (List.mem_of_getElem? hr) s (List.mem_of_getElem? hs)

theorem holds_first (G : Grammar) : G.Holds 0 ⟨0, 0⟩ := by
  refine holds_iff.2 ⟨_, explore_getElem?_zero _ _ _, ?_⟩
  exact mem_closeItems_of_mem (OrdSet.mem_singleton.2 rfl)

theorem holds_zero_cases (hi : G.Holds 0 i) :
    i = ⟨0, 0⟩ ∨ ∃ j, G.Holds 0 j ∧ i ∈ G.predicted j := by
  obtain ⟨I, hI, hi⟩ := holds_iff.1 hi
  have hfirst : G.itemSets[0]? = some (G.closeItems (.singleton ⟨0, 0⟩)) :=
    explore_getElem?_zero _ _ _
  cases hfirst.symm.trans hI
  rcases closeItems_cases hi with hi | ⟨j, hj, hij⟩
  · exact .inl (OrdSet.mem_singleton.1 hi)
  · exact .inr ⟨j, holds_iff.2 ⟨_, hI, hj⟩, hij⟩

namespace Augments

theorem first_mem_allItems (h : G.Augments g top start) : (⟨0, 0⟩ : Item) ∈ G.allItems :=
  mem_allItems_iff.2 ⟨_, h.rule_zero, Nat.zero_le _⟩

theorem expected?_first (h : G.Augments g top start) : G.expected? ⟨0, 0⟩ = some start :=
  expected?_eq_some_iff.2 ⟨_, h.rule_zero, rfl⟩

theorem holds_predicted (h : G.Augments g top start) (hi : G.Holds q i)
    (hj : j ∈ G.predicted i) : G.Holds q j := by
  obtain ⟨I, hI, hi⟩ := holds_iff.1 hi
  have hmem := List.mem_of_getElem? hI
  exact holds_iff.2 ⟨I, hI, predicted_mem_of_mem_itemSets h.first_mem_allItems hmem hi hj⟩

theorem getElem?_of_moves (h : G.Augments g top start) (hq : G.Moves q s q') :
    ∃ I, G.itemSets[q]? = some I ∧ G.itemSets[q']? = some (G.itemsAfter I s) := by
  obtain ⟨I, hI, hs, rfl⟩ := moves_iff.1 hq
  have hmem := itemsAfter_mem_itemSets h.first_mem_allItems (List.mem_of_getElem? hI) hs
  exact ⟨I, hI, List.getElem?_idxOf hmem⟩

theorem exists_moves (h : G.Augments g top start) (hi : G.Holds q i)
    (hs : G.expected? i = some s) : ∃ q', G.Moves q s q' ∧ G.Holds q' i.advance := by
  obtain ⟨I, hI, hi⟩ := holds_iff.1 hi
  have hmove : G.Moves q s (G.itemSets.idxOf (G.itemsAfter I s)) :=
    moves_iff.2 ⟨I, hI, mem_expectedSymbols_iff.2 ⟨i, hi, hs⟩, rfl⟩
  obtain ⟨J, hJ, hnext⟩ := h.getElem?_of_moves hmove
  cases hI.symm.trans hJ
  exact ⟨_, hmove, holds_iff.2 ⟨_, hnext, mem_itemsAfter_of_expected hi hs⟩⟩

/-- The items of a state behind a symbol have moved over it, or are asked for. -/
theorem holds_of_moves (h : G.Augments g top start) (hq : G.Moves q s q')
    (hi : G.Holds q' i) :
    (∃ j, G.Holds q j ∧ G.expected? j = some s ∧ i = j.advance) ∨
      ∃ j, G.Holds q' j ∧ i ∈ G.predicted j := by
  obtain ⟨I, hI, hI'⟩ := h.getElem?_of_moves hq
  obtain ⟨J, hJ, hi⟩ := holds_iff.1 hi
  cases hI'.symm.trans hJ
  rcases itemsAfter_cases hi with ⟨j, hj, hs, rfl⟩ | ⟨j, hj, hij⟩
  · exact .inl ⟨j, holds_iff.2 ⟨I, hI, hj⟩, hs, rfl⟩
  · exact .inr ⟨j, holds_iff.2 ⟨_, hI', hj⟩, hij⟩

/-- An item of a state is the first one, or has moved over a symbol, or is asked for. -/
theorem holds_cases (h : G.Augments g top start) (hi : G.Holds q i) :
    i = ⟨0, 0⟩ ∨ (∃ j s, G.expected? j = some s ∧ i = j.advance) ∨
      ∃ j, G.Holds q j ∧ i ∈ G.predicted j := by
  obtain ⟨I, hI, hi⟩ := holds_iff.1 hi
  cases (mem_itemSets_iff h.first_mem_allItems).1 (List.mem_of_getElem? hI) with
  | refl =>
    rcases closeItems_cases hi with hi | ⟨j, hj, hij⟩
    · exact .inl (OrdSet.mem_singleton.1 hi)
    · exact .inr (.inr ⟨j, holds_iff.2 ⟨_, hI, hj⟩, hij⟩)
  | tail _ hnext =>
    obtain ⟨s, -, rfl⟩ := List.mem_map.1 hnext
    rcases itemsAfter_cases hi with ⟨j, -, hs, rfl⟩ | ⟨j, hj, hij⟩
    · exact .inr (.inl ⟨j, s, hs, rfl⟩)
    · exact .inr (.inr ⟨j, holds_iff.2 ⟨_, hI, hj⟩, hij⟩)

theorem mem_allItems_of_holds (h : G.Augments g top start) (hi : G.Holds q i) :
    i ∈ G.allItems := by
  rcases h.holds_cases hi with rfl | ⟨j, s, hs, rfl⟩ | ⟨j, -, hij⟩
  · exact h.first_mem_allItems
  · exact advance_mem_allItems hs
  · exact predicted_mem_allItems hij

theorem marker_of_completed (h : G.Augments g top start) (hi : G.Holds q i) {r : Rule}
    (hr : G.rules[i.rule]? = some r) (hdone : G.expected? i = none) :
    i.marker = r.rhs.length := by
  obtain ⟨r', hr', hle⟩ := mem_allItems_iff.1 (h.mem_allItems_of_holds hi)
  cases hr.symm.trans hr'
  have hge : r.rhs.length ≤ i.marker := by simpa [expected?, hr] using hdone
  omega

theorem exists_expecting (h : G.Augments g top start) {n : Nat} {r : Rule} (hn : n ≠ 0)
    (hr : G.rules[n]? = some r) (hi : G.Holds q ⟨n, 0⟩) :
    ∃ j, G.Holds q j ∧ G.expected? j = some r.lhs := by
  rcases h.holds_cases hi with e | ⟨j, s, -, e⟩ | ⟨j, hj, hij⟩
  · exact absurd (congrArg Item.rule e) hn
  · exact absurd (congrArg Item.marker e) (Nat.succ_ne_zero _).symm
  · obtain ⟨r', hr', hexp, -, -⟩ := mem_predicted_iff.1 hij
    cases hr.symm.trans hr'
    exact ⟨j, hj, hexp⟩

theorem not_holds_first_of_moves (h : G.Augments g top start) (hg : g.WellFormed)
    (hq : G.Moves q s q') : ¬ G.Holds q' ⟨0, 0⟩ := by
  intro hi
  rcases h.holds_of_moves hq hi with ⟨j, -, -, e⟩ | ⟨j, -, hij⟩
  · exact absurd (congrArg Item.marker e) (Nat.succ_ne_zero _).symm
  · obtain ⟨r, hr, hexp, -, -⟩ := mem_predicted_iff.1 hij
    cases h.rule_zero.symm.trans hr
    obtain ⟨r', hr', hs⟩ := expected?_eq_some_iff.1 hexp
    exact h.top_not_mem_rhs hg (List.mem_of_getElem? hr') (List.mem_of_getElem? hs)

/-- Rule 0 is completed only behind the old start symbol. -/
theorem eq_start_of_completed (h : G.Augments g top start) (hq : G.Moves q s q')
    (hi : G.Holds q' i) (hzero : i.rule = 0) (hdone : G.expected? i = none) : s = start := by
  rcases h.holds_of_moves hq hi with ⟨j, -, hs, rfl⟩ | ⟨j, -, hij⟩
  · obtain ⟨r, hr, hs⟩ := expected?_eq_some_iff.1 hs
    rw [show j.rule = 0 from hzero, h.rule_zero] at hr
    cases hr
    rw [List.getElem?_singleton] at hs
    split at hs
    · cases hs
      rfl
    · cases hs
  · have hm := marker_of_mem_predicted hij
    obtain ⟨rule, marker⟩ := i
    subst hzero hm
    rw [h.expected?_first] at hdone
    cases hdone

end Augments

end TreeControl.Grammar
