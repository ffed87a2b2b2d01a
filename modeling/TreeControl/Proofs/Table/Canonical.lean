import TreeControl.Proofs.Demo
import TreeControl.Proofs.Grammar.Forms
import TreeControl.Proofs.Table.Items

/-! # The groups are the canonical collection

The items of a grammar are the states of a nondeterministic automaton: an item moves over the symbol
behind its marker, and it moves silently to the beginning of every rule for a nonterminal there
(`ItemRun`).  The groups make that automaton deterministic.  Along any list of symbols they lead
exactly as far as some item does, and to the group of all items that can be reached
(`Augments.holds_iff_run`).  With the search being exact, no group is missing, superfluous or there
twice: `groups_canonical`. -/

namespace TreeControl.Grammar

variable {g G : Grammar} {s top start : Symbol} {i j k : Item} {I : OrdSet Item} {q q' : Nat}
  {w w' : List Symbol} {r r' : Rule}

/-- An item leads to another over a list of symbols: it moves over the symbol behind its marker, or
silently into a rule for the nonterminal there. -/
inductive ItemRun (G : Grammar) : Item → List Symbol → Item → Prop
  | stop (i : Item) : ItemRun G i [] i
  | move {n m : Nat} {r : Rule} {s : Symbol} {w : List Symbol} {j : Item} :
      G.rules[n]? = some r → r.rhs[m]? = some s → ItemRun G ⟨n, m + 1⟩ w j →
      ItemRun G ⟨n, m⟩ (s :: w) j
  | enter {n m n' : Nat} {r r' : Rule} {w : List Symbol} {j : Item} :
      G.rules[n]? = some r → r.rhs[m]? = some r'.lhs → r'.lhs ∈ G.nonterminals →
      G.rules[n']? = some r' → ItemRun G ⟨n', 0⟩ w j → ItemRun G ⟨n, m⟩ w j

/-- The state that a list of symbols leads to. -/
def walk? (G : Grammar) : Nat → List Symbol → Option Nat
  | q, [] => some q
  | q, s :: w => (G.groups[q]?.bind (·.transitions.get? s)).bind fun q' => G.walk? q' w

/-! ### Walks -/

theorem walk?_cons_eq_some_iff :
    G.walk? q (s :: w) = some q' ↔ ∃ q₁, G.Moves q s q₁ ∧ G.walk? q₁ w = some q' := by
  rw [walk?, Option.bind_eq_some_iff]
  simp only [Option.bind_eq_some_iff, Moves]

theorem walk?_append : G.walk? q (w ++ w') = (G.walk? q w).bind (G.walk? · w') := by
  induction w generalizing q with
  | nil => rfl
  | cons s w ih =>
    simp only [List.cons_append, walk?, ih, Option.bind_assoc]

theorem walk?_snoc (h : G.walk? 0 w = some q) (hq : G.Moves q s q') :
    G.walk? 0 (w ++ [s]) = some q' := by
  rw [walk?_append, h, Option.bind_some]
  exact walk?_cons_eq_some_iff.2 ⟨q', hq, rfl⟩

/-! ### Runs of items -/

theorem ItemRun.of_expected (hs : G.expected? i = some s) (h : G.ItemRun i.advance w j) :
    G.ItemRun i (s :: w) j := by
  obtain ⟨r, hr, hs⟩ := expected?_eq_some_iff.1 hs
  exact .move hr hs h

theorem ItemRun.of_predicted (hj : j ∈ G.predicted i) (h : G.ItemRun j w k) :
    G.ItemRun i w k := by
  obtain ⟨r', hr', hexp, hn, hm⟩ := mem_predicted_iff.1 hj
  obtain ⟨r, hr, hs⟩ := expected?_eq_some_iff.1 hexp
  obtain ⟨n', m'⟩ := j
  subst hm
  exact .enter hr hs hn hr' h

theorem ItemRun.of_chain (hij : Relation.ReflTransGen (fun a b => b ∈ G.predicted a) i j)
    (h : G.ItemRun j w k) : G.ItemRun i w k := by
  induction hij using Relation.ReflTransGen.head_induction_on with
  | refl => exact h
  | head hstep _ ih => exact .of_predicted hstep ih

/-- What follows a marker generates the symbols that are read and what follows the marker then. -/
theorem ItemRun.generates (h : G.ItemRun i w j) (hr : G.rules[i.rule]? = some r)
    (hr' : G.rules[j.rule]? = some r') :
    ∃ rest, G.Generates (r.rhs.drop i.marker) (w ++ r'.rhs.drop j.marker ++ rest) := by
  induction h generalizing r with
  | stop i =>
    cases hr.symm.trans hr'
    exact ⟨[], by simpa using Generates.refl _⟩
  | @move n m r₀ s w j hr₀ hs _ ih =>
    cases hr₀.symm.trans hr
    obtain ⟨rest, hgen⟩ := ih hr₀ hr'
    refine ⟨rest, ?_⟩
    rw [List.drop_eq_getElem?_toList_append, hs]
    exact .cons s hgen
  | @enter n m n' r₀ r₁ w j hr₀ hs _ hr₁ _ ih =>
    cases hr₀.symm.trans hr
    obtain ⟨rest, hgen⟩ := ih hr₁ hr'
    refine ⟨rest ++ r₀.rhs.drop (m + 1), ?_⟩
    rw [List.drop_eq_getElem?_toList_append, hs, ← List.append_assoc]
    have hrule := (generates_rule (List.mem_of_getElem? hr₁)).trans hgen
    exact Generates.append hrule (.refl _)

/-! ### States -/

theorem holds_zero_iff :
    G.Holds 0 i ↔ Relation.ReflTransGen (fun a b => b ∈ G.predicted a) ⟨0, 0⟩ i := by
  have hfirst : G.itemSets[0]? = some (G.closeItems (.singleton ⟨0, 0⟩)) :=
    explore_getElem?_zero _ _ _
  rw [holds_iff]
  simp [hfirst, mem_closeItems_iff]

theorem nodup_itemSets (G : Grammar) : G.itemSets.Nodup :=
  nodup_explore (by simp)

namespace Augments

/-- The items of a state behind a symbol are asked for by items that have moved over it. -/
theorem exists_chain_of_moves (h : G.Augments g top start) (hq : G.Moves q s q')
    (hj : G.Holds q' j) :
    ∃ i, G.Holds q i ∧ G.expected? i = some s ∧
      Relation.ReflTransGen (fun a b => b ∈ G.predicted a) i.advance j := by
  obtain ⟨I, hI, hI'⟩ := h.getElem?_of_moves hq
  obtain ⟨J, hJ, hj⟩ := holds_iff.1 hj
  cases hI'.symm.trans hJ
  obtain ⟨k, hk, hchain⟩ := mem_closeItems_iff.1 hj
  obtain ⟨i, hi, rfl⟩ := OrdSet.mem_map.1 hk
  obtain ⟨hi, hs⟩ := OrdSet.mem_filter.1 hi
  exact ⟨i, holds_iff.2 ⟨I, hI, hi⟩, of_decide_eq_true hs, hchain⟩

theorem exists_walk (h : G.Augments g top start) (hrun : G.ItemRun i w j) (hi : G.Holds q i) :
    ∃ q', G.walk? q w = some q' ∧ G.Holds q' j := by
  induction hrun generalizing q with
  | stop i => exact ⟨q, rfl, hi⟩
  | move hr hs _ ih =>
    obtain ⟨q₁, hmove, hnext⟩ := h.exists_moves hi (expected?_eq_some_iff.2 ⟨_, hr, hs⟩)
    obtain ⟨q', hwalk, hj⟩ := ih hnext
    exact ⟨q', walk?_cons_eq_some_iff.2 ⟨q₁, hmove, hwalk⟩, hj⟩
  | enter hr hs hn hr' _ ih =>
    refine ih (h.holds_predicted hi (mem_predicted_iff.2 ⟨_, hr', ?_, hn, rfl⟩))
    exact expected?_eq_some_iff.2 ⟨_, hr, hs⟩

/-- Where the states lead, every item comes from one that the first state has. -/
theorem exists_run (h : G.Augments g top start) (hwalk : G.walk? q w = some q')
    (hj : G.Holds q' j) : ∃ i, G.Holds q i ∧ G.ItemRun i w j := by
  induction w generalizing q with
  | nil =>
    cases hwalk
    exact ⟨j, hj, .stop j⟩
  | cons s w ih =>
    obtain ⟨q₁, hmove, hwalk⟩ := walk?_cons_eq_some_iff.1 hwalk
    obtain ⟨k, hk, hrun⟩ := ih hwalk
    obtain ⟨i, hi, hs, hchain⟩ := h.exists_chain_of_moves hmove hk
    exact ⟨i, hi, .of_expected hs (.of_chain hchain hrun)⟩

/-- The items of the state that a list of symbols leads to are those that it leads to from the
beginning of rule 0. -/
theorem holds_iff_run (h : G.Augments g top start) (hwalk : G.walk? 0 w = some q) :
    G.Holds q i ↔ G.ItemRun ⟨0, 0⟩ w i := by
  constructor
  · intro hi
    obtain ⟨k, hk, hrun⟩ := h.exists_run hwalk hi
    exact .of_chain (holds_zero_iff.1 hk) hrun
  · intro hrun
    obtain ⟨q', hwalk', hi⟩ := h.exists_walk hrun G.holds_first
    cases hwalk.symm.trans hwalk'
    exact hi

theorem exists_holds_of_walk (h : G.Augments g top start) (hi : ∃ i, G.Holds q i)
    (hwalk : G.walk? q w = some q') : ∃ j, G.Holds q' j := by
  induction w generalizing q with
  | nil =>
    cases hwalk
    exact hi
  | cons s w ih =>
    obtain ⟨q₁, hmove, hwalk⟩ := walk?_cons_eq_some_iff.1 hwalk
    obtain ⟨i, hi, hs⟩ := exists_expected_of_moves hmove
    obtain ⟨q₂, hmove', hnext⟩ := h.exists_moves hi hs
    cases hmove.unique hmove'
    exact ih ⟨_, hnext⟩ hwalk

theorem exists_walk_of_mem_itemSets (h : G.Augments g top start) (hI : I ∈ G.itemSets) :
    ∃ w q, G.walk? 0 w = some q ∧ G.itemSets[q]? = some I := by
  induction (mem_itemSets_iff h.first_mem_allItems).1 hI with
  | refl => exact ⟨[], 0, rfl, explore_getElem?_zero _ _ _⟩
  | @tail J K hJ hK ih =>
    obtain ⟨w, q, hwalk, hq⟩ := ih ((mem_itemSets_iff h.first_mem_allItems).2 hJ)
    obtain ⟨s, hs, rfl⟩ := List.mem_map.1 hK
    have hmove : G.Moves q s (G.itemSets.idxOf (G.itemsAfter J s)) :=
      moves_iff.2 ⟨J, hq, hs, rfl⟩
    obtain ⟨J', hJ', hnext⟩ := h.getElem?_of_moves hmove
    cases hq.symm.trans hJ'
    exact ⟨w ++ [s], _, walk?_snoc hwalk hmove, hnext⟩

theorem exists_walk_of_getElem? (h : G.Augments g top start) (hI : G.itemSets[q]? = some I) :
    ∃ w, G.walk? 0 w = some q := by
  obtain ⟨w, q', hwalk, hq'⟩ := h.exists_walk_of_mem_itemSets (List.mem_of_getElem? hI)
  have hlt := (List.getElem?_eq_some_iff.1 hI).1
  cases (List.getElem?_inj hlt G.nodup_itemSets).1 (hI.trans hq'.symm)
  exact ⟨w, hwalk⟩

theorem eq_zero_of_holds_first (h : G.Augments g top start) (hg : g.WellFormed)
    (hwalk : G.walk? 0 w = some q) (hi : G.Holds q ⟨0, 0⟩) : q = 0 := by
  cases w using List.reverseRecOn with
  | nil =>
    cases hwalk
    rfl
  | append_singleton w s =>
    rw [walk?_append, Option.bind_eq_some_iff] at hwalk
    obtain ⟨q₁, -, hwalk⟩ := hwalk
    obtain ⟨q₂, hmove, hq₂⟩ := walk?_cons_eq_some_iff.1 hwalk
    cases hq₂
    exact absurd hi (h.not_holds_first_of_moves hg hmove)

end Augments

/-! ### The canonical collection -/

/-- Along a list of symbols the groups lead somewhere exactly if the items do, and then to the group
of all the items that it leads to.  No two groups have the same items and every group is reached.
The markers of the items stand within rules, and only group 0 begins rule 0. -/
theorem groups_canonical (hg : g.Built) (hG : g.augment = .ok G) :
    (∀ w, (∃ q, G.walk? 0 w = some q) ↔ ∃ i, G.ItemRun ⟨0, 0⟩ w i) ∧
    (∀ w q, G.walk? 0 w = some q → ∃ group, G.groups[q]? = some group ∧
      ∀ i, i ∈ group.items ↔ G.ItemRun ⟨0, 0⟩ w i) ∧
    (∀ (q q' : Nat) (group group' : Group), G.groups[q]? = some group →
      G.groups[q']? = some group' → group.items = group'.items → q = q') ∧
    ∀ (q : Nat) (group : Group), G.groups[q]? = some group → (∃ w, G.walk? 0 w = some q) ∧
      (∀ i ∈ group.items, ∃ r, G.rules[i.rule]? = some r ∧ i.marker ≤ r.rhs.length) ∧
      (⟨0, 0⟩ ∈ group.items ↔ q = 0) := by
  obtain ⟨top, start, h⟩ := augments_of_augment hG
  refine ⟨fun w => ⟨?_, ?_⟩, fun w q hwalk => ?_, fun q q' group group' hq hq' e => ?_,
    fun q group hq => ?_⟩
  · rintro ⟨q, hwalk⟩
    obtain ⟨i, hi⟩ := h.exists_holds_of_walk ⟨_, G.holds_first⟩ hwalk
    exact ⟨i, (h.holds_iff_run hwalk).1 hi⟩
  · rintro ⟨i, hrun⟩
    obtain ⟨q, hwalk, -⟩ := h.exists_walk hrun G.holds_first
    exact ⟨q, hwalk⟩
  · obtain ⟨i, group, hq, -⟩ := h.exists_holds_of_walk ⟨_, G.holds_first⟩ hwalk
    refine ⟨group, hq, fun i => ?_⟩
    rw [← h.holds_iff_run hwalk]
    simp [Holds, hq]
  · have hset := (getElem?_groups hq).1
    have hset' := (getElem?_groups hq').1
    have hlt := (List.getElem?_eq_some_iff.1 hset).1
    exact (List.getElem?_inj hlt G.nodup_itemSets).1 (by rw [hset, hset', e])
  · obtain ⟨w, hwalk⟩ := h.exists_walk_of_getElem? (getElem?_groups hq).1
    refine ⟨⟨w, hwalk⟩, fun i hi => ?_, fun hi => ?_, ?_⟩
    · exact mem_allItems_iff.1 (h.mem_allItems_of_holds ⟨group, hq, hi⟩)
    · exact h.eq_zero_of_holds_first hg.wellFormed hwalk ⟨group, hq, hi⟩
    · rintro rfl
      obtain ⟨group', hq', hi⟩ := G.holds_first
      cases hq.symm.trans hq'
      exact hi

/-- In the grammar with conflicts, `x` leads to the group where the rules for `A` and `B` are
completed beside `S -> x x`, and no group is reached over `A A`. -/
theorem groups_canonical_choice :
    ∃ (g G : Grammar) (q : Nat) (group : Group), Demo.choice = .ok g ∧ g.augment = .ok G ∧
      G.walk? 0 [⟨"x"⟩] = some q ∧ G.groups[q]? = some group ∧
      group.items = .ofList [⟨3, 1⟩, ⟨4, 1⟩, ⟨5, 1⟩] ∧
      (∀ i, G.ItemRun ⟨0, 0⟩ [⟨"x"⟩] i ↔ i = ⟨3, 1⟩ ∨ i = ⟨4, 1⟩ ∨ i = ⟨5, 1⟩) ∧
      ¬ ∃ i, G.ItemRun ⟨0, 0⟩ [⟨"A"⟩, ⟨"A"⟩] i := by
  obtain ⟨G, hG⟩ : ∃ G, (Demo.choice.toOption.getD {}).augment = .ok G := by
    have hsome : (Demo.choice.toOption.getD {}).augment.toOption.isSome = true := by decide +kernel
    obtain ⟨G, hG⟩ := Option.isSome_iff_exists.1 hsome
    exact ⟨G, toOption_eq_some_iff.1 hG⟩
  have hrun : (Demo.choice.toOption.getD {}).augment.toOption.map (fun G =>
      (((G.walk? 0 [⟨"x"⟩]).bind (G.groups[·]?)).map Group.items, G.walk? 0 [⟨"A"⟩, ⟨"A"⟩])) =
      some (some (.ofList [⟨3, 1⟩, ⟨4, 1⟩, ⟨5, 1⟩]), none) := by decide +kernel
  rw [hG] at hrun
  obtain ⟨hx, hAA⟩ := Prod.mk.injEq .. ▸ Option.some.inj hrun
  obtain ⟨group, hgroup, hitems⟩ := Option.map_eq_some_iff.1 hx
  obtain ⟨q, hwalk, hgroup⟩ := Option.bind_eq_some_iff.1 hgroup
  obtain ⟨reach, items, -, -⟩ := groups_canonical (Demo.built_choice Demo.choice_eq) hG
  obtain ⟨group', hgroup', hmem⟩ := items _ _ hwalk
  cases hgroup.symm.trans hgroup'
  refine ⟨_, G, q, group, Demo.choice_eq, hG, hwalk, hgroup, hitems, fun i => ?_, fun hi => ?_⟩
  · rw [← hmem, hitems]
    simp
  · obtain ⟨q', hq'⟩ := (reach _).2 hi
    rw [hAA] at hq'
    cases hq'

end TreeControl.Grammar
