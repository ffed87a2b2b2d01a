import TreeControl.Proofs.Automaton.Built
import TreeControl.Proofs.Grammar.Prediction
import TreeControl.Proofs.Loops
import TreeControl.Proofs.Table.Filling

/-! # The construction of a table ends

Whatever the construction of a table repeats an unknown number of times is one of three loops: a
search, passes that improve a table, or the search for a name.  Everything else goes once over lists
that are at hand.  Each of these loops, without any bound, ends with the value that the construction
uses: behind the preparation of the level automaton (`Automaton.PreparationEnds`), behind the new
start symbol, and behind the groups and the predictions of the grammar (`Grammar.AnalysisEnds`).
Together, `build_terminates`. -/

namespace TreeControl

/-- The loops behind the preparation of an automaton end. -/
structure Automaton.PreparationEnds (A : Automaton) : Prop where
  /-- The silent moves of every state are followed to the end. -/
  closure : ∀ p, ∃ found, Ends (visit fun q => (A.targets q .blank).toList) ([], [p]) (found, []) ∧
    A.closure p = .ofList found
  /-- The queue of sets of states runs empty. -/
  subsets : ∀ start, Ends (visit A.dropEpsilon.value.successors) ([], [.singleton start])
    (A.dropEpsilon.value.subsets start, [])
  /-- The name of every set is primed until no set before it has that name. -/
  names : ∀ start i S name, (A.dropEpsilon.value.subsets start)[i]? = some S →
    (A.dropEpsilon.value.powerset start).stateName? i = some name →
      Ends (extend '\'' ((A.dropEpsilon.value.powerset start).names.take i))
        (A.dropEpsilon.value.setName S) name

/-- The loops over the items and the symbols of a grammar end. -/
structure Grammar.AnalysisEnds (G : Grammar) : Prop where
  /-- Every set of items is closed. -/
  items : ∀ I : OrdSet Item, ∃ found, Ends (visit G.predicted) ([], I.toList) (found, []) ∧
    G.closeItems I = .ofList found
  /-- The list of groups stops growing. -/
  groups : Ends (visit G.itemsNext) ([], [G.closeItems (.singleton ⟨0, 0⟩)])
    (G.findGroups.value.map Group.items, [])
  /-- A pass for emptiness and first symbols learns nothing, and then one for following symbols. -/
  prediction : ∃ p, Ends (improve (Prediction.passFirst G)) (.initial G) p ∧
    Ends (improve (Prediction.passFollow G)) (p.endAfterStart G) G.predict.value

/-! ### Automata -/

namespace Automaton

theorem preparationEnds (A : Automaton) : A.PreparationEnds where
  closure p := ⟨_, (A.enough_closure p).ends, rfl⟩
  subsets start := (A.dropEpsilon.value.enough_subsets start).ends
  names start i S name hS hname := by
    have hunused := getElem?_nameSets (A := A.dropEpsilon.value) hS
    cases hname.symm.trans hunused
    exact ends_unusedName _ _ _

end Automaton

/-! ### Grammars -/

theorem Grammar.Augments.analysisEnds {g G : Grammar} {top start : Symbol}
    (h : G.Augments g top start) : G.AnalysisEnds where
  items I := ⟨_, (G.enough_closeItems I).ends, rfl⟩
  groups := by
    have hsets : G.findGroups.value.map Group.items = G.itemSets := by
      show G.groups.map Group.items = G.itemSets
      unfold Grammar.groups
      rw [List.map_map]
      exact List.map_id _
    rw [hsets]
    exact (Grammar.enough_itemSets h.first_mem_allItems).ends
  prediction := by
    have hfirst := Prediction.bounded_initial G
    refine ⟨_, ends_improve (Prediction.passFirst_saturated hfirst), ?_⟩
    refine ends_improve (Prediction.passFollow_saturated ?_)
    exact (saturate_keeps (fun _ hq => hq.passFirst) hfirst).endAfterStart

/-- For every grammar and all means, precedence table and level automaton or not, the construction
of a table ends.  If there is a level automaton, the loops behind its preparation end; if there is a
start symbol, a new one is found, and the loops over the grammar under the new one end.  A table
that is returned is made of what they end with: its automaton of the sets of states and their names,
its rows of the groups and the predictions. -/
theorem build_terminates (g : Grammar) (m : Means) :
    (∀ A, m.automaton = some A → A.PreparationEnds) ∧
    (∀ s, g.start = some s →
      Ends (extend '*' g.names) (s.name.push '*') (g.starred s).name ∧
      ∃ G, g.augment = .ok G ∧ G.start = some (g.starred s) ∧ G.AnalysisEnds) ∧
    ∀ t, (Table.build g m).outcome = .ok t →
      (∀ A, m.automaton = some A → ∃ start, A.start = some start ∧
        t.automaton = some (A.dropEpsilon.value.powerset start).collectArrivals) ∧
      g.augment = .ok t.grammar ∧ t.groups = t.grammar.findGroups.value ∧
      t.groups.zipIdx.mapM (fun x =>
          (Table.fillRow t.grammar t.grammar.predict.value m.chosenPolicy x).outcome) =
        .ok t.rows := by
  refine ⟨fun A _ => A.preparationEnds, fun s hs => ⟨ends_unusedName _ _ _, ?_⟩, fun t ht => ?_⟩
  · obtain ⟨G, hG, hstart⟩ : ∃ G, g.augment = .ok G ∧ G.start = some (g.starred s) := by
      unfold Grammar.augment
      rw [hs]
      exact ⟨_, rfl, rfl⟩
    obtain ⟨top, start, h⟩ := Grammar.augments_of_augment hG
    exact ⟨G, hG, hstart, h.analysisEnds⟩
  · obtain ⟨haugment, hlevels, hgroups, hrows, -, -⟩ := Table.build_outcome_iff.1 ht
    refine ⟨fun A hA => ?_, haugment, hgroups, hrows⟩
    obtain ⟨D, hD, hD'⟩ := (Table.prepareLevels_outcome_iff hA).1 hlevels
    obtain ⟨start, hstart, rfl⟩ := Automaton.prepare_outcome_iff.1 hD
    exact ⟨start, hstart, hD'⟩

end TreeControl
