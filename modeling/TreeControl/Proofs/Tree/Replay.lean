import TreeControl.Proofs.Demo
import TreeControl.Proofs.Tree.Levels

/-! # Replaying a construction under a level automaton

The same operations are performed on a forest without an automaton and on one with a prepared
automaton.  While both go well they build the same trees, and the checked forest stays exact
(`Shadows`).  The checked forest refuses an operation only if some level of a finished tree would
not be accepted: readable levels are passed down from the finished tree to every forest before it
(`readable_of_merge`).

Together this makes the checks exact: the replay succeeds and passes the final check if and only if
every level of the tree is accepted, and otherwise the final check names the first level that is
not (`replay_finalCheck`). -/

namespace TreeControl.Forest

/-! ### Operations -/

/-- An operation on a forest. -/
inductive Op where
  | push (symbol : Symbol)
  | merge (rule : Rule)
  deriving DecidableEq, Repr

/-- Performs an operation; positions are computed and not supplied. -/
def perform (f : Forest) : Op → Except TreeError Forest
  | .push s => f.pushLeaf s
  | .merge r => (f.merge r none).outcome

/-- Performs operations one after the other. -/
def replay (f : Forest) (ops : List Op) : Except TreeError Forest := ops.foldlM perform f

/-- The rule of an operation: a leaf is made like an empty right side. -/
def Op.rule : Op → Rule
  | .push s => ⟨s, []⟩
  | .merge r => r

variable {D : Automaton} {f f' g g' : Forest} {r : Rule} {ps : List Position} {op : Op}
  {ops : List Op} {t : Subtree}

/-- Pushing a leaf is reducing by a rule with nothing on its right side. -/
theorem pushLeaf_eq_merge (f : Forest) (s : Symbol) :
    f.pushLeaf s = (f.merge ⟨s, []⟩ none).outcome := by
  unfold pushLeaf merge positionsFor preview
  simp only [Attempt.outcome_bind, Attempt.outcome_ofExcept, Attempt.outcome_emit,
    Attempt.outcome_pure]
  cases f.automaton with
  | none => rfl
  | some A =>
    simp only [split, List.length_nil, Nat.zero_le, if_true, List.take_zero, List.drop_zero,
      List.reverse_nil, Option.isSome_some, readSiblings, bind, Except.bind]
    cases seed A f.stack.isEmpty with
    | error e => rfl
    | ok p =>
      simp only
      cases readSymbol A 0 p s <;> rfl

theorem perform_eq (f : Forest) (op : Op) : f.perform op = (f.merge op.rule none).outcome := by
  cases op with
  | push s => exact pushLeaf_eq_merge f s
  | merge r => rfl

theorem merge_plain_iff (hf : f.automaton = none) :
    (f.merge r none).outcome = .ok f' ↔
      r.rhs.length ≤ f.stack.length ∧ f' = f.reduced r [] := by
  rw [merge_outcome_iff, positionsFor, hf]
  simp

theorem merge_checked_iff (hD : D.Prepared) (hf : f.automaton = some D) (hx : Exact D f.stack) :
    (f.merge r none).outcome = .ok f' ↔
      ∃ ps, r.rhs.length ≤ f.stack.length ∧
        Behind D (origin (f.stack.drop r.rhs.length).isEmpty) (f.reduct r).levels ps ∧
        f' = f.reduced r ps := by
  rw [merge_outcome_iff, positionsFor, hf]
  simp only [Option.isSome_some, if_true, preview_iff hD hf hx]
  constructor
  · rintro ⟨ps, ⟨hle, hps⟩, -, rfl⟩
    exact ⟨ps, hle, hps, rfl⟩
  · rintro ⟨ps, hle, hps, rfl⟩
    exact ⟨ps, ⟨hle, hps⟩, hle, rfl⟩

/-- Positions that `preview` gave need not be computed again. -/
theorem merge_known (h : f.preview r = .ok ps) :
    (f.merge r (some ps)).outcome = (f.merge r none).outcome := by
  have hA : f.automaton.isSome = true := by
    unfold preview at h
    cases hf : f.automaton with
    | none => simp [hf] at h
    | some A => rfl
  unfold merge positionsFor
  simp [hA, h]

/-! ### The invariant -/

/-- The forest `g` under the prepared automaton `D` has the trees of the forest `f` without one. -/
structure Shadows (D : Automaton) (f g : Forest) : Prop where
  plain : f.automaton = none
  checked : g.automaton = some D
  trees : f.stack.map Subtree.tree = g.stack.map Subtree.tree
  nextId : f.nextId = g.nextId
  exact : Exact D g.stack

theorem shadows_empty (D : Automaton) : Shadows D {} { automaton := some D } :=
  ⟨rfl, rfl, rfl, rfl, trivial⟩

theorem Shadows.length_eq (h : Shadows D f g) : f.stack.length = g.stack.length := by
  simpa using congrArg List.length h.trees

theorem Shadows.reduct_eq (h : Shadows D f g) (r : Rule) : f.reduct r = g.reduct r := by
  unfold reduct
  rw [h.nextId, List.map_reverse, List.map_take, h.trees, ← List.map_take, ← List.map_reverse]

theorem Shadows.reduced (h : Shadows D f g)
    (hps : Behind D (origin (g.stack.drop r.rhs.length).isEmpty) (g.reduct r).levels ps) :
    Shadows D (f.reduced r []) (g.reduced r ps) := by
  refine ⟨h.plain, h.checked, ?_, congrArg (· + 1) h.nextId, hps, ?_⟩
  · show f.reduct r :: (f.stack.drop r.rhs.length).map Subtree.tree =
      g.reduct r :: (g.stack.drop r.rhs.length).map Subtree.tree
    rw [h.reduct_eq, List.map_drop, h.trees, List.map_drop]
  · have := h.exact
    rw [← List.take_append_drop r.rhs.length g.stack] at this
    exact this.of_append

theorem Shadows.of_merge_checked (hD : D.Prepared) (h : Shadows D f g)
    (hg : (g.merge r none).outcome = .ok g') :
    ∃ f', (f.merge r none).outcome = .ok f' ∧ Shadows D f' g' := by
  obtain ⟨ps, hle, hps, rfl⟩ := (merge_checked_iff hD h.checked h.exact).1 hg
  refine ⟨f.reduced r [], (merge_plain_iff h.plain).2 ⟨?_, rfl⟩, h.reduced hps⟩
  rw [h.length_eq]
  exact hle

/-- The checked forest performs a reduction after which the levels can be read. -/
theorem Shadows.of_merge_plain (hD : D.Prepared) (h : Shadows D f g)
    (hf : (f.merge r none).outcome = .ok f') (hread : Readable D (f'.stack.map Subtree.tree)) :
    ∃ g', (g.merge r none).outcome = .ok g' ∧ Shadows D f' g' := by
  obtain ⟨hle, rfl⟩ := (merge_plain_iff h.plain).1 hf
  have hempty : ((f.stack.drop r.rhs.length).map Subtree.tree).isEmpty =
      (g.stack.drop r.rhs.length).isEmpty := by
    rw [List.map_drop, h.trees, ← List.map_drop, List.isEmpty_map]
  have hlevels := hread.1
  rw [hempty, h.reduct_eq] at hlevels
  obtain ⟨ps, hps⟩ := exists_behind hlevels
  refine ⟨g.reduced r ps, (merge_checked_iff hD h.checked h.exact).2 ⟨ps, ?_, hps, rfl⟩,
    h.reduced hps⟩
  rw [← h.length_eq]
  exact hle

theorem readable_of_merge (hD : D.Prepared) {known : Option (List Position)}
    (hf : (f.merge r known).outcome = .ok f') (hread : Readable D (f'.stack.map Subtree.tree)) :
    Readable D (f.stack.map Subtree.tree) := by
  obtain ⟨ps, -, -, rfl⟩ := merge_outcome_iff.1 hf
  rw [← List.take_append_drop r.rhs.length f.stack, List.map_append]
  obtain ⟨hlevels, hbelow⟩ := hread
  refine readable_append hD (fun level hl => hlevels level ?_) hbelow
  rw [reduct, Tree.levels, List.map_reverse]
  exact List.mem_cons_of_mem _ hl

/-! ### Whole runs -/

theorem Shadows.of_replay_checked (hD : D.Prepared) (h : Shadows D f g)
    (hg : g.replay ops = .ok g') : ∃ f', f.replay ops = .ok f' ∧ Shadows D f' g' := by
  induction ops generalizing f g with
  | nil =>
    cases hg
    exact ⟨f, rfl, h⟩
  | cons op ops ih =>
    rw [replay, List.foldlM_cons, bind_eq_ok_iff] at hg
    obtain ⟨g₁, hg₁, hg⟩ := hg
    rw [perform_eq] at hg₁
    obtain ⟨f₁, hf₁, h₁⟩ := h.of_merge_checked hD hg₁
    obtain ⟨f', hf', h'⟩ := ih h₁ hg
    refine ⟨f', ?_, h'⟩
    rw [replay, List.foldlM_cons, perform_eq, hf₁]
    exact hf'

/-- A replay whose trees can be read succeeds in the checked forest, and before it the trees could
be read as well. -/
theorem Shadows.of_replay_plain (hD : D.Prepared) (hf : f.replay ops = .ok f')
    (hread : Readable D (f'.stack.map Subtree.tree)) :
    Readable D (f.stack.map Subtree.tree) ∧
      ∀ g, Shadows D f g → ∃ g', g.replay ops = .ok g' ∧ Shadows D f' g' := by
  induction ops generalizing f with
  | nil =>
    cases hf
    exact ⟨hread, fun g h => ⟨g, rfl, h⟩⟩
  | cons op ops ih =>
    rw [replay, List.foldlM_cons, bind_eq_ok_iff] at hf
    obtain ⟨f₁, hf₁, hf⟩ := hf
    rw [perform_eq] at hf₁
    obtain ⟨hread₁, hrest⟩ := ih hf
    refine ⟨readable_of_merge hD hf₁ hread₁, fun g h => ?_⟩
    obtain ⟨g₁, hg₁, h₁⟩ := h.of_merge_plain hD hf₁ hread₁
    obtain ⟨g', hg', h'⟩ := hrest g₁ h₁
    refine ⟨g', ?_, h'⟩
    rw [replay, List.foldlM_cons, perform_eq, hg₁]
    exact hg'

/-! ### The final check -/

theorem finish_eq_ok_iff {tree : Tree} :
    f.finish = .ok tree ↔ f.stack.map Subtree.tree = [tree] := by
  unfold finish
  split
  · rename_i t h
    simp [h]
  · rename_i ts h
    simp only [reduceCtorEq, List.map_eq_singleton_iff, false_iff, not_exists, not_and]
    intro t ht
    exact absurd ht (h t)

theorem finish_iff_trees {tree : Tree} : f.finish = .ok tree ↔ f.trees = [tree] := by
  rw [finish_eq_ok_iff, trees, List.reverse_eq_iff, List.reverse_singleton]

theorem isAccepting_iff (hD : D.Prepared) {level : List Symbol} {Q : Position}
    (h : D.walk level (.known 0) = .ok Q) :
    D.isAccepting Q = true ↔ D.accepts level = .ok true := by
  rw [hD.accepts_iff_walk]
  constructor
  · exact fun hQ => ⟨Q, h, hQ⟩
  · rintro ⟨Q', hQ', ha⟩
    cases h.symm.trans hQ'
    exact ha

/-- The level that the final check names is the first one that is not accepted. -/
theorem unfinished?_spec (hD : D.Prepared) (h : t.Tracks D (.known 0)) :
    match unfinished? D t with
    | none => ∀ level ∈ t.tree.levels, D.accepts level = .ok true
    | some e => ∃ depth level, t.tree.levels[depth]? = some level ∧ D.accepts level ≠ .ok true ∧
        (∀ d l, d < depth → t.tree.levels[d]? = some l → D.accepts l = .ok true) ∧
        e = .unfinishedLevel depth level := by
  have hlen : t.tree.levels.length = t.positions.length := h.length_eq
  have hget : ∀ i (hi : i < t.positions.length),
      D.isAccepting t.positions[i] = true ↔ D.accepts (t.tree.levels[i]) = .ok true :=
    fun i hi => isAccepting_iff hD (h.get (hlen ▸ hi) hi)
  unfold unfinished?
  cases hfind : t.positions.zipIdx.find? fun p => !D.isAccepting p.1 with
  | none =>
    rw [List.find?_eq_none] at hfind
    intro level hl
    obtain ⟨i, hi, rfl⟩ := List.mem_iff_getElem.1 hl
    rw [← hget i (hlen ▸ hi)]
    have := hfind (t.positions[i], i) (List.mem_zipIdx_iff_getElem?.2 (by simp))
    simpa using this
  | some x =>
    rw [List.find?_eq_some_iff_getElem] at hfind
    obtain ⟨hx, i, hi, rfl, hbefore⟩ := hfind
    have hi' : i < t.positions.length := by simpa using hi
    have hil : i < t.tree.levels.length := hlen ▸ hi'
    refine ⟨i, t.tree.levels[i], List.getElem?_eq_getElem hil, ?_, ?_, ?_⟩
    · rw [Ne, ← hget i hi']
      simpa using hx
    · intro d l hd hl
      obtain ⟨hdl, rfl⟩ := List.getElem?_eq_some_iff.1 hl
      rw [← hget d (hlen ▸ hdl)]
      simpa using hbefore d hd
    · simp [hil]

theorem finalCheck_eq (hg : g.automaton = some D) (ht : g.stack = [t]) :
    g.finalCheck = match unfinished? D t with
      | some e => .error e
      | none => .ok () := by
  unfold finalCheck
  rw [hg, ht]
  rfl

/-- A checked forest with a single tree tracks its levels from the start state. -/
theorem Shadows.single (h : Shadows D f g) {tree : Tree}
    (htree : f.stack.map Subtree.tree = [tree]) :
    ∃ t, g.stack = [t] ∧ t.tree = tree ∧ t.Tracks D (.known 0) := by
  have hstack := h.trees.symm.trans htree
  obtain ⟨t, ht, hsub⟩ := List.map_eq_singleton_iff.1 hstack
  have hx := h.exact
  rw [ht] at hx
  exact ⟨t, ht, hsub, hx.1⟩

theorem Shadows.finalCheck_iff (hD : D.Prepared) (h : Shadows D f g) {tree : Tree}
    (htree : f.stack.map Subtree.tree = [tree]) :
    g.finalCheck = .ok () ↔ ∀ level ∈ tree.levels, D.accepts level = .ok true := by
  obtain ⟨t, ht, rfl, htrack⟩ := h.single htree
  have spec := unfinished?_spec hD htrack
  rw [finalCheck_eq h.checked ht]
  cases hu : unfinished? D t with
  | none =>
    rw [hu] at spec
    exact ⟨fun _ => spec, fun _ => rfl⟩
  | some e =>
    rw [hu] at spec
    obtain ⟨depth, level, hl, hne, -, -⟩ := spec
    constructor
    · intro hcheck
      cases hcheck
    · intro hall
      exact absurd (hall level (List.mem_of_getElem? hl)) hne

theorem readable_of_accepted (hD : D.Prepared) {tree : Tree}
    (h : ∀ level ∈ tree.levels, D.accepts level = .ok true) : Readable D [tree] := by
  refine ⟨fun level hl => ?_, trivial⟩
  obtain ⟨Q, hQ, -⟩ := hD.accepts_iff_walk.1 (h level hl)
  exact ⟨Q, hQ⟩

/-- The checks of a forest are exact.  Operations that leave a single tree can be replayed under a
prepared automaton and pass the final check if and only if every level of the tree is accepted; a
final check that fails names the first level that is not, its length and its text. -/
theorem replay_finalCheck {A : Automaton} (hA : A.Built) (hD : A.prepare.outcome = .ok D)
    {tree : Tree} (hf : replay {} ops = .ok f) (htree : f.finish = .ok tree) :
    ((∃ g, replay { automaton := some D } ops = .ok g ∧ g.finalCheck = .ok ()) ↔
      ∀ level ∈ tree.levels, D.accepts level = .ok true) ∧
    ∀ g e, replay { automaton := some D } ops = .ok g → g.finalCheck = .error e →
      ∃ depth level, tree.levels[depth]? = some level ∧ D.accepts level ≠ .ok true ∧
        (∀ d l, d < depth → tree.levels[d]? = some l → D.accepts l = .ok true) ∧
        e = .unfinishedLevel depth level ∧
        e.message = s!"level {depth} ({Tree.levelText level}) is not in a final state at column {level.length}" := by
  have hD := (Automaton.prepare_spec hA.wellFormed hD).1
  rw [finish_eq_ok_iff] at htree
  -- Whenever the replay succeeds, it ends with the same tree.
  have shadows : ∀ g, replay { automaton := some D } ops = .ok g → Shadows D f g := by
    intro g hg
    obtain ⟨f', hf', h⟩ := (shadows_empty D).of_replay_checked hD hg
    cases hf.symm.trans hf'
    exact h
  refine ⟨⟨?_, fun hall => ?_⟩, ?_⟩
  · intro h
    obtain ⟨g, hg, hcheck⟩ := h
    exact ((shadows g hg).finalCheck_iff hD htree).1 hcheck
  · have hread : Readable D (f.stack.map Subtree.tree) := by
      rw [htree]
      exact readable_of_accepted hD hall
    obtain ⟨g, hg, h⟩ := (Shadows.of_replay_plain hD hf hread).2 _ (shadows_empty D)
    exact ⟨g, hg, (h.finalCheck_iff hD htree).2 hall⟩
  · intro g e hg hcheck
    have h := shadows g hg
    obtain ⟨t, ht, rfl, htrack⟩ := h.single htree
    have spec := unfinished?_spec hD htrack
    rw [finalCheck_eq h.checked ht] at hcheck
    cases hu : unfinished? D t with
    | none => simp [hu] at hcheck
    | some e' =>
      rw [hu] at spec hcheck
      cases hcheck
      obtain ⟨depth, level, hl, hne, hbefore, rfl⟩ := spec
      exact ⟨depth, level, hl, hne, hbefore, rfl, rfl⟩

theorem replay_finalCheck_demo :
    ∃ A D f, Demo.levels = .ok A ∧ A.prepare.outcome = .ok D ∧
      replay {} [.push ⟨"a"⟩, .merge ⟨⟨"S"⟩, []⟩, .push ⟨"b"⟩,
        .merge ⟨⟨"S"⟩, [⟨"a"⟩, ⟨"S"⟩, ⟨"b"⟩]⟩] = .ok f ∧
      f.finish = .ok (.node 3 ⟨"S"⟩ [.node 0 ⟨"a"⟩ [], .node 1 ⟨"S"⟩ [], .node 2 ⟨"b"⟩ []]) ∧
      ∃ g, replay { automaton := some D } [.push ⟨"a"⟩, .merge ⟨⟨"S"⟩, []⟩, .push ⟨"b"⟩,
        .merge ⟨⟨"S"⟩, [⟨"a"⟩, ⟨"S"⟩, ⟨"b"⟩]⟩] = .ok g ∧ g.finalCheck = .ok () := by
  have hA := Demo.levels_eq
  have hD : (Demo.levels.toOption.getD {}).prepare.outcome =
      .ok ((Demo.levels.toOption.getD {}).prepare.outcome.toOption.getD {}) := by decide +kernel
  refine ⟨_, _, _, hA, hD, rfl, rfl, ?_⟩
  refine (replay_finalCheck (Demo.built_levels hA) hD rfl rfl).1.2 ?_
  decide +kernel

end TreeControl.Forest
