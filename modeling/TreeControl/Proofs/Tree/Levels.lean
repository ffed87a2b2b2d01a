import Mathlib.Data.List.Forall2
import TreeControl.Proofs.Attempt
import TreeControl.Proofs.Automaton.Prepared
import TreeControl.Tree.Forest

/-! # The positions behind the levels

A subtree tracks its levels if its positions are those that the level automaton reaches when it
reads each level from scratch (`Subtree.Tracks`).  In an exact forest (`Forest.Exact`) every subtree
does: the bottom one from the start state, the others from an unknown position.

Reading siblings one after the other gives the same positions as reading the joined levels from
scratch (`readSiblings_iff`), so a reduction is possible exactly if the levels of the new subtree
can be read (`preview_iff`), and it keeps the forest exact.

If the levels of a stack of trees can be read (`Forest.Readable`), so could those of the stack before
the last reduction (`readable_append`): the levels of a subtree are parts of the levels above. -/

namespace TreeControl

/-! ### Joining levels -/

theorem joinLevels_assoc {α : Type} (js ks ls : List (List α)) :
    joinLevels (joinLevels js ks) ls = joinLevels js (joinLevels ks ls) := by
  induction js generalizing ks ls with
  | nil => simp [joinLevels]
  | cons j js ih =>
    cases ks with
    | nil => simp [joinLevels]
    | cons k ks =>
      cases ls with
      | nil => simp
      | cons l ls => simp [joinLevels, ih]

theorem exists_append_mem_joinLevels {α : Type} {ks ls : List (List α)} {level : List α}
    (h : level ∈ ks) : ∃ post, level ++ post ∈ joinLevels ks ls := by
  induction ks generalizing ls with
  | nil => cases h
  | cons k ks ih =>
    cases ls with
    | nil => exact ⟨[], by simpa using h⟩
    | cons l ls =>
      rw [joinLevels]
      rcases List.mem_cons.1 h with rfl | h
      · exact ⟨l, List.mem_cons_self⟩
      · obtain ⟨post, hp⟩ : ∃ post, level ++ post ∈ joinLevels ks ls := ih h
        exact ⟨post, List.mem_cons_of_mem _ hp⟩

theorem exists_prepend_mem_joinLevels {α : Type} {ks ls : List (List α)} {level : List α}
    (h : level ∈ ls) : ∃ pre, pre ++ level ∈ joinLevels ks ls := by
  induction ks generalizing ls with
  | nil => exact ⟨[], by simpa [joinLevels] using h⟩
  | cons k ks ih =>
    cases ls with
    | nil => cases h
    | cons l ls =>
      rw [joinLevels]
      rcases List.mem_cons.1 h with rfl | h
      · exact ⟨k, List.mem_cons_self⟩
      · obtain ⟨pre, hp⟩ := ih h
        exact ⟨pre, List.mem_cons_of_mem _ hp⟩

theorem Tree.levelsAll_append (ts us : List Tree) :
    levelsAll (ts ++ us) = joinLevels (levelsAll ts) (levelsAll us) := by
  induction ts with
  | nil => simp [levelsAll, joinLevels]
  | cons t ts ih => rw [List.cons_append, levelsAll, ih, levelsAll, joinLevels_assoc]

theorem Tree.levelsAll_singleton (t : Tree) : levelsAll [t] = t.levels := by
  simp [levelsAll]

/-! ### Exact forests -/

/-- The positions that the level automaton reaches when it reads each level from `P`. -/
def Behind (D : Automaton) (P : Position) : List (List Symbol) → List Position → Prop :=
  List.Forall₂ fun level Q => D.walk level P = .ok Q

/-- The positions of a subtree are those behind its levels. -/
def Subtree.Tracks (D : Automaton) (P : Position) (t : Subtree) : Prop :=
  Behind D P t.tree.levels t.positions

namespace Forest

/-- Where a prepared automaton begins a level. -/
def origin (leftmost : Bool) : Position := if leftmost then .known 0 else .unknown

/-- All subtrees of a stack, the latest first, track their levels. -/
def Exact (D : Automaton) : List Subtree → Prop
  | [] => True
  | t :: below => t.Tracks D (origin below.isEmpty) ∧ Exact D below

/-- The levels of all trees of a stack, the latest first, can be read. -/
def Readable (D : Automaton) : List Tree → Prop
  | [] => True
  | t :: below => (∀ level ∈ t.levels, D.Reads (origin below.isEmpty) level) ∧ Readable D below

variable {D : Automaton} {P : Position} {depth : Nat} {ps qs : List Position} {f : Forest}
  {r : Rule} {t : Subtree}

theorem exists_holds_origin (leftmost : Bool) : ∃ p, (origin leftmost).Holds p := by
  cases leftmost with
  | false => exact ⟨0, trivial⟩
  | true => exact ⟨0, rfl⟩

theorem seed_eq (hD : D.Prepared) (leftmost : Bool) : seed D leftmost = .ok (origin leftmost) := by
  cases leftmost <;> simp [seed, origin, hD.start]

theorem Exact.of_append {above below : List Subtree} (h : Exact D (above ++ below)) :
    Exact D below := by
  induction above with
  | nil => exact h
  | cons t above ih => exact ih h.2

theorem Exact.tracks {above below : List Subtree} (h : Exact D (above ++ t :: below)) :
    t.Tracks D (origin below.isEmpty) :=
  h.of_append.1

/-! ### Reading -/

theorem foldlM_readSymbol_iff {level : List Symbol} {Q : Position} :
    level.foldlM (readSymbol D depth) P = .ok Q ↔ D.walk level P = .ok Q := by
  induction level generalizing P with
  | nil => simp [pure, Except.pure]
  | cons s level ih =>
    simp only [List.foldlM_cons, Automaton.walk_cons, bind_eq_ok_iff, readSymbol,
      mapError_eq_ok_iff, ih]

theorem behind_unique {ls : List (List Symbol)} (hp : Behind D P ls ps) (hq : Behind D P ls qs) :
    ps = qs :=
  List.right_unique_forall₂' (fun _ _ _ h h' => Except.ok.inj (h.symm.trans h')) hp hq

theorem exists_behind {ls : List (List Symbol)} (h : ∀ level ∈ ls, D.Reads P level) :
    ∃ ps, Behind D P ls ps := by
  induction ls with
  | nil => exact ⟨[], .nil⟩
  | cons l ls ih =>
    obtain ⟨Q, hQ⟩ := h l List.mem_cons_self
    obtain ⟨ps, hps⟩ := ih fun level hl => h level (List.mem_cons_of_mem l hl)
    exact ⟨Q :: ps, .cons hQ hps⟩

theorem reads_of_behind {ls : List (List Symbol)} (h : Behind D P ls ps) :
    ∀ level ∈ ls, D.Reads P level := by
  induction h with
  | nil => exact fun level hl => absurd hl List.not_mem_nil
  | cons hQ _ ih =>
    intro level hl
    rcases List.mem_cons.1 hl with rfl | hl
    · exact ⟨_, hQ⟩
    · exact ih level hl

/-- Reading levels behind positions is reading the joined levels from scratch. -/
theorem readLevels_iff {ks ls : List (List Symbol)} (h : Behind D P ks ps) :
    readLevels D P depth ls ps = .ok qs ↔ Behind D P (joinLevels ks ls) qs := by
  induction ls generalizing depth ks ps qs with
  | nil =>
    rw [readLevels, joinLevels_nil]
    constructor
    · intro e
      cases e
      exact h
    · intro h'
      rw [behind_unique h h']
  | cons l ls ih =>
    -- The position behind the first level comes from what stood to the left of it, if anything.
    have first : ∀ Q, l.foldlM (readSymbol D depth) (ps.headD P) = .ok Q ↔
        D.walk ((ks.headD []) ++ l) P = .ok Q := by
      intro Q
      rw [foldlM_readSymbol_iff, Automaton.walk_append]
      cases h with
      | nil => exact Iff.rfl
      | cons hQ _ => rw [List.headD_cons, List.headD_cons, hQ]; exact Iff.rfl
    have rest : Behind D P ks.tail ps.tail := by
      cases h with
      | nil => exact .nil
      | cons _ h => exact h
    have join : joinLevels ks (l :: ls) = (ks.headD [] ++ l) :: joinLevels ks.tail ls := by
      cases ks <;> simp [joinLevels]
    rw [readLevels, join, Behind, List.forall₂_cons_left_iff]
    simp only [bind_eq_ok_iff, pure_eq_ok_iff, first, ih rest]
    constructor
    · rintro ⟨Q, hQ, Rs, hRs, rfl⟩
      exact ⟨Q, Rs, hQ, hRs, rfl⟩
    · rintro ⟨Q, Rs, hQ, hRs, rfl⟩
      exact ⟨Q, hQ, Rs, hRs, rfl⟩

theorem foldlM_readLevels_iff {ks : List (List Symbol)} {ts : List Subtree}
    (h : Behind D P ks ps) :
    ts.foldlM (fun ps u => readLevels D P depth u.tree.levels ps) ps = .ok qs ↔
      Behind D P (joinLevels ks (Tree.levelsAll (ts.map Subtree.tree))) qs := by
  induction ts generalizing ks ps with
  | nil =>
    have nothing : readLevels D P depth [] ps = .ok qs ↔ Behind D P (joinLevels ks []) qs :=
      readLevels_iff h
    rw [List.foldlM_nil, List.map_nil, Tree.levelsAll, ← nothing]
    rfl
  | cons t ts ih =>
    rw [List.foldlM_cons, List.map_cons, Tree.levelsAll, ← joinLevels_assoc, bind_eq_ok_iff]
    constructor
    · rintro ⟨Rs, hRs, hqs⟩
      exact (ih ((readLevels_iff h).1 hRs)).1 hqs
    · intro hqs
      -- The levels of `t` begin joined levels that can be read, so they can be read themselves.
      obtain ⟨Rs, hRs⟩ : ∃ Rs, Behind D P (joinLevels ks t.tree.levels) Rs := by
        refine exists_behind fun level hl => ?_
        obtain ⟨post, hpost⟩ := exists_append_mem_joinLevels hl
        exact (reads_of_behind hqs _ hpost).of_append
      exact ⟨Rs, (readLevels_iff h).2 hRs, (ih hRs).2 hqs⟩

/-- Reading siblings one after the other is reading their joined levels from scratch. -/
theorem readSiblings_iff {ts : List Subtree} (h : ∀ t, ts.head? = some t → t.Tracks D P) :
    readSiblings D P ts = .ok qs ↔ Behind D P (Tree.levelsAll (ts.map Subtree.tree)) qs := by
  cases ts with
  | nil =>
    rw [readSiblings, List.map_nil, Tree.levelsAll, Except.ok.injEq, Behind,
      List.forall₂_nil_left_iff]
    exact eq_comm
  | cons t ts => exact foldlM_readLevels_iff (h t rfl)

/-! ### Reductions -/

/-- The subtree that a rule makes of the topmost subtrees. -/
def reduct (f : Forest) (r : Rule) : Tree :=
  .node f.nextId r.lhs ((f.stack.take r.rhs.length).reverse.map Subtree.tree)

/-- The forest after a reduction that stores given positions. -/
def reduced (f : Forest) (r : Rule) (ps : List Position) : Forest :=
  { f with stack := ⟨f.reduct r, ps⟩ :: f.stack.drop r.rhs.length, nextId := f.nextId + 1 }

theorem split_eq_ok_iff {x : List Subtree × List Subtree} :
    f.split r = .ok x ↔ r.rhs.length ≤ f.stack.length ∧
      x = ((f.stack.take r.rhs.length).reverse, f.stack.drop r.rhs.length) := by
  unfold split
  split
  · rename_i h
    rw [Except.ok.injEq]
    exact ⟨fun e => ⟨h, e.symm⟩, fun e => e.2.symm⟩
  · rename_i h
    simp [h]

theorem merge_outcome_iff {known : Option (List Position)} {f' : Forest} :
    (f.merge r known).outcome = .ok f' ↔
      ∃ ps, f.positionsFor r known = .ok ps ∧ r.rhs.length ≤ f.stack.length ∧
        f' = f.reduced r ps := by
  unfold merge
  simp only [Attempt.outcome_bind, Attempt.outcome_ofExcept, Attempt.outcome_emit,
    Attempt.outcome_pure, bind_eq_ok_iff, split_eq_ok_iff, Except.ok.injEq]
  constructor
  · rintro ⟨ps, hps, _, ⟨hle, rfl⟩, _, -, rfl⟩
    exact ⟨ps, hps, hle, rfl⟩
  · rintro ⟨ps, hps, hle, rfl⟩
    exact ⟨ps, hps, _, ⟨hle, rfl⟩, (), trivial, rfl⟩

theorem trees_of_merge {known : Option (List Position)} {f' : Forest}
    (h : (f.merge r known).outcome = .ok f') :
    ∃ below children, f.trees = below ++ children ∧ children.length = r.rhs.length ∧
      f'.trees = below ++ [.node f.nextId r.lhs children] := by
  obtain ⟨ps, -, hle, rfl⟩ := merge_outcome_iff.1 h
  refine ⟨((f.stack.drop r.rhs.length).map Subtree.tree).reverse,
    ((f.stack.take r.rhs.length).map Subtree.tree).reverse, ?_, ?_, ?_⟩
  · rw [← List.reverse_append, ← List.map_append, List.take_append_drop]
    rfl
  · rw [List.length_reverse, List.length_map, List.length_take]
    omega
  · rw [trees, reduced, List.map_cons, List.reverse_cons, reduct, List.map_reverse]

/-- The leftmost of the merged subtrees has the subtrees below as its left context. -/
theorem Exact.tracks_first (h : Exact D f.stack)
    (ht : (f.stack.take r.rhs.length).reverse.head? = some t) :
    t.Tracks D (origin (f.stack.drop r.rhs.length).isEmpty) := by
  rw [List.head?_reverse, List.getLast?_eq_some_iff] at ht
  obtain ⟨above, ht⟩ := ht
  have hstack : f.stack = above ++ t :: f.stack.drop r.rhs.length := by
    conv_lhs => rw [← List.take_append_drop r.rhs.length f.stack, ht]
    simp
  rw [hstack] at h
  exact h.tracks

/-- A reduction of an exact forest passes the levels if those of the new subtree can be read. -/
theorem preview_iff (hD : D.Prepared) (hf : f.automaton = some D) (hx : Exact D f.stack) :
    f.preview r = .ok qs ↔ r.rhs.length ≤ f.stack.length ∧
      Behind D (origin (f.stack.drop r.rhs.length).isEmpty) (f.reduct r).levels qs := by
  unfold preview
  rw [reduct, Tree.levels, Behind, List.forall₂_cons_left_iff]
  simp only [hf, bind_eq_ok_iff, split_eq_ok_iff, seed_eq hD, Except.ok.injEq, pure_eq_ok_iff,
    readSymbol, mapError_eq_ok_iff, Automaton.walk_singleton]
  constructor
  · rintro ⟨_, ⟨hle, rfl⟩, _, rfl, Rs, hRs, Q, hQ, rfl⟩
    exact ⟨hle, Q, Rs, hQ, (readSiblings_iff fun t => hx.tracks_first).1 hRs, rfl⟩
  · rintro ⟨hle, Q, Rs, hQ, hRs, rfl⟩
    exact ⟨_, ⟨hle, rfl⟩, _, rfl, Rs, (readSiblings_iff fun t => hx.tracks_first).2 hRs, Q, hQ, rfl⟩

/-! ### Looking back -/

/-- If the levels of merged trees can be read, so can the levels of each of them. -/
theorem readable_append (hD : D.Prepared) {above below : List Tree}
    (h : ∀ level ∈ Tree.levelsAll above.reverse, D.Reads (origin below.isEmpty) level)
    (hbelow : Readable D below) : Readable D (above ++ below) := by
  induction above with
  | nil => exact hbelow
  | cons t above ih =>
    rw [List.reverse_cons, Tree.levelsAll_append, Tree.levelsAll_singleton] at h
    refine ⟨fun level hl => ?_, ih fun level hl => ?_⟩
    · obtain ⟨pre, hpre⟩ : ∃ pre, pre ++ level ∈
          joinLevels (Tree.levelsAll above.reverse) t.levels := exists_prepend_mem_joinLevels hl
      cases above with
      | nil =>
        have : level ∈ joinLevels (Tree.levelsAll ([] : List Tree).reverse) t.levels := by
          simpa [Tree.levelsAll, joinLevels] using hl
        exact h level this
      | cons u above =>
        have := h _ hpre
        rw [← List.append_nil (pre ++ level)] at this
        exact hD.reads_unknown_of_infix (exists_holds_origin _) this
    · obtain ⟨post, hpost⟩ : ∃ post, level ++ post ∈
          joinLevels (Tree.levelsAll above.reverse) t.levels := exists_append_mem_joinLevels hl
      exact (h _ hpost).of_append

end Forest

end TreeControl
