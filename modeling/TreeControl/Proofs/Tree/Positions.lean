import TreeControl.Proofs.Automaton.Stepping
import TreeControl.Proofs.Tree.Replay

/-! # What a forest keeps through every call

A forest is used by calls (`Call`): leaves are pushed, reductions are previewed and made.  A call
answers and leaves a forest behind (`Forest.call`), the same one if it fails.

Under a prepared level automaton the positions that a subtree keeps are those that reading its levels
from scratch would give, as long as a reduction is handed no positions or those that its preview has
just given (`Fair`).  The exactness of a forest passes from each call to the next (`Exact.call`), and
what a level leads to says which position stands behind it (`Grown.positions`). -/

namespace TreeControl

/-! ### No level is empty -/

theorem ne_nil_of_mem_joinLevels {α : Type} {ks ls : List (List α)} (hk : ∀ k ∈ ks, k ≠ [])
    (hl : ∀ l ∈ ls, l ≠ []) : ∀ m ∈ joinLevels ks ls, m ≠ [] := by
  induction ks generalizing ls with
  | nil => simpa [joinLevels] using hl
  | cons k ks ih =>
    cases ls with
    | nil => simpa using hk
    | cons l ls =>
      intro m hm
      rw [joinLevels, List.mem_cons] at hm
      rcases hm with rfl | hm
      · exact List.append_ne_nil_of_left_ne_nil (hk k List.mem_cons_self) l
      · exact ih (fun k' h => hk k' (List.mem_cons_of_mem k h))
          (fun l' h => hl l' (List.mem_cons_of_mem l h)) m hm

mutual

theorem Tree.ne_nil_of_mem_levels : (t : Tree) → ∀ level ∈ t.levels, level ≠ []
  | .node _ s ts => by
    rw [Tree.levels, List.forall_mem_cons]
    exact ⟨List.cons_ne_nil s [], Tree.ne_nil_of_mem_levelsAll ts⟩

theorem Tree.ne_nil_of_mem_levelsAll : (ts : List Tree) → ∀ level ∈ Tree.levelsAll ts, level ≠ []
  | [] => by simp [Tree.levelsAll]
  | t :: ts => by
    rw [Tree.levelsAll]
    exact ne_nil_of_mem_joinLevels (Tree.ne_nil_of_mem_levels t) (Tree.ne_nil_of_mem_levelsAll ts)

end

namespace Forest

/-! ### Calls -/

/-- An operation with its arguments. -/
inductive Call where
  | push (symbol : Symbol)
  | preview (rule : Rule)
  | merge (rule : Rule) (known : Option (List Position))

/-- The answer to a call, which is a list of positions for a preview, and the forest afterwards. -/
def call (f : Forest) : Call → Except TreeError (List Position) × Forest
  | .push s =>
    match f.pushLeaf s with
    | .ok g => (.ok [], g)
    | .error e => (.error e, f)
  | .preview r => (f.preview r, f)
  | .merge r known =>
    match (f.merge r known).outcome with
    | .ok g => (.ok [], g)
    | .error e => (.error e, f)

/-- A reduction is handed no positions or those that its preview gives. -/
def Fair (f : Forest) : Call → Prop
  | .merge r (some ps) => f.preview r = .ok ps
  | _ => True

/-- The forests under a level automaton that fair calls lead to, whether they fail or not. -/
inductive Grown (D : Automaton) : Forest → Prop
  | empty : Grown D { automaton := some D }
  | call {f : Forest} (c : Call) : Grown D f → f.Fair c → Grown D (f.call c).2

variable {A D : Automaton} {f : Forest} {r : Rule} {t : Subtree} {above below : List Subtree}

/-- Pushing a leaf is reducing by a rule with nothing on its right side. -/
theorem call_push (f : Forest) (s : Symbol) : f.call (.push s) = f.call (.merge ⟨s, []⟩ none) := by
  simp only [call, pushLeaf_eq_merge]

theorem call_of_error {c : Call} {e : TreeError} (h : (f.call c).1 = .error e) :
    (f.call c).2 = f := by
  have merge_of_error : ∀ {r known}, (f.call (.merge r known)).1 = .error e →
      (f.call (.merge r known)).2 = f := by
    intro r known h
    rw [call] at h ⊢
    split at h
    · cases h
    · rfl
  cases c with
  | push s =>
    rw [call_push] at h ⊢
    exact merge_of_error h
  | preview r => rfl
  | merge r known => exact merge_of_error h

/-! ### Positions -/

/-- A fair reduction keeps a forest exact. -/
theorem Exact.call_merge (hD : D.Prepared) (hf : f.automaton = some D) (hx : Exact D f.stack)
    {known : Option (List Position)} (hc : f.Fair (.merge r known)) :
    (f.call (.merge r known)).2.automaton = some D ∧
      Exact D (f.call (.merge r known)).2.stack := by
  have hnone : (f.merge r known).outcome = (f.merge r none).outcome := by
    cases known with
    | none => rfl
    | some ps => exact merge_known hc
  rw [Forest.call, hnone]
  cases h : (f.merge r none).outcome with
  | error e => exact ⟨hf, hx⟩
  | ok g =>
    obtain ⟨ps, -, hps, rfl⟩ := (merge_checked_iff hD hf hx).1 h
    rw [← List.take_append_drop r.rhs.length f.stack] at hx
    exact ⟨hf, hps, hx.of_append⟩

theorem Exact.call (hD : D.Prepared) (hf : f.automaton = some D) (hx : Exact D f.stack) {c : Call}
    (hc : f.Fair c) : (f.call c).2.automaton = some D ∧ Exact D (f.call c).2.stack := by
  cases c with
  | push s =>
    rw [call_push]
    exact hx.call_merge hD hf trivial
  | preview r => exact ⟨hf, hx⟩
  | merge r known => exact hx.call_merge hD hf hc

theorem Grown.exact (hD : D.Prepared) (h : Grown D f) :
    f.automaton = some D ∧ Exact D f.stack := by
  induction h with
  | empty => exact ⟨rfl, trivial⟩
  | call c _ hc ih => exact ih.2.call hD ih.1 hc

/-- Through all fair calls the positions of every subtree are those of reading its levels from
scratch, one for each level.  Behind a level of the bottom subtree stands the state that the level
automaton reaches on it from its start state; behind a level of any other subtree stands the set, never
empty, of the states that it reaches on it from anywhere. -/
theorem Grown.positions (hA : A.Built) (hprep : A.prepare.outcome = .ok D) (hf : Grown D f)
    (hstack : f.stack = above ++ t :: below) :
    t.positions.length = t.tree.levels.length ∧
    ∀ (d : Nat) (w : List Symbol), t.tree.levels[d]? = some w →
      (below = [] → ∃ start s, D.start = some start ∧ (∀ q, D.Run start w q ↔ q = s) ∧
        t.positions[d]? = some (Position.known s)) ∧
      (below ≠ [] → ∃ ids : OrdSet Nat, (∃ q, q ∈ ids) ∧
        (∀ q, q ∈ ids ↔ ∃ p, p < D.size ∧ D.Run p w q) ∧
        t.positions[d]? = some (Position.ofSet ids)) := by
  have hD := (Automaton.prepare_spec hA.wellFormed hprep).1
  have wf := hA.wellFormed.prepare hprep
  have hx := (hf.exact hD).2
  rw [hstack] at hx
  have htracks : Behind D (origin below.isEmpty) t.tree.levels t.positions := hx.tracks
  refine ⟨htracks.length_eq.symm, fun d w hd => ?_⟩
  have hne := t.tree.ne_nil_of_mem_levels w (List.mem_of_getElem? hd)
  obtain ⟨hlt, rfl⟩ := List.getElem?_eq_some_iff.1 hd
  have hlt' : d < t.positions.length := htracks.length_eq ▸ hlt
  have hwalk := htracks.get hlt hlt'
  rw [List.getElem?_eq_getElem hlt']
  obtain ⟨ids, hids, hsome, hreach⟩ := hD.walk_ofSet wf hne hwalk
  constructor
  · rintro rfl
    obtain ⟨s, hs⟩ := Automaton.walk_known hwalk
    refine ⟨0, s, hD.start, fun q => ?_, congrArg some hs⟩
    rw [← Position.ofSet_eq_known_iff.1 (hids.symm.trans hs), hreach]
    exact Automaton.leadsTo_known.symm
  · intro hbelow
    have horigin : origin below.isEmpty = .unknown := by simp [origin, hbelow]
    rw [horigin] at hreach
    exact ⟨ids, hsome, hreach, congrArg some hids⟩

/-- A reduction of two leaves `a` is refused; one by `S -> a S b` is previewed and then made beside a
leaf, so that the new subtree has two levels and the one to its left has one. -/
theorem Grown.positions_demo :
    ∃ A D f t u, Demo.levels = .ok A ∧ A.prepare.outcome = .ok D ∧ Grown D f ∧ f.stack = [t, u] ∧
      t.tree.levels = [[⟨"S"⟩], [⟨"a"⟩, ⟨"S"⟩, ⟨"b"⟩]] ∧ t.positions.length = 2 ∧
      (∃ ids : OrdSet Nat, (∃ q, q ∈ ids) ∧
        (∀ q, q ∈ ids ↔ ∃ p, p < D.size ∧ D.Run p [⟨"S"⟩] q) ∧
        t.positions[0]? = some (Position.ofSet ids)) ∧
      u.tree.levels = [[⟨"a"⟩]] ∧
      ∃ start s, D.start = some start ∧ (∀ q, D.Run start [⟨"a"⟩] q ↔ q = s) ∧
        u.positions[0]? = some (Position.known s) := by
  have hA := Demo.levels_eq
  have hD := Demo.prepare_levels_eq
  obtain ⟨f, hf, hlevels⟩ : ∃ f,
      Grown ((Demo.levels.toOption.getD {}).prepare.outcome.toOption.getD {}) f ∧
      f.stack.map (fun t => t.tree.levels) =
        [[[⟨"S"⟩], [⟨"a"⟩, ⟨"S"⟩, ⟨"b"⟩]], [[⟨"a"⟩]]] := by
    refine ⟨_, (((((Grown.empty.call (.push ⟨"a"⟩) trivial).call (.push ⟨"a"⟩) trivial).call
      (.merge ⟨⟨"S"⟩, [⟨"a"⟩, ⟨"a"⟩]⟩ none) trivial).call (.merge ⟨⟨"S"⟩, []⟩ none) trivial).call
      (.push ⟨"b"⟩) trivial).call (.merge ⟨⟨"S"⟩, [⟨"a"⟩, ⟨"S"⟩, ⟨"b"⟩]⟩
        (some [.among (.ofList [1, 3]), .known 4])) ?_, ?_⟩
    · show preview _ _ = _
      decide +kernel
    · decide +kernel
  obtain ⟨t, rest, hstack, ht, hrest⟩ := List.map_eq_cons_iff.1 hlevels
  obtain ⟨u, rfl, hu⟩ := List.map_eq_singleton_iff.1 hrest
  obtain ⟨hlen, hpos⟩ := hf.positions (Demo.built_levels hA) hD
    (show f.stack = [] ++ t :: [u] from hstack)
  obtain ⟨-, hpos'⟩ := hf.positions (Demo.built_levels hA) hD
    (show f.stack = [t] ++ u :: [] from hstack)
  refine ⟨_, _, f, t, u, hA, hD, hf, hstack, ht, by rw [hlen, ht]; rfl, ?_, hu, ?_⟩
  · exact (hpos 0 [⟨"S"⟩] (by rw [ht]; rfl)).2 (by simp)
  · exact (hpos' 0 [⟨"a"⟩] (by rw [hu]; rfl)).1 rfl

end Forest

end TreeControl
