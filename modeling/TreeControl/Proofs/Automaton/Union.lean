import TreeControl.Proofs.Automaton.Coherence
import TreeControl.Proofs.Demo

/-! # The language of joined automata

If no state of `B` is called like one of `A`, the joined automaton consists of `A`, of a renumbered
copy of `B` behind it, and of one silent move from the start state of `A` to that of `B` (`Copies`).
No transition leads back, so a run that leaves `A` does so once, at the start state of `A`, and the
words are those of `A` and those of `B` behind a word that leads `A` back to its start state
(`join_language`). -/

namespace TreeControl.Automaton

variable {A B C D : Automaton} {p q r i j : Nat} {s : Symbol} {u v w : List Symbol} {name : String}

/-! ### What a joined automaton consists of -/

/-- The number in `C` of the state that has a number in `B`, found by its name. -/
def renumber (C B : Automaton) (i : Nat) : Nat := C.names.idxOf (B.label i)

theorem stateId?_label_iff (h : B.label i ∈ C.names) :
    C.stateId? (B.label i) = some r ↔ C.renumber B i = r := by
  obtain ⟨k, hk⟩ := exists_stateId?_iff.2 h
  have hnumber : C.renumber B i = k := by
    unfold renumber
    rw [List.idxOf_eq_getD_idxOf?, show C.names.idxOf? (B.label i) = some k from hk,
      Option.getD_some]
  rw [hk, hnumber, Option.some.injEq]

theorem stateName?_label (hi : i < B.size) :
    B.stateName? i = some (B.label i) := by
  unfold label stateName?
  rw [List.getElem?_eq_getElem hi]
  rfl

/-- `C` consists of `A`, of a copy of `B` whose states are numbered by `f`, and of a silent move from
the state `p` of `A` to the copy of the state `q` of `B`. -/
structure Copies (A B C : Automaton) (f : Nat → Nat) (p q : Nat) : Prop where
  start_eq : C.start = some p
  size_le : ∀ i < B.size, A.size ≤ f i
  injective : ∀ i < B.size, ∀ j < B.size, f i = f j → i = j
  mem_accepting : ∀ r, r ∈ C.accepting ↔ r ∈ A.accepting ∨ ∃ i ∈ B.accepting, f i = r
  mem_edges : ∀ a s b, ⟨a, s, b⟩ ∈ C.edges ↔ ⟨a, s, b⟩ ∈ A.edges ∨
    (∃ e ∈ B.edges, f e.source = a ∧ e.label = s ∧ f e.target = b) ∨
      (a = p ∧ s = .blank ∧ b = f q)

/-- Automata without common names are joined to a copy of both. -/
theorem Added.copies (hA : A.Coherent) (hB : B.Coherent) (hC : C.Coherent)
    (hdisjoint : ∀ n ∈ A.names, ¬ n ∈ B.names) (hp : A.start = some p) (hq : B.start = some q)
    (h : Added A (B.additions ++ [.edge (A.label p) .blank (B.label q)]) C) :
    Copies A B C (C.renumber B) p q := by
  have hname : ∀ {i}, i < B.size → B.label i ∈ C.names := fun hi => by
    rw [h.mem_names, List.mem_append, mem_additions_iff]
    exact .inr (.inl (.inr (.inl ⟨_, mem_names_of_label hi, rfl⟩)))
  have hfound : ∀ {i}, i < B.size → C.stateName? (C.renumber B i) = some (B.label i) := fun hi =>
    (stateId?_eq_some_iff hC.nodup_names).1 ((stateId?_label_iff (hname hi)).2 rfl)
  have hplt := hA.start_lt p hp
  have hqlt := hB.start_lt q hq
  have hstart : C.stateId? (A.label p) = some p :=
    stateId?_of_prefix h.names_prefix
      ((stateId?_eq_some_iff hA.nodup_names).2 (stateName?_label hplt))
  refine ⟨h.start_eq.trans hp, fun i hi => ?_, fun i hi j hj hij => ?_, fun r => ?_,
    fun a s b => ?_⟩
  · by_contra hlt
    obtain ⟨names, hnames⟩ := h.names_prefix
    have hget := hfound hi
    unfold stateName? at hget
    rw [← hnames, List.getElem?_append_left (not_le.1 hlt)] at hget
    exact hdisjoint _ (List.mem_of_getElem? hget) (mem_names_of_label hi)
  · have hlabel : B.label i = B.label j := by
      apply Option.some.inj
      rw [← hfound hi, hij, hfound hj]
    have hi' := (stateId?_eq_some_iff hB.nodup_names).2 (stateName?_label hi)
    have hj' := (stateId?_eq_some_iff hB.nodup_names).2 (stateName?_label hj)
    rw [hlabel, hj'] at hi'
    exact (Option.some.inj hi').symm
  · rw [h.mem_accepting]
    apply or_congr_right
    simp only [List.mem_append, mem_additions_iff]
    constructor
    · rintro ⟨n, (⟨_, _, hs⟩ | ⟨_, _, hs⟩ | ⟨i, m, hi, hm, hn⟩ | ⟨_, _, he⟩) | hlast, hr⟩
      · cases hs
      · cases hs
      · cases hn
        have hlt := hB.accepting_lt i hi
        cases hm.symm.trans (stateName?_label hlt)
        exact ⟨i, hi, (stateId?_label_iff (hname hlt)).1 hr⟩
      · cases he
      · simp at hlast
    · rintro ⟨i, hi, rfl⟩
      have hlt := hB.accepting_lt i hi
      exact ⟨_, .inl (.inr (.inr (.inl ⟨i, _, hi, stateName?_label hlt, rfl⟩))),
        (stateId?_label_iff (hname hlt)).2 rfl⟩
  · rw [h.mem_edges]
    apply or_congr_right
    simp only [List.mem_append, mem_additions_iff, List.mem_singleton]
    constructor
    · rintro ⟨m, n, (⟨_, _, hs⟩ | ⟨_, _, hs⟩ | ⟨_, _, _, _, hs⟩ | ⟨e, he, hmn⟩) | hlast, hm, hn⟩
      · cases hs
      · cases hs
      · cases hs
      · cases hmn
        exact .inl ⟨e, he, (stateId?_label_iff (hname (hB.source_lt e he))).1 hm, rfl,
          (stateId?_label_iff (hname (hB.target_lt e he))).1 hn⟩
      · cases hlast
        exact .inr ⟨Option.some.inj (hm.symm.trans hstart), rfl,
          ((stateId?_label_iff (hname hqlt)).1 hn).symm⟩
    · rintro (⟨e, he, rfl, rfl, rfl⟩ | ⟨rfl, rfl, rfl⟩)
      · exact ⟨_, _, .inl (.inr (.inr (.inr ⟨e, he, rfl⟩))),
          (stateId?_label_iff (hname (hB.source_lt e he))).2 rfl,
          (stateId?_label_iff (hname (hB.target_lt e he))).2 rfl⟩
      · exact ⟨_, _, .inr rfl, hstart, (stateId?_label_iff (hname hqlt)).2 rfl⟩

/-! ### Runs of a joined automaton -/

section

variable {f : Nat → Nat}

namespace Copies

theorem run_copy (h : Copies A B C f p q) (hrun : B.Run i w j) : C.Run (f i) w (f j) := by
  induction hrun with
  | nil i => exact .nil (f i)
  | silent he _ ih => exact .silent ((h.mem_edges _ _ _).2 (.inr (.inl ⟨_, he, rfl, rfl, rfl⟩))) ih
  | read hs he _ ih => exact .read hs ((h.mem_edges _ _ _).2 (.inr (.inl ⟨_, he, rfl, rfl, rfl⟩))) ih

theorem edge_of_copy (h : Copies A B C f p q) (hA : A.WellFormed) (hB : B.WellFormed)
    (hp : p < A.size) (hi : i < B.size) (he : ⟨f i, s, r⟩ ∈ C.edges) :
    ∃ j, ⟨i, s, j⟩ ∈ B.edges ∧ r = f j := by
  have hle := h.size_le i hi
  rcases (h.mem_edges _ _ _).1 he with hfirst | ⟨e, hcopy, hsource, rfl, rfl⟩ | ⟨hip, -, -⟩
  · exact absurd (hA.source_lt _ hfirst) (not_lt.2 hle)
  · cases h.injective _ (hB.source_lt e hcopy) _ hi hsource
    exact ⟨e.target, hcopy, rfl⟩
  · omega

theorem run_of_copy (h : Copies A B C f p q) (hA : A.WellFormed) (hB : B.WellFormed)
    (hp : p < A.size) (hi : i < B.size) (hrun : C.Run (f i) w r) :
    ∃ j, B.Run i w j ∧ r = f j := by
  generalize ha : f i = a at hrun
  induction hrun generalizing i with
  | nil => exact ⟨i, .nil i, ha.symm⟩
  | silent he _ ih =>
    subst ha
    obtain ⟨k, he', rfl⟩ := h.edge_of_copy hA hB hp hi he
    obtain ⟨j, hj, rfl⟩ := ih (hB.target_lt _ he') rfl
    exact ⟨j, .silent he' hj, rfl⟩
  | read hs he _ ih =>
    subst ha
    obtain ⟨k, he', rfl⟩ := h.edge_of_copy hA hB hp hi he
    obtain ⟨j, hj, rfl⟩ := ih (hB.target_lt _ he') rfl
    exact ⟨j, .read hs he' hj, rfl⟩

/-- From a state of the first automaton its own transitions lead on, and from its start state the
silent move to the copy. -/
theorem edge_of_first (h : Copies A B C f p q) (hB : B.WellFormed) (hi : i < A.size)
    (he : ⟨i, s, r⟩ ∈ C.edges) : ⟨i, s, r⟩ ∈ A.edges ∨ (i = p ∧ s = .blank ∧ r = f q) := by
  rcases (h.mem_edges _ _ _).1 he with hfirst | ⟨e, hcopy, rfl, -, -⟩ | hlast
  · exact .inl hfirst
  · have hle := h.size_le _ (hB.source_lt e hcopy)
    omega
  · exact .inr hlast

/-- A run from a state of the first automaton stays there, or it goes to the copy once, from the
start state. -/
theorem run_of_first (h : Copies A B C f p q) (hA : A.WellFormed) (hB : B.WellFormed)
    (hp : p < A.size) (hq : q < B.size) (hi : i < A.size) (hrun : C.Run i w r) :
    A.Run i w r ∨ ∃ u v j, w = u ++ v ∧ A.Run i u p ∧ B.Run q v j ∧ r = f j := by
  induction hrun with
  | nil i => exact .inl (.nil i)
  | silent he hrest ih =>
    rcases h.edge_of_first hB hi he with he | ⟨rfl, -, rfl⟩
    · rcases ih (hA.target_lt _ he) with hstay | ⟨u, v, j, rfl, hu, hv, rfl⟩
      · exact .inl (.silent he hstay)
      · exact .inr ⟨u, v, j, rfl, .silent he hu, hv, rfl⟩
    · obtain ⟨j, hj, rfl⟩ := h.run_of_copy hA hB hp hq hrest
      exact .inr ⟨[], _, j, rfl, .nil _, hj, rfl⟩
  | read hs he _ ih =>
    rcases h.edge_of_first hB hi he with he | ⟨-, hblank, -⟩
    · rcases ih (hA.target_lt _ he) with hstay | ⟨u, v, j, rfl, hu, hv, rfl⟩
      · exact .inl (.read hs he hstay)
      · exact .inr ⟨_ :: u, v, j, rfl, .read hs he hu, hv, rfl⟩
    · exact absurd hblank hs

/-- The words of the automaton are those of the first one, and those of the copied one behind a word
that leads the first one back to where it starts. -/
theorem accepts_iff (h : Copies A B C f p q) (hA : A.Coherent) (hB : B.Coherent)
    (hp : A.start = some p) (hq : B.start = some q) :
    C.Accepts w ↔ A.Accepts w ∨ ∃ u v, w = u ++ v ∧ A.Run p u p ∧ B.Accepts v := by
  have hplt := hA.start_lt p hp
  have hqlt := hB.start_lt q hq
  constructor
  · rintro ⟨p', hp', r, hr, hrun⟩
    cases hp'.symm.trans h.start_eq
    rcases h.run_of_first hA.toWellFormed hB.toWellFormed hplt hqlt hplt hrun with
      hstay | ⟨u, v, j, rfl, hu, hv, rfl⟩
    · rcases (h.mem_accepting r).1 hr with hr | ⟨i, hi, rfl⟩
      · exact .inl ⟨p, hp, r, hr, hstay⟩
      · have hlt := hA.toWellFormed.run_lt hstay hplt
        have hle := h.size_le i (hB.accepting_lt i hi)
        omega
    · have hj := hB.toWellFormed.run_lt hv hqlt
      rcases (h.mem_accepting _).1 hr with hr | ⟨i, hi, hij⟩
      · have hlt := hA.accepting_lt _ hr
        have hle := h.size_le j hj
        omega
      · cases h.injective i (hB.accepting_lt i hi) j hj hij
        exact .inr ⟨u, v, rfl, hu, q, hq, j, hi, hv⟩
  · have hedges : ∀ e ∈ A.edges, e ∈ C.edges := fun ⟨_, _, _⟩ he => (h.mem_edges _ _ _).2 (.inl he)
    rintro (⟨p', hp', r, hr, hrun⟩ | ⟨u, v, rfl, hu, q', hq', r, hr, hv⟩)
    · cases hp'.symm.trans hp
      exact ⟨p, h.start_eq, r, (h.mem_accepting r).2 (.inl hr), hrun.mono hedges⟩
    · cases hq'.symm.trans hq
      have hmove : ⟨p, .blank, f q⟩ ∈ C.edges := (h.mem_edges _ _ _).2 (.inr (.inr ⟨rfl, rfl, rfl⟩))
      exact ⟨p, h.start_eq, f r, (h.mem_accepting _).2 (.inr ⟨r, hr, rfl⟩),
        (hu.mono hedges).trans (.silent hmove (h.run_copy hv))⟩

end Copies

end

/-- Joining fails only for the want of a start state, and then leaves the automaton as it was.  If
no state of `B` is called like one of `A`, the words of the joined automaton are those of `A` and
those of `B` behind any word that leads `A` from its start state back to it.  These are the words of
`A` and of `B` if no word but the empty one does so. -/
theorem join_language (hA : A.Built) (hB : B.Built) :
    (∀ e, (A.joinInto B).1 = .error e ↔
      e = .missingStart ∧ (A.start = none ∨ B.start = none)) ∧
    (∀ e, (A.joinInto B).1 = .error e → (A.joinInto B).2 = A) ∧
    ∀ C, A.join B = .ok C → (∀ n ∈ A.names, ¬ n ∈ B.names) → ∃ p, A.start = some p ∧
      (∀ w, C.Accepts w ↔ A.Accepts w ∨ ∃ u v, w = u ++ v ∧ A.Run p u p ∧ B.Accepts v) ∧
      ((∀ u, A.Run p u p → u = []) → ∀ w, C.Accepts w ↔ A.Accepts w ∨ B.Accepts w) := by
  have hcases := joinInto_cases hA.wellFormed hB.wellFormed
  refine ⟨fun e => ?_, fun e he => ?_, fun C hC hdisjoint => ?_⟩
  · obtain ⟨hnone, hjoin⟩ | ⟨C, p, q, hp, hq, hjoin, -⟩ := hcases
    · rw [hjoin]
      simp [hnone, eq_comm]
    · simp [hjoin, hp, hq]
  · obtain ⟨hnone, hjoin⟩ | ⟨C, p, q, hp, hq, hjoin, -⟩ := hcases
    · rw [hjoin]
    · simp [hjoin] at he
  · rw [join_eq_ok_iff] at hC
    obtain ⟨hnone, hjoin⟩ | ⟨C', p, q, hp, hq, hjoin, hadded⟩ := hcases
    · rw [hjoin] at hC
      cases hC
    · cases hjoin.symm.trans hC
      have hCbuilt : C.Built := .join hA hB (join_eq_ok_iff.2 hC)
      have hcopies := hadded.copies hA.coherent hB.coherent hCbuilt.coherent hdisjoint hp hq
      have hwords : ∀ w, C.Accepts w ↔
          A.Accepts w ∨ ∃ u v, w = u ++ v ∧ A.Run p u p ∧ B.Accepts v := fun w =>
        hcopies.accepts_iff hA.coherent hB.coherent hp hq
      refine ⟨p, hp, hwords, fun hback w => (hwords w).trans (or_congr_right ?_)⟩
      constructor
      · rintro ⟨u, v, rfl, hu, hv⟩
        cases hback u hu
        exact hv
      · intro hv
        exact ⟨[], w, rfl, .nil p, hv⟩

theorem le_of_run (h : ∀ e ∈ A.edges, e.source < e.target) (hrun : A.Run p w q) :
    p ≤ q ∧ (p = q → w = []) := by
  induction hrun with
  | nil => simp
  | silent he _ ih =>
    have hlt := h _ he
    simp only at hlt
    omega
  | read _ he _ ih =>
    have hlt := h _ he
    simp only at hlt
    omega

/-- The automaton of the words that repeat one symbol. -/
def repetition : Except Error Automaton := do
  let A ← ((({} : Automaton).addSymbol ⟨"x"⟩).addState "r").addEdge "r" ⟨"x"⟩ "r"
  let A ← A.setStart "r"
  A.setAccepting "r"

theorem built_repetition (h : repetition = .ok A) : A.Built := by
  unfold repetition at h
  simp only [bind_eq_ok_iff] at h
  obtain ⟨A₁, h₁, A₂, h₂, h⟩ := h
  have hA₁ : A₁.Built := .addEdge (.addState "r" (.addSymbol ⟨"x"⟩ .empty)) h₁
  exact (hA₁.setStart h₂).setAccepting h

/-- Nothing leads back in the automaton of the demonstration, but every word in the other one. -/
theorem join_language_repetition :
    ∃ A B C D, Demo.levels = .ok A ∧ repetition = .ok B ∧ A.join B = .ok C ∧ B.join A = .ok D ∧
      (∀ w, C.Accepts w ↔ A.Accepts w ∨ B.Accepts w) ∧
      ∀ w, D.Accepts w ↔ B.Accepts w ∨ ∃ u v, w = u ++ v ∧ B.Run 0 u 0 ∧ A.Accepts v := by
  have hA := Demo.levels_eq
  have hB : repetition = .ok (repetition.toOption.getD {}) := by decide +kernel
  have hC : (Demo.levels.toOption.getD {}).join (repetition.toOption.getD {}) =
      .ok (((Demo.levels.toOption.getD {}).join (repetition.toOption.getD {})).toOption.getD {}) := by
    decide +kernel
  have hD : (repetition.toOption.getD {}).join (Demo.levels.toOption.getD {}) =
      .ok (((repetition.toOption.getD {}).join (Demo.levels.toOption.getD {})).toOption.getD {}) := by
    decide +kernel
  have hforward : ∀ e ∈ (Demo.levels.toOption.getD {}).edges.toList, e.source < e.target := by
    decide +kernel
  obtain ⟨p, hp, -, hunion⟩ := (join_language (Demo.built_levels hA) (built_repetition hB)).2.2
    _ hC (by decide +kernel)
  obtain ⟨q, hq, hwords, -⟩ := (join_language (built_repetition hB) (Demo.built_levels hA)).2.2
    _ hD (by decide +kernel)
  have hstart : (repetition.toOption.getD {}).start = some 0 := by decide +kernel
  cases hq.symm.trans hstart
  exact ⟨_, _, _, _, hA, hB, hC, hD, hunion fun u hu => (le_of_run hforward hu).2 rfl, hwords⟩

end TreeControl.Automaton
