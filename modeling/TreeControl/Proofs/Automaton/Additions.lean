import TreeControl.Proofs.Automaton.Built

/-! # What additions make

Joining makes one call after the other, and each of them can fail: a name may be unknown, or a symbol
foreign.  `Automaton.Ready` says what a call needs.  Automata only grow under additions, so what is
ready stays ready (`Ready.mono`), and every call of a join is ready when its turn comes, because its
symbols and states were added before (`exists_addAll_additions`).  So a join fails only for the want
of a start state, before it has added anything (`exists_joinInto`).

`Added A cs C` describes what the additions `cs` make of `A`.  One addition gives it
(`Added.of_add`), and two runs of additions compose (`Added.trans`). -/

namespace TreeControl.Automaton

variable {A B C : Automaton} {p q r i : Nat} {s : Symbol} {name : String} {c : Addition}
  {cs ds : List Addition}

/-! ### Names behind a prefix -/

theorem exists_stateId?_iff : (∃ i, A.stateId? name = some i) ↔ name ∈ A.names := by
  rw [← Option.isSome_iff_exists]
  unfold stateId?
  rw [List.isSome_idxOf?]

theorem stateId?_of_prefix (h : A.names <+: C.names) (hi : A.stateId? name = some i) :
    C.stateId? name = some i := by
  obtain ⟨names, hnames⟩ := h
  unfold stateId? List.idxOf? at hi ⊢
  rw [← hnames, List.findIdx?_append, hi, Option.some_or]

theorem names_addState_prefix (A : Automaton) (name : String) :
    A.names <+: (A.addState name).names := by
  unfold addState
  split
  · exact List.prefix_rfl
  · exact List.prefix_append _ _

@[simp] theorem alphabet_addState : (A.addState name).alphabet = A.alphabet := by
  unfold addState
  split <;> rfl

@[simp] theorem start_addState : (A.addState name).start = A.start := by
  unfold addState
  split <;> rfl

@[simp] theorem accepting_addState : (A.addState name).accepting = A.accepting := by
  unfold addState
  split <;> rfl

@[simp] theorem edges_addState : (A.addState name).edges = A.edges := by
  unfold addState
  split <;> rfl

/-! ### What an addition needs -/

/-- What an addition needs: states of the names that it mentions, and a symbol of the alphabet or
the blank symbol. -/
def Ready (A : Automaton) : Addition → Prop
  | .symbol _ => True
  | .state _ => True
  | .accepting name => name ∈ A.names
  | .edge source s target =>
    source ∈ A.names ∧ target ∈ A.names ∧ (s = .blank ∨ s ∈ A.alphabet)

theorem exists_add_iff : (∃ C, A.add c = .ok C) ↔ A.Ready c := by
  cases c with
  | symbol s => exact ⟨fun _ => trivial, fun _ => ⟨_, rfl⟩⟩
  | state name => exact ⟨fun _ => trivial, fun _ => ⟨_, rfl⟩⟩
  | accepting name =>
    simp only [add, setAccepting_eq_ok_iff, Ready, ← exists_stateId?_iff]
    constructor
    · rintro ⟨C, i, hi, -⟩
      exact ⟨i, hi⟩
    · rintro ⟨i, hi⟩
      exact ⟨_, i, hi, rfl⟩
  | edge source s target =>
    simp only [add, addEdge_eq_ok_iff, Ready, ← exists_stateId?_iff]
    constructor
    · rintro ⟨C, p, q, hp, hq, hs, -⟩
      exact ⟨⟨p, hp⟩, ⟨q, hq⟩, hs⟩
    · rintro ⟨⟨p, hp⟩, ⟨q, hq⟩, hs⟩
      exact ⟨_, p, q, hp, hq, hs, rfl⟩

theorem Ready.mono (hnames : A.names <+: C.names) (halphabet : ∀ s ∈ A.alphabet, s ∈ C.alphabet)
    (h : A.Ready c) : C.Ready c := by
  cases c with
  | symbol s => trivial
  | state name => trivial
  | accepting name => exact hnames.subset h
  | edge source s target =>
    obtain ⟨hsource, htarget, hs⟩ := h
    exact ⟨hnames.subset hsource, hnames.subset htarget, hs.imp_right (halphabet s)⟩

/-! ### What additions make -/

/-- `C` is what the additions `cs` make of `A`. -/
structure Added (A : Automaton) (cs : List Addition) (C : Automaton) : Prop where
  ready : ∀ c ∈ cs, C.Ready c
  names_prefix : A.names <+: C.names
  mem_names : ∀ n, n ∈ C.names ↔ n ∈ A.names ∨ .state n ∈ cs
  mem_alphabet : ∀ s, s ∈ C.alphabet ↔ s ∈ A.alphabet ∨ .symbol s ∈ cs
  start_eq : C.start = A.start
  mem_accepting : ∀ r, r ∈ C.accepting ↔
    r ∈ A.accepting ∨ ∃ n, .accepting n ∈ cs ∧ C.stateId? n = some r
  mem_edges : ∀ p s q, ⟨p, s, q⟩ ∈ C.edges ↔ ⟨p, s, q⟩ ∈ A.edges ∨
    ∃ m n, .edge m s n ∈ cs ∧ C.stateId? m = some p ∧ C.stateId? n = some q

namespace Added

theorem nil (A : Automaton) : Added A [] A where
  ready := by simp
  names_prefix := List.prefix_rfl
  mem_names := by simp
  mem_alphabet := by simp
  start_eq := rfl
  mem_accepting := by simp
  mem_edges := by simp

theorem of_add (h : A.add c = .ok C) : Added A [c] C := by
  have hready := exists_add_iff.1 ⟨C, h⟩
  cases c with
  | symbol s =>
    cases h
    constructor <;> simp [addSymbol, Ready, or_comm]
  | state name =>
    cases h
    constructor <;> simp [mem_names_addState, names_addState_prefix, Ready, or_comm]
  | accepting name =>
    obtain ⟨i, hi, rfl⟩ := setAccepting_eq_ok_iff.1 h
    refine ⟨List.forall_mem_singleton.2 hready, List.prefix_rfl, by simp, by simp, rfl,
      fun r => ?_, by simp⟩
    rw [OrdSet.mem_insert, or_comm]
    apply or_congr_right
    constructor
    · rintro rfl
      exact ⟨name, List.mem_singleton.2 rfl, hi⟩
    · rintro ⟨n, hn, hr⟩
      cases List.mem_singleton.1 hn
      exact Option.some.inj (hr.symm.trans hi)
  | edge source s target =>
    obtain ⟨p, q, hp, hq, hs, rfl⟩ := addEdge_eq_ok_iff.1 h
    refine ⟨List.forall_mem_singleton.2 hready, List.prefix_rfl, by simp, by simp, rfl, by simp,
      fun p' s' q' => ?_⟩
    rw [OrdSet.mem_insert, or_comm]
    apply or_congr_right
    constructor
    · intro e
      cases e
      exact ⟨source, target, List.mem_singleton.2 rfl, hp, hq⟩
    · rintro ⟨m, n, hmn, hm, hn⟩
      cases List.mem_singleton.1 hmn
      cases hm.symm.trans hp
      cases hn.symm.trans hq
      rfl

/-- What an addition mentions has the number that it had when the addition was made. -/
theorem stateId?_iff (h : Added B ds C) (hname : name ∈ B.names) :
    C.stateId? name = some i ↔ B.stateId? name = some i := by
  obtain ⟨j, hj⟩ := exists_stateId?_iff.2 hname
  rw [hj, stateId?_of_prefix h.names_prefix hj]

theorem trans (hAB : Added A cs B) (hBC : Added B ds C) : Added A (cs ++ ds) C where
  ready c hc := by
    rcases List.mem_append.1 hc with hc | hc
    · exact (hAB.ready c hc).mono hBC.names_prefix fun s hs => (hBC.mem_alphabet s).2 (.inl hs)
    · exact hBC.ready c hc
  names_prefix := hAB.names_prefix.trans hBC.names_prefix
  mem_names n := by
    rw [hBC.mem_names, hAB.mem_names, List.mem_append, or_assoc]
  mem_alphabet s := by
    rw [hBC.mem_alphabet, hAB.mem_alphabet, List.mem_append, or_assoc]
  start_eq := hBC.start_eq.trans hAB.start_eq
  mem_accepting r := by
    have hnumber : ∀ n, .accepting n ∈ cs →
        (C.stateId? n = some r ↔ B.stateId? n = some r) := fun n hn =>
      hBC.stateId?_iff (hAB.ready _ hn)
    rw [hBC.mem_accepting, hAB.mem_accepting, or_assoc]
    apply or_congr_right
    simp only [List.mem_append, or_and_right, exists_or]
    apply or_congr_left
    exact exists_congr fun n => and_congr_right fun hn => (hnumber n hn).symm
  mem_edges p s q := by
    have hnumber : ∀ m n, .edge m s n ∈ cs →
        ((C.stateId? m = some p ∧ C.stateId? n = some q) ↔
          (B.stateId? m = some p ∧ B.stateId? n = some q)) := fun m n hmn => by
      obtain ⟨hm, hn, -⟩ := hAB.ready _ hmn
      rw [hBC.stateId?_iff hm, hBC.stateId?_iff hn]
    rw [hBC.mem_edges, hAB.mem_edges, or_assoc]
    apply or_congr_right
    simp only [List.mem_append, or_and_right, exists_or]
    apply or_congr_left
    exact exists_congr fun m => exists_congr fun n => and_congr_right fun hmn =>
      (hnumber m n hmn).symm

end Added

/-! ### Runs of additions -/

theorem added_of_addAll (h : A.addAll cs = (.ok (), C)) : Added A cs C := by
  induction cs generalizing A with
  | nil =>
    cases h
    exact .nil _
  | cons c cs ih =>
    rw [addAll] at h
    cases hc : A.add c with
    | error e =>
      rw [hc] at h
      cases h
    | ok B =>
      rw [hc] at h
      exact (Added.of_add hc).trans (ih h)

theorem addAll_append (h : A.addAll cs = (.ok (), B)) : A.addAll (cs ++ ds) = B.addAll ds := by
  induction cs generalizing A with
  | nil =>
    cases h
    rfl
  | cons c cs ih =>
    rw [addAll] at h
    rw [List.cons_append, addAll]
    cases hc : A.add c with
    | error e =>
      rw [hc] at h
      cases h
    | ok B =>
      rw [hc] at h
      exact ih h

theorem exists_addAll (h : ∀ c ∈ cs, A.Ready c) : ∃ C, A.addAll cs = (.ok (), C) := by
  induction cs generalizing A with
  | nil => exact ⟨_, rfl⟩
  | cons c cs ih =>
    obtain ⟨hc, hcs⟩ := List.forall_mem_cons.1 h
    obtain ⟨B, hB⟩ := exists_add_iff.2 hc
    have hadded := Added.of_add hB
    rw [addAll, hB]
    exact ih fun d hd => (hcs d hd).mono hadded.names_prefix
      fun s hs => (hadded.mem_alphabet s).2 (.inl hs)

/-- A state can be made accepting after it is added. -/
theorem exists_addAll_stateAdditions (A B : Automaton) (states : List (String × Nat)) :
    ∃ C, A.addAll (states.flatMap B.stateAdditions) = (.ok (), C) := by
  induction states generalizing A with
  | nil => exact ⟨A, rfl⟩
  | cons state states ih =>
    have hready : ∀ c ∈ (B.stateAdditions state).tail, (A.addState state.1).Ready c := by
      unfold stateAdditions
      split <;> simp [Ready, mem_names_addState]
    obtain ⟨C, hC⟩ := exists_addAll hready
    have hfirst : A.addAll (B.stateAdditions state) = (.ok (), C) := hC
    rw [List.flatMap_cons, addAll_append hfirst]
    exact ih C

/-! ### A join succeeds -/

theorem mem_names_of_label (hi : i < B.size) : B.label i ∈ B.names := by
  unfold label stateName?
  rw [List.getElem?_eq_getElem hi]
  exact List.getElem_mem hi

theorem mem_stateAdditions {state : String × Nat} :
    c ∈ B.stateAdditions state ↔
      c = .state state.1 ∨ state.2 ∈ B.accepting ∧ c = .accepting state.1 := by
  unfold stateAdditions
  split <;> simp [*]

theorem mem_additions_iff :
    c ∈ B.additions ↔ (∃ s ∈ B.alphabet, c = .symbol s) ∨ (∃ n ∈ B.names, c = .state n) ∨
      (∃ i n, i ∈ B.accepting ∧ B.stateName? i = some n ∧ c = .accepting n) ∨
      ∃ e ∈ B.edges, c = B.edgeAddition e := by
  unfold additions
  simp only [List.mem_append, List.mem_map, List.mem_flatMap, mem_stateAdditions, ← OrdSet.mem_def,
    Prod.exists, List.mem_zipIdx_iff_getElem?, or_assoc, eq_comm (a := c)]
  apply or_congr_right
  rw [← or_assoc]
  apply or_congr_left
  constructor
  · rintro ⟨n, i, hi, rfl | ⟨ha, rfl⟩⟩
    · exact .inl ⟨n, List.mem_of_getElem? hi, rfl⟩
    · exact .inr ⟨i, n, ha, hi, rfl⟩
  · rintro (⟨n, hn, rfl⟩ | ⟨i, n, ha, hi, rfl⟩)
    · obtain ⟨i, hi⟩ := List.mem_iff_getElem?.1 hn
      exact ⟨n, i, hi, .inl rfl⟩
    · exact ⟨n, i, hi, .inr ⟨ha, rfl⟩⟩

/-- Everything of an automaton can be added to any other one. -/
theorem exists_addAll_additions (A : Automaton) (hB : B.WellFormed) :
    ∃ C, A.addAll B.additions = (.ok (), C) := by
  have hsymbols : ∀ c ∈ B.alphabet.toList.map Addition.symbol, A.Ready c := by simp [Ready]
  obtain ⟨A₁, h₁⟩ := exists_addAll hsymbols
  obtain ⟨A₂, h₂⟩ := exists_addAll_stateAdditions A₁ B B.names.zipIdx
  have h₁₂ := (addAll_append h₁).trans h₂
  have hadded := added_of_addAll h₁₂
  have hname : ∀ i < B.size, B.label i ∈ A₂.names := by
    intro i hi
    obtain ⟨k, hk⟩ := List.mem_iff_getElem?.1 (mem_names_of_label hi)
    refine (hadded.mem_names _).2 (.inr (List.mem_append_right _ (List.mem_flatMap.2 ?_)))
    exact ⟨(B.label i, k), List.mem_zipIdx_iff_getElem?.2 hk, mem_stateAdditions.2 (.inl rfl)⟩
  unfold additions
  rw [addAll_append h₁₂]
  apply exists_addAll
  intro c hc
  obtain ⟨e, he, rfl⟩ := List.mem_map.1 hc
  refine ⟨hname _ (hB.source_lt e he), hname _ (hB.target_lt e he), ?_⟩
  refine (hB.label_mem e he).imp_right fun hs => (hadded.mem_alphabet _).2 (.inr ?_)
  exact List.mem_append_left _ (List.mem_map.2 ⟨_, hs, rfl⟩)

/-- A join of automata that have start states succeeds. -/
theorem exists_joinInto (hA : A.WellFormed) (hB : B.WellFormed) (hp : A.start = some p)
    (hq : B.start = some q) :
    ∃ C, A.joinInto B = (.ok (), C) ∧
      Added A (B.additions ++ [.edge (A.label p) .blank (B.label q)]) C := by
  obtain ⟨D, hD⟩ := exists_addAll_additions A hB
  have hadded := added_of_addAll hD
  have hready : D.Ready (.edge (A.label p) .blank (B.label q)) := by
    refine ⟨hadded.names_prefix.subset (mem_names_of_label (hA.start_lt p hp)), ?_, .inl rfl⟩
    rw [hadded.mem_names, mem_additions_iff]
    exact .inr (.inr (.inl ⟨_, mem_names_of_label (hB.start_lt q hq), rfl⟩))
  obtain ⟨C, hC⟩ := exists_addAll (List.forall_mem_singleton.2 hready)
  have h : A.joinInto B = (.ok (), C) := by
    unfold joinInto
    rw [hp, hq]
    exact (addAll_append hD).trans hC
  exact ⟨C, h, hadded.trans (added_of_addAll hC)⟩

/-- A join of which one start state is missing changes nothing, and any other join succeeds. -/
theorem joinInto_cases (hA : A.WellFormed) (hB : B.WellFormed) :
    ((A.start = none ∨ B.start = none) ∧ A.joinInto B = (.error .missingStart, A)) ∨
      ∃ C p q, A.start = some p ∧ B.start = some q ∧ A.joinInto B = (.ok (), C) ∧
        Added A (B.additions ++ [.edge (A.label p) .blank (B.label q)]) C := by
  cases hp : A.start with
  | none => exact .inl ⟨.inl rfl, by simp only [joinInto, hp]⟩
  | some p =>
    cases hq : B.start with
    | none => exact .inl ⟨.inr rfl, by simp only [joinInto, hp, hq]⟩
    | some q =>
      obtain ⟨C, hC, hadded⟩ := exists_joinInto hA hB hp hq
      exact .inr ⟨C, p, q, rfl, rfl, hC, hadded⟩

end TreeControl.Automaton
