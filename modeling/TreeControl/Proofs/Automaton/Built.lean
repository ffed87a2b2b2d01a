import TreeControl.Automaton.Union
import TreeControl.Proofs.Attempt
import TreeControl.Proofs.Automaton.Subsets

/-! # Automata that can be built

`A.Built` says that `A` comes from the empty automaton by the operations on automata.  A failing
operation leaves an automaton as it is, except that a failing `prepare` has dropped the silent
moves.  Each operation keeps an automaton well-formed (`WellFormed.addState` and the lemmas that
follow it). -/

namespace TreeControl.Automaton

/-- The automata that the operations make, beginning with the empty one. -/
inductive Built : Automaton → Prop
  | empty : Built {}
  | addState {A : Automaton} (name : String) : Built A → Built (A.addState name)
  | addSymbol {A : Automaton} (s : Symbol) : Built A → Built (A.addSymbol s)
  | addEdge {A B : Automaton} {source target : String} {s : Symbol} :
      Built A → A.addEdge source s target = .ok B → Built B
  | setStart {A B : Automaton} {name : String} : Built A → A.setStart name = .ok B → Built B
  | setAccepting {A B : Automaton} {name : String} :
      Built A → A.setAccepting name = .ok B → Built B
  | dropEpsilon {A : Automaton} : Built A → Built A.dropEpsilon.value
  | determinize {A D : Automaton} : Built A → A.determinize.outcome = .ok D → Built D
  | collectArrivals {A : Automaton} : Built A → Built A.collectArrivals
  | prepare {A : Automaton} : Built A → Built A.afterPrepare
  | join {A B C : Automaton} : Built A → Built B → A.join B = .ok C → Built C

variable {A B C D : Automaton} {p q start : Nat} {s : Symbol}

theorem Built.addStates (names : List String) (h : A.Built) :
    (names.foldl Automaton.addState A).Built := by
  induction names generalizing A with
  | nil => exact h
  | cons name names ih => exact ih (h.addState name)

theorem Built.addSymbols (symbols : List Symbol) (h : A.Built) :
    (symbols.foldl Automaton.addSymbol A).Built := by
  induction symbols generalizing A with
  | nil => exact h
  | cons s symbols ih => exact ih (h.addSymbol s)

/-! ### What the operations give -/

theorem lt_of_stateId? {name : String} (h : A.stateId? name = some p) : p < A.size := by
  unfold stateId? List.idxOf? at h
  exact (List.findIdx?_eq_some_iff_getElem.1 h).1

theorem findState_eq_ok_iff {name : String} :
    A.findState name = .ok p ↔ A.stateId? name = some p := by
  unfold findState
  cases A.stateId? name <;> simp

theorem addEdge_eq_ok_iff {source target : String} :
    A.addEdge source s target = .ok B ↔
      ∃ p q, A.stateId? source = some p ∧ A.stateId? target = some q ∧
        (s = .blank ∨ s ∈ A.alphabet) ∧
        B = { A with edges := A.edges.insert ⟨p, s, q⟩, arrivals := none } := by
  unfold addEdge
  simp only [bind_eq_ok_iff, findState_eq_ok_iff, Bool.or_eq_true, Symbol.isBlank_iff,
    decide_eq_true_eq]
  constructor
  · rintro ⟨p, hp, q, hq, h⟩
    split at h
    · rename_i hs
      cases h
      exact ⟨p, q, hp, hq, hs, rfl⟩
    · cases h
  · rintro ⟨p, q, hp, hq, hs, rfl⟩
    exact ⟨p, hp, q, hq, if_pos hs⟩

theorem setStart_cases {name : String} (h : A.setStart name = .ok B) :
    ∃ p, p < A.size ∧ B = { A with start := some p } := by
  unfold setStart at h
  split at h
  · cases h
  · obtain ⟨p, hp, h⟩ := bind_eq_ok_iff.1 h
    cases h
    exact ⟨p, lt_of_stateId? (findState_eq_ok_iff.1 hp), rfl⟩

theorem setAccepting_eq_ok_iff {name : String} :
    A.setAccepting name = .ok B ↔
      ∃ p, A.stateId? name = some p ∧ B = { A with accepting := A.accepting.insert p } := by
  unfold setAccepting
  simp only [bind_eq_ok_iff, findState_eq_ok_iff, pure_eq_ok_iff]
  exact exists_congr fun p => and_congr_right fun _ => eq_comm

theorem firstEpsilon?_eq_none_iff : A.firstEpsilon? = none ↔ A.EpsilonFree := by
  unfold firstEpsilon? EpsilonFree
  rw [Option.map_eq_none_iff, List.find?_eq_none]
  simp only [Edge.isEpsilon, Symbol.isBlank_iff]
  exact Iff.rfl

theorem determinize_outcome_iff :
    A.determinize.outcome = .ok D ↔
      ∃ start, A.start = some start ∧ A.EpsilonFree ∧ D = A.powerset start := by
  unfold determinize
  cases hs : A.start with
  | none => simp
  | some start =>
    cases he : A.firstEpsilon? with
    | some id =>
      have : ¬ A.EpsilonFree := by
        rw [← firstEpsilon?_eq_none_iff, he]
        simp
      simp [this]
    | none =>
      have free := firstEpsilon?_eq_none_iff.1 he
      simp only [Attempt.outcome_bind, Attempt.outcome_emit, Attempt.outcome_pure]
      constructor
      · intro h
        cases h
        exact ⟨start, rfl, free, rfl⟩
      · rintro ⟨p, hp, -, rfl⟩
        cases hp
        rfl

theorem prepare_outcome_iff :
    A.prepare.outcome = .ok D ↔
      ∃ start, A.start = some start ∧
        D = (A.dropEpsilon.value.powerset start).collectArrivals := by
  unfold prepare
  simp only [Attempt.outcome_bind, Attempt.outcome_lift, Attempt.outcome_pure]
  show (A.dropEpsilon.value.determinize.outcome >>= fun D => .ok D.collectArrivals) = _ ↔ _
  cases hB : A.dropEpsilon.value.determinize.outcome with
  | error e =>
    simp only [bind, Except.bind, reduceCtorEq, false_iff]
    rintro ⟨start, hs, -⟩
    have := (determinize_outcome_iff (A := A.dropEpsilon.value)).2
      ⟨start, hs, epsilonFree_dropEpsilon A, rfl⟩
    rw [hB] at this
    cases this
  | ok D' =>
    obtain ⟨start, hs, -, rfl⟩ := determinize_outcome_iff.1 hB
    constructor
    · intro h
      cases h
      exact ⟨start, hs, rfl⟩
    · rintro ⟨p, hp, rfl⟩
      cases hp.symm.trans hs
      rfl

/-- Preparing an automaton without a start state only drops the silent moves. -/
theorem afterPrepare_cases (A : Automaton) :
    (∃ start, A.start = some start ∧
      A.afterPrepare = (A.dropEpsilon.value.powerset start).collectArrivals) ∨
    A.afterPrepare = A.dropEpsilon.value := by
  unfold afterPrepare
  split
  · rename_i D h
    obtain ⟨start, hs, rfl⟩ := prepare_outcome_iff.1 h
    exact .inl ⟨start, hs, rfl⟩
  · exact .inr rfl

theorem mem_names_addState {n name : String} :
    n ∈ (A.addState name).names ↔ n = name ∨ n ∈ A.names := by
  unfold addState
  split
  · rename_i h
    constructor
    · exact .inr
    · rintro (rfl | hn)
      · exact h
      · exact hn
  · simp [or_comm]

theorem size_le_addState (A : Automaton) (name : String) : A.size ≤ (A.addState name).size := by
  unfold addState size
  split <;> simp

/-- What every addition keeps, additions keep together. -/
theorem of_addAll {P : Automaton → Prop} {cs : List Addition}
    (hadd : ∀ {A C : Automaton} {c : Addition}, P A → A.add c = .ok C → P C) (hA : P A) :
    P (A.addAll cs).2 := by
  induction cs generalizing A with
  | nil => exact hA
  | cons c cs ih =>
    rw [addAll]
    cases h : A.add c with
    | error e => exact hA
    | ok B => exact ih (hadd hA h)

theorem join_eq_ok_iff : A.join B = .ok C ↔ A.joinInto B = (.ok (), C) := by
  unfold join
  rcases A.joinInto B with ⟨_ | _, D⟩ <;> simp

/-! ### Well-formedness -/

theorem WellFormed.addState (hA : A.WellFormed) (name : String) : (A.addState name).WellFormed := by
  have hsize := size_le_addState A name
  unfold Automaton.addState at hsize ⊢
  split at hsize
  · rename_i h
    rw [if_pos h]
    exact hA
  · rename_i h
    rw [if_neg h]
    exact ⟨fun e he => lt_of_lt_of_le (hA.source_lt e he) hsize,
      fun e he => lt_of_lt_of_le (hA.target_lt e he) hsize, hA.label_mem,
      fun p hp => lt_of_lt_of_le (hA.start_lt p hp) hsize⟩

theorem WellFormed.collectArrivals (h : A.WellFormed) : A.collectArrivals.WellFormed :=
  ⟨h.source_lt, h.target_lt, h.label_mem, h.start_lt⟩

theorem WellFormed.addSymbol (h : A.WellFormed) (s : Symbol) : (A.addSymbol s).WellFormed :=
  ⟨h.source_lt, h.target_lt,
    fun e he => (h.label_mem e he).imp_right fun hs => OrdSet.mem_insert.2 (.inr hs), h.start_lt⟩

theorem WellFormed.addEdge {source target : String} (hA : A.WellFormed)
    (h : A.addEdge source s target = .ok B) : B.WellFormed := by
  obtain ⟨p, q, hp, hq, hs, rfl⟩ := addEdge_eq_ok_iff.1 h
  refine ⟨fun e he => ?_, fun e he => ?_, fun e he => ?_, hA.start_lt⟩
  · rcases OrdSet.mem_insert.1 he with rfl | he
    · exact lt_of_stateId? hp
    · exact hA.source_lt e he
  · rcases OrdSet.mem_insert.1 he with rfl | he
    · exact lt_of_stateId? hq
    · exact hA.target_lt e he
  · rcases OrdSet.mem_insert.1 he with rfl | he
    · exact hs
    · exact hA.label_mem e he

theorem WellFormed.setStart {name : String} (hA : A.WellFormed) (h : A.setStart name = .ok B) :
    B.WellFormed := by
  obtain ⟨p, hp, rfl⟩ := setStart_cases h
  refine ⟨hA.source_lt, hA.target_lt, hA.label_mem, fun q hq => ?_⟩
  cases hq
  exact hp

theorem WellFormed.setAccepting {name : String} (hA : A.WellFormed)
    (h : A.setAccepting name = .ok B) : B.WellFormed := by
  obtain ⟨p, -, rfl⟩ := setAccepting_eq_ok_iff.1 h
  exact ⟨hA.source_lt, hA.target_lt, hA.label_mem, hA.start_lt⟩

theorem WellFormed.add {c : Addition} (hA : A.WellFormed) (h : A.add c = .ok C) :
    C.WellFormed := by
  cases c with
  | symbol s =>
    cases h
    exact hA.addSymbol s
  | state name =>
    cases h
    exact hA.addState name
  | accepting name => exact hA.setAccepting h
  | edge source s target => exact hA.addEdge h

end TreeControl.Automaton
