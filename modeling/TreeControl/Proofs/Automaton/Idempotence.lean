import TreeControl.Proofs.Automaton.Language
import TreeControl.Proofs.Automaton.Coherence
import TreeControl.Proofs.Loops

/-! # Preparing twice

The states of a powerset automaton are numbered in the order in which a breadth-first search meets the
sets that they stand for.  The same search in the powerset automaton itself meets the sets of one
state each, in the order of their numbers (`subsets_powerset`): it is the first search with every set
renamed.  No two of these sets have the same name, so none is primed, and the second powerset
automaton is the first one (`powerset_powerset`).

With no silent moves left there is nothing to drop either (`EpsilonFree.dropEpsilon_eq`), so preparing a
prepared automaton changes nothing (`prepare_prepare`). -/

namespace TreeControl.Automaton

attribute [ext] Automaton

variable {A : Automaton} {start i j p q : Nat} {s : Symbol} {S T : OrdSet Nat} {w : List Symbol}

/-! ### No silent moves to drop -/

/-- Dropping the silent moves of an automaton that has none only discards the arrivals. -/
theorem EpsilonFree.dropEpsilon_eq (free : A.EpsilonFree) (hA : A.Coherent) :
    A.dropEpsilon.value = { A with arrivals := none } := by
  have hedges : A.dropEpsilon.value.edges = A.edges := by
    refine OrdSet.ext fun ⟨p, s, q⟩ => ?_
    rw [mem_edges_dropEpsilon]
    constructor
    · rintro ⟨-, -, r, hr, he⟩
      obtain rfl := free.run_nil_iff.1 hr
      exact he
    · intro he
      exact ⟨hA.source_lt _ he, free _ he, p, .nil p, he⟩
  have haccepting : A.dropEpsilon.value.accepting = A.accepting := by
    refine OrdSet.ext fun p => ?_
    rw [mem_accepting_dropEpsilon]
    constructor
    · rintro ⟨-, r, hr, hrun⟩
      obtain rfl := free.run_nil_iff.1 hrun
      exact hr
    · intro hp
      exact ⟨hA.accepting_lt p hp, p, hp, .nil p⟩
  exact Automaton.ext rfl rfl hedges rfl haccepting rfl

/-! ### The search in a powerset automaton -/

theorem getElem?_subsets_iff :
    (A.subsets start)[i]? = some S ↔ S ∈ A.subsets start ∧ i = (A.subsets start).idxOf S := by
  constructor
  · intro h
    obtain ⟨hi, rfl⟩ := List.getElem?_eq_some_iff.1 h
    exact ⟨List.getElem_mem hi, ((nodup_subsets A start).idxOf_getElem i hi).symm⟩
  · rintro ⟨hS, rfl⟩
    exact List.getElem?_idxOf hS

/-- The set of the one state that stands for a set. -/
def number (A : Automaton) (start : Nat) (S : OrdSet Nat) : OrdSet Nat :=
  .singleton ((A.subsets start).idxOf S)

theorem labelsFromSet_number (hS : S ∈ A.subsets start) :
    (A.powerset start).labelsFromSet (A.number start S) = A.labelsFromSet S := by
  refine OrdSet.ext fun s => ?_
  simp only [mem_labelsFromSet, number, OrdSet.mem_singleton, exists_eq_left, mem_edges_powerset,
    List.getElem?_idxOf hS, Option.some.injEq]
  constructor
  · rintro ⟨j, S', rfl, hs, -⟩
    exact hs
  · intro hs
    exact ⟨_, S, rfl, hs, List.getElem?_idxOf (image_mem_subsets hS (mem_labelsFromSet.2 hs))⟩

theorem image_number (hS : S ∈ A.subsets start) (hs : s ∈ A.labelsFromSet S) :
    (A.powerset start).image (A.number start S) s = A.number start (A.image S s) := by
  refine OrdSet.ext fun j => ?_
  simp only [mem_image, number, OrdSet.mem_singleton, exists_eq_left, mem_edges_powerset,
    List.getElem?_idxOf hS, Option.some.injEq, exists_eq_left']
  rw [getElem?_subsets_iff]
  constructor
  · rintro ⟨-, -, hj⟩
    exact hj
  · intro hj
    exact ⟨hs, image_mem_subsets hS hs, hj⟩

/-- The sets that follow in the powerset automaton stand for the sets that follow in the automaton
itself, in the same order. -/
theorem successors_number (hS : S ∈ A.subsets start) :
    (A.powerset start).successors (A.number start S) = (A.successors S).map (A.number start) := by
  unfold successors
  rw [labelsFromSet_number hS, List.map_map]
  exact List.map_congr_left fun s hs => image_number hS hs

theorem map_number_subsets (A : Automaton) (start : Nat) :
    (A.subsets start).map (A.number start) =
      (List.range (A.powerset start).size).map .singleton := by
  rw [size_powerset]
  refine List.ext_getElem (by simp) fun i hi _ => ?_
  rw [List.length_map] at hi
  simp only [List.getElem_map, List.getElem_range, number, (nodup_subsets A start).idxOf_getElem]

/-- In a powerset automaton the search meets the states one by one in the order of their
numbers. -/
theorem subsets_powerset (A : Automaton) (start : Nat) :
    (A.powerset start).subsets 0 = (List.range (A.powerset start).size).map .singleton := by
  have hfirst : A.number start (.singleton start) = .singleton 0 := by
    rw [number, ← (getElem?_subsets_iff.1 (subsets_getElem?_zero A start)).2]
  have renamed : Ends (visit (A.powerset start).successors) ([], [.singleton 0])
      ((A.subsets start).map (A.number start), []) := by
    rw [← hfirst]
    refine (A.enough_subsets start).ends.visit_map (fun S hS T hT h => ?_)
      fun S hS => successors_number hS
    have hmem : (A.subsets start).idxOf S ∈ A.number start T := h ▸ OrdSet.mem_singleton.2 rfl
    exact (List.idxOf_inj hS).1 (OrdSet.mem_singleton.1 hmem)
  have found := ((A.powerset start).enough_subsets 0).ends.unique renamed
  rw [← map_number_subsets]
  exact congrArg Prod.fst found

theorem exists_run_powerset_zero (free : A.EpsilonFree) (hi : (A.subsets start)[i]? = some S) :
    ∃ w, (A.powerset start).Run 0 w i := by
  have reach := mem_subsets_iff.1 (List.mem_of_getElem? hi)
  induction reach generalizing i with
  | refl =>
    rw [(getElem?_subsets_iff.1 hi).2,
      ← (getElem?_subsets_iff.1 (subsets_getElem?_zero A start)).2]
    exact ⟨[], .nil 0⟩
  | @tail S T hS hT ih =>
    obtain ⟨s, hs, rfl⟩ := List.mem_map.1 hT
    have hk := List.getElem?_idxOf (mem_subsets_iff.2 hS)
    obtain ⟨w, hw⟩ := ih hk
    have he := mem_edges_powerset.2 ⟨S, hk, hs, hi⟩
    exact ⟨w ++ [s], hw.trans (.read (free.powerset _ he) he (.nil i))⟩

/-! ### Names that need no marks -/

theorem nameSets_eq_map {sets : List (OrdSet Nat)} (h : (sets.map A.setName).Nodup) :
    A.nameSets sets = sets.map A.setName := by
  induction sets using List.reverseRecOn with
  | nil => rfl
  | append_singleton sets S ih =>
    rw [List.map_append, List.map_singleton, List.nodup_append] at h
    obtain ⟨hsets, -, hdisjoint⟩ := h
    have hnew : ¬ A.setName S ∈ A.nameSets sets := by
      rw [ih hsets]
      exact fun hmem => hdisjoint _ hmem _ List.mem_cons_self rfl
    rw [nameSets_snoc, unusedName_eq_self hnew, ih hsets, List.map_append, List.map_singleton]

theorem map_label_range (A : Automaton) : (List.range A.size).map A.label = A.names := by
  refine List.ext_getElem (by simp [size]) fun i _ hi => ?_
  simp [label, stateName?, hi]

theorem nameSets_singletons (h : A.names.Nodup) :
    A.nameSets ((List.range A.size).map .singleton) = A.names := by
  have hnames : ((List.range A.size).map OrdSet.singleton).map A.setName = A.names := by
    rw [List.map_map, ← map_label_range]
    exact List.map_congr_left fun i _ => A.setName_singleton i
  rw [nameSets_eq_map (by rwa [hnames]), hnames]

/-! ### The second time -/

theorem getElem?_subsets_powerset_iff :
    ((A.powerset start).subsets 0)[i]? = some S ↔
      i < (A.powerset start).size ∧ S = .singleton i := by
  rw [subsets_powerset, List.getElem?_eq_some_iff]
  simp [eq_comm]

theorem names_powerset_powerset (hD : (A.powerset start).Coherent) :
    ((A.powerset start).powerset 0).names = (A.powerset start).names := by
  show (A.powerset start).nameSets ((A.powerset start).subsets 0) = _
  rw [subsets_powerset]
  exact nameSets_singletons hD.nodup_names

theorem edges_powerset_powerset (hD : (A.powerset start).Coherent) :
    ((A.powerset start).powerset 0).edges = (A.powerset start).edges := by
  refine OrdSet.ext fun ⟨i, s, j⟩ => ?_
  rw [mem_edges_powerset]
  simp only [getElem?_subsets_powerset_iff, mem_labelsFromSet]
  constructor
  · rintro ⟨_, ⟨hi, rfl⟩, -, hj, himage⟩
    obtain ⟨p, hp, he⟩ := mem_image.1 (himage ▸ OrdSet.mem_singleton.2 rfl)
    obtain rfl := OrdSet.mem_singleton.1 hp
    exact he
  · intro he
    refine ⟨_, ⟨hD.source_lt _ he, rfl⟩, ⟨i, OrdSet.mem_singleton.2 rfl, j, he⟩,
      hD.target_lt _ he, OrdSet.ext fun k => ?_⟩
    -- The powerset automaton is deterministic, so what follows a set of one state is one too.
    rw [mem_image, OrdSet.mem_singleton]
    constructor
    · rintro ⟨p, hp, hk⟩
      obtain rfl := OrdSet.mem_singleton.1 hp
      exact eq_of_mem_edges_powerset hk he
    · rintro rfl
      exact ⟨i, OrdSet.mem_singleton.2 rfl, he⟩

theorem accepting_powerset_powerset (hD : (A.powerset start).Coherent) :
    ((A.powerset start).powerset 0).accepting = (A.powerset start).accepting := by
  refine OrdSet.ext fun i => ?_
  rw [mem_accepting_powerset]
  simp only [getElem?_subsets_powerset_iff]
  constructor
  · rintro ⟨_, ⟨hi, rfl⟩, q, hq, ha⟩
    obtain rfl := OrdSet.mem_singleton.1 hq
    exact ha
  · intro ha
    exact ⟨_, ⟨hD.accepting_lt i ha, rfl⟩, i, OrdSet.mem_singleton.2 rfl, ha⟩

/-- Making a powerset automaton deterministic again changes nothing. -/
theorem powerset_powerset (hA : A.Coherent) (start : Nat) :
    (A.powerset start).powerset 0 = A.powerset start := by
  have hD := hA.powerset start
  exact Automaton.ext (names_powerset_powerset hD) rfl (edges_powerset_powerset hD) rfl
    (accepting_powerset_powerset hD) rfl

/-- Preparing brings a deterministic automaton back that lacks only its arrivals, if making it
deterministic again changes nothing. -/
theorem prepare_collectArrivals (hA : A.Coherent) (free : A.EpsilonFree) (hstart : A.start = some 0)
    (harrivals : A.arrivals = none) (hsame : A.powerset 0 = A) :
    A.collectArrivals.prepare.outcome = .ok A.collectArrivals := by
  have hdrop : A.collectArrivals.dropEpsilon.value = A := by
    rw [EpsilonFree.dropEpsilon_eq (A := A.collectArrivals) free hA.collectArrivals]
    exact Automaton.ext rfl rfl rfl rfl rfl harrivals.symm
  refine prepare_outcome_iff.2 ⟨0, hstart, ?_⟩
  rw [hdrop, hsame]

/-- Once an automaton is prepared, every state is reached from the start state, and preparing it
again changes nothing: not the numbers of the states, their names, which of them accept, the
transitions, the start state, the alphabet or the arrivals. -/
theorem prepare_prepare (hA : A.Reachable) (hstart : A.start = some start) :
    ∃ D, A.prepare.outcome = .ok D ∧
      (∃ p, D.start = some p ∧ ∀ i < D.size, ∃ w, D.Run p w i) ∧
      D.prepare.outcome = .ok D := by
  have hB := hA.coherent.dropEpsilon
  have free := epsilonFree_dropEpsilon A
  have hprep := prepare_outcome_iff.2 ⟨start, hstart, rfl⟩
  have hreach : ∀ i < (A.dropEpsilon.value.powerset start).size,
      ∃ w, (A.dropEpsilon.value.powerset start).collectArrivals.Run 0 w i := by
    intro i hi
    rw [size_powerset] at hi
    obtain ⟨w, hw⟩ := exists_run_powerset_zero free (List.getElem?_eq_getElem hi)
    exact ⟨w, Run.mono (A := A.dropEpsilon.value.powerset start) (fun _ he => he) hw⟩
  have hagain := prepare_collectArrivals (hB.powerset start) free.powerset rfl rfl
    (powerset_powerset hB start)
  exact ⟨_, hprep, ⟨0, rfl, hreach⟩, hagain⟩

/-- The set of `s` and `t` is called like the state `s_t` and gets a mark.  The second time it is a
state of that name, which needs no mark. -/
theorem prepare_prepare_primed :
    ∃ A D : Automaton, A.Reachable ∧ A.start = some 0 ∧ A.prepare.outcome = .ok D ∧
      D.names = ["s", "s_t", "s_t'"] ∧ (∃ p, D.start = some p ∧ ∀ i < D.size, ∃ w, D.Run p w i) ∧
      D.prepare.outcome = .ok D := by
  have hcalls : ∀ B : Automaton, ¬ Call.join B ∈ [.addState "s", .addState "t", .addState "s_t",
      .addSymbol ⟨"a"⟩, .addSymbol ⟨"b"⟩, .addEdge "s" ⟨"a"⟩ "s_t", .addEdge "s" ⟨"b"⟩ "s",
      .addEdge "s" ⟨"b"⟩ "t", .setStart "s", .setAccepting "s_t"] := by simp
  obtain ⟨A, hA, hstart, hnames⟩ : ∃ A : Automaton, A.Reachable ∧ A.start = some 0 ∧
      A.prepare.outcome.toOption.map names = some ["s", "s_t", "s_t'"] :=
    ⟨_, Reachable.empty.calls hcalls, by decide +kernel, by decide +kernel⟩
  obtain ⟨D, hprep, hreach, hagain⟩ := prepare_prepare hA hstart
  rw [hprep] at hnames
  exact ⟨A, D, hA, hstart, hprep, Option.some.inj hnames, hreach, hagain⟩

end TreeControl.Automaton
