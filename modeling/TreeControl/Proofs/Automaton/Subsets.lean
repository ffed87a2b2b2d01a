import TreeControl.Proofs.Automaton.Run

/-! # The subset construction

The states of `A.powerset start` are the sets of states of `A` that are reachable from the set of
the start state alone.  The search for them is complete (`image_mem_subsets`), so every transition
leads to the number of the set it stands for (`mem_edges_powerset`), and a run of the powerset
automaton ends in the set of all states that `A` can be in (`exists_run_powerset_iff`). -/

namespace TreeControl.Automaton

variable {A : Automaton} {start i j p q : Nat} {s : Symbol} {S T : OrdSet Nat} {w : List Symbol}

/-! ### The reachable sets -/

theorem enough_subsets (A : Automaton) (start : Nat) :
    Enough A.successors (Nat.pow 2 A.edges.size + 1) [.singleton start] := by
  refine ⟨List.nodup_singleton _,
    .singleton start :: (A.edges.toList.map Edge.target).sublists.map OrdSet.ofList, by simp, ?_,
    by simp [OrdSet.size]⟩
  intro S _ T hT
  obtain ⟨s, -, rfl⟩ := List.mem_map.1 hT
  refine List.mem_cons_of_mem _ (OrdSet.mem_map_sublists fun q hq => ?_)
  obtain ⟨p, -, he⟩ := mem_image.1 hq
  exact List.mem_map.2 ⟨_, he, rfl⟩

theorem mem_subsets_iff :
    S ∈ A.subsets start ↔
      Relation.ReflTransGen (fun S T => T ∈ A.successors S) (.singleton start) S := by
  rw [subsets, mem_explore_iff (A.enough_subsets start)]
  simp

theorem image_mem_subsets (hS : S ∈ A.subsets start) (hs : s ∈ A.labelsFromSet S) :
    A.image S s ∈ A.subsets start := by
  rw [mem_subsets_iff] at hS ⊢
  exact hS.tail (List.mem_map.2 ⟨s, hs, rfl⟩)

theorem nodup_subsets (A : Automaton) (start : Nat) : (A.subsets start).Nodup :=
  nodup_explore (by simp)

theorem subsets_getElem?_zero (A : Automaton) (start : Nat) :
    (A.subsets start)[0]? = some (.singleton start) :=
  explore_getElem?_zero _ _ _

theorem WellFormed.subsets_lt (h : A.WellFormed) (hstart : start < A.size)
    (hS : S ∈ A.subsets start) : ∀ q ∈ S, q < A.size := by
  induction mem_subsets_iff.1 hS with
  | refl =>
    intro q hq
    rw [OrdSet.mem_singleton.1 hq]
    exact hstart
  | tail _ hstep _ =>
    intro q hq
    obtain ⟨s, -, rfl⟩ := List.mem_map.1 hstep
    obtain ⟨p, -, he⟩ := mem_image.1 hq
    exact h.target_lt _ he

/-! ### Names -/

theorem setName_singleton (A : Automaton) (p : Nat) : A.setName (.singleton p) = A.label p := by
  show "_".intercalate [A.label p] = A.label p
  simp

theorem nameSets_snoc (A : Automaton) (sets : List (OrdSet Nat)) (S : OrdSet Nat) :
    A.nameSets (sets ++ [S]) =
      A.nameSets sets ++ [unusedName '\'' (A.nameSets sets) (A.setName S)] := by
  unfold nameSets
  rw [List.foldl_append]
  rfl

theorem length_nameSets (A : Automaton) (sets : List (OrdSet Nat)) :
    (A.nameSets sets).length = sets.length := by
  induction sets using List.reverseRecOn with
  | nil => rfl
  | append_singleton sets S ih =>
    rw [nameSets_snoc, List.length_append, List.length_append, ih, List.length_singleton,
      List.length_singleton]

/-- Each name is one that no set before it has. -/
theorem getElem?_nameSets {sets : List (OrdSet Nat)} (hS : sets[i]? = some S) :
    (A.nameSets sets)[i]? = some (unusedName '\'' ((A.nameSets sets).take i) (A.setName S)) := by
  induction sets using List.reverseRecOn with
  | nil => cases hS
  | append_singleton sets T ih =>
    have hlen := A.length_nameSets sets
    rw [nameSets_snoc]
    by_cases hi : i < sets.length
    · rw [List.getElem?_append_left hi] at hS
      rw [List.getElem?_append_left (by omega), List.take_append_of_le_length (by omega), ih hS]
    · have hlt := (List.getElem?_eq_some_iff.1 hS).1
      rw [List.length_append, List.length_singleton] at hlt
      obtain rfl : i = (A.nameSets sets).length := by omega
      rw [hlen, List.getElem?_concat_length] at hS
      cases hS
      rw [List.getElem?_concat_length, List.take_left]

theorem nodup_nameSets (A : Automaton) (sets : List (OrdSet Nat)) : (A.nameSets sets).Nodup := by
  induction sets using List.reverseRecOn with
  | nil => exact .nil
  | append_singleton sets S ih =>
    rw [nameSets_snoc]
    refine List.nodup_append.2 ⟨ih, List.nodup_singleton _, fun n hn m hm e => ?_⟩
    rw [List.mem_singleton.1 hm] at e
    exact unusedName_not_mem '\'' (A.nameSets sets) (A.setName S) (e ▸ hn)

theorem size_powerset (A : Automaton) (start : Nat) :
    (A.powerset start).size = (A.subsets start).length :=
  A.length_nameSets _

/-! ### Transitions and accepting states -/

theorem mem_edges_powerset :
    ⟨i, s, j⟩ ∈ (A.powerset start).edges ↔
      ∃ S, (A.subsets start)[i]? = some S ∧ s ∈ A.labelsFromSet S ∧
        (A.subsets start)[j]? = some (A.image S s) := by
  show _ ∈ OrdSet.ofList (A.subsetEdges (A.subsets start)) ↔ _
  simp only [OrdSet.mem_ofList, subsetEdges, List.mem_flatMap, List.mem_map]
  constructor
  · rintro ⟨⟨S, k⟩, hk, s', hs, h⟩
    cases h
    rw [List.mem_zipIdx_iff_getElem?] at hk
    have hS := List.mem_of_getElem? hk
    exact ⟨S, hk, hs, List.getElem?_idxOf (image_mem_subsets hS hs)⟩
  · rintro ⟨S, hi, hs, hj⟩
    refine ⟨(S, i), List.mem_zipIdx_iff_getElem?.2 hi, s, hs, ?_⟩
    obtain ⟨hlt, hj⟩ := List.getElem?_eq_some_iff.1 hj
    rw [← hj, (nodup_subsets A start).idxOf_getElem]

theorem mem_accepting_powerset :
    i ∈ (A.powerset start).accepting ↔
      ∃ S, (A.subsets start)[i]? = some S ∧ ∃ q ∈ S, q ∈ A.accepting := by
  show i ∈ OrdSet.ofList ((List.range (A.subsets start).length).filter fun i =>
    ((A.subsets start)[i]?.getD ∅).toList.any (· ∈ A.accepting)) ↔ _
  simp only [OrdSet.mem_ofList, List.mem_filter, List.mem_range, List.any_eq_true,
    decide_eq_true_eq]
  constructor
  · rintro ⟨hi, q, hq, ha⟩
    rw [List.getElem?_eq_getElem hi] at hq ⊢
    exact ⟨_, rfl, q, hq, ha⟩
  · rintro ⟨S, hi, q, hq, ha⟩
    rw [hi]
    exact ⟨(List.getElem?_eq_some_iff.1 hi).1, q, hq, ha⟩

theorem eq_of_mem_edges_powerset {k : Nat} (hj : ⟨i, s, j⟩ ∈ (A.powerset start).edges)
    (hk : ⟨i, s, k⟩ ∈ (A.powerset start).edges) : j = k := by
  obtain ⟨S, hi, -, hj⟩ := mem_edges_powerset.1 hj
  obtain ⟨T, hi', -, hk⟩ := mem_edges_powerset.1 hk
  rw [hi] at hi'
  cases hi'
  obtain ⟨hlt, hj⟩ := List.getElem?_eq_some_iff.1 hj
  obtain ⟨hlt', hk⟩ := List.getElem?_eq_some_iff.1 hk
  exact (nodup_subsets A start).getElem_inj_iff.1 (hj.trans hk.symm)

theorem EpsilonFree.powerset (hA : A.EpsilonFree) : (A.powerset start).EpsilonFree := by
  rintro ⟨i, s, j⟩ he
  obtain ⟨S, -, hs, -⟩ := mem_edges_powerset.1 he
  obtain ⟨p, -, q, he⟩ := mem_labelsFromSet.1 hs
  exact hA ⟨p, s, q⟩ he

theorem WellFormed.powerset (hA : A.WellFormed) (start : Nat) :
    (A.powerset start).WellFormed where
  source_lt := by
    rintro ⟨i, s, j⟩ he
    obtain ⟨S, hi, -, -⟩ := mem_edges_powerset.1 he
    rw [size_powerset]
    exact (List.getElem?_eq_some_iff.1 hi).1
  target_lt := by
    rintro ⟨i, s, j⟩ he
    obtain ⟨S, -, -, hj⟩ := mem_edges_powerset.1 he
    rw [size_powerset]
    exact (List.getElem?_eq_some_iff.1 hj).1
  label_mem := by
    rintro ⟨i, s, j⟩ he
    obtain ⟨S, -, hs, -⟩ := mem_edges_powerset.1 he
    obtain ⟨p, -, q, he⟩ := mem_labelsFromSet.1 hs
    exact hA.label_mem ⟨p, s, q⟩ he
  start_lt := by
    rintro i h
    cases h
    rw [size_powerset]
    exact (List.getElem?_eq_some_iff.1 (subsets_getElem?_zero A start)).1

/-! ### Runs -/

/-- A run of the powerset automaton ends in the set of the states that the members of the first
set reach. -/
theorem exists_run_powerset_iff (hA : A.EpsilonFree) (hS : (A.subsets start)[i]? = some S)
    {P : Nat → Prop} :
    (∃ j T, (A.powerset start).Run i w j ∧ (A.subsets start)[j]? = some T ∧ ∃ q ∈ T, P q) ↔
      ∃ p ∈ S, ∃ q, A.Run p w q ∧ P q := by
  have free : (A.powerset start).EpsilonFree := hA.powerset
  induction w generalizing i S with
  | nil => simp [free.run_nil_iff, hA.run_nil_iff, hS]
  | cons s w ih =>
    constructor
    · rintro ⟨j, T, hj, hT, h⟩
      obtain ⟨k, he, hj⟩ := free.run_cons_iff.1 hj
      obtain ⟨S', hS', -, hk⟩ := mem_edges_powerset.1 he
      rw [hS] at hS'
      cases hS'
      obtain ⟨r, hr, q, hq, hP⟩ := (ih hk).1 ⟨j, T, hj, hT, h⟩
      obtain ⟨p, hp, he⟩ := mem_image.1 hr
      exact ⟨p, hp, q, hA.run_cons_iff.2 ⟨r, he, hq⟩, hP⟩
    · rintro ⟨p, hp, q, hq, hP⟩
      obtain ⟨r, he, hq⟩ := hA.run_cons_iff.1 hq
      have hs : s ∈ A.labelsFromSet S := mem_labelsFromSet.2 ⟨p, hp, r, he⟩
      have mem := image_mem_subsets (List.mem_of_getElem? hS) hs
      have hk := List.getElem?_idxOf mem
      obtain ⟨j, T, hj, hT, h⟩ := (ih hk).2 ⟨r, mem_image.2 ⟨p, hp, he⟩, q, hq, hP⟩
      have he' := mem_edges_powerset.2 ⟨S, hS, hs, hk⟩
      exact ⟨j, T, free.run_cons_iff.2 ⟨_, he', hj⟩, hT, h⟩

/-- Making an automaton deterministic keeps the words. -/
theorem accepts_powerset_iff (hA : A.EpsilonFree) (hstart : A.start = some start) :
    (A.powerset start).Accepts w ↔ A.Accepts w := by
  have key := exists_run_powerset_iff hA (subsets_getElem?_zero A start) (w := w)
    (P := (· ∈ A.accepting))
  constructor
  · rintro ⟨i, hi, j, ha, hj⟩
    cases hi
    obtain ⟨T, hT, hq⟩ := mem_accepting_powerset.1 ha
    obtain ⟨p, hp, q, hq, ha'⟩ := key.1 ⟨j, T, hj, hT, hq⟩
    rw [OrdSet.mem_singleton] at hp
    exact ⟨p, hp ▸ hstart, q, ha', hq⟩
  · rintro ⟨p, hp, q, ha, hq⟩
    rw [hstart] at hp
    cases hp
    obtain ⟨j, T, hj, hT, h⟩ := key.2 ⟨start, OrdSet.mem_singleton.2 rfl, q, hq, ha⟩
    exact ⟨0, rfl, j, mem_accepting_powerset.2 ⟨T, hT, h⟩, hj⟩

end TreeControl.Automaton
