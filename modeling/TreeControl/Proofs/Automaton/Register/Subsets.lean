import TreeControl.Proofs.Automaton.Register.Basic
import TreeControl.Proofs.Loops

/-! # The subset construction in a register

The loop keeps everything about the sets that it has met in five places: their numbers, the sets by
number, the states, the names, and the queue.  All five are determined by the list of the sets and by
the rules so far (`building`), so each turn of the loop only lengthens the list and adds rules
(`follow_building`, `visit_stage`).  The list becomes the one that the search for subsets finds
(`run_stage`), and in the end the register of the powerset automaton is left (`run_determinize`).

There are no more sets of states than rounds, and every number that the loop looks up is in range, so
the operation fails only where it is refused. -/

namespace TreeControl

namespace Register

open Automaton (register stateOf)

variable {A : Automaton} {sets found : List (OrdSet Nat)} {S : OrdSet Nat} {i k n start : Nat}
  {s : Symbol} {rules : Nat → Rules}

/-! ### What is kept about the sets -/

/-- What is kept about sets that were met when the first `n` of them are visited, and the rules of the
states that stand for them. -/
def building (A : Automaton) (sets : List (OrdSet Nat)) (n : Nat) (rules : Nat → Rules) : Building where
  ids := .numbering sets
  subsets := sets
  states := (A.nameSets sets).mapIdx fun i name =>
    { name := name
      accepting := (sets[i]?.getD ∅).toList.any (· ∈ A.accepting)
      rules := rules i }
  names := .numbering (A.nameSets sets)
  queue := List.range' n (sets.length - n)

@[simp] theorem length_states_building :
    (building A sets n rules).states.length = sets.length := by
  rw [building, List.length_mapIdx, Automaton.length_nameSets]

theorem lt_of_getElem?_nameSets {name : String} (h : (A.nameSets sets)[i]? = some name) :
    i < sets.length :=
  A.length_nameSets sets ▸ (List.getElem?_eq_some_iff.1 h).1

/-- What is kept changes only with the rules of sets that were met. -/
theorem building_congr {rules' : Nat → Rules} (h : ∀ i < sets.length, rules i = rules' i) :
    building A sets n rules = building A sets n rules' := by
  have hstates : (building A sets n rules).states = (building A sets n rules').states := by
    refine List.ext_getElem? fun i => ?_
    rw [building, building, List.getElem?_mapIdx, List.getElem?_mapIdx]
    refine Option.map_congr fun name hname => ?_
    rw [h i (lt_of_getElem?_nameSets hname)]
  exact congrArg (fun states => Building.mk (.numbering sets) sets states _ _) hstates

theorem setName_register (A : Automaton) (S : OrdSet Nat) : A.register.setName S = A.setName S := by
  rw [setName, show A.register.label = A.label from funext A.label_register]
  rfl

/-- What is kept when a new set comes last. -/
theorem building_concat (hS : ¬ S ∈ sets) (hn : n ≤ sets.length) (hrules : rules sets.length = ∅) :
    building A (sets ++ [S]) n rules =
      { ids := (building A sets n rules).ids.insert S sets.length
        subsets := sets ++ [S]
        states := (building A sets n rules).states ++
          [{ name := unusedName '\'' (A.nameSets sets) (A.setName S)
             accepting := S.toList.any (· ∈ A.accepting) }]
        names := (building A sets n rules).names.insert
          (unusedName '\'' (A.nameSets sets) (A.setName S)) sets.length
        queue := (building A sets n rules).queue ++ [sets.length] } := by
  have hstates : (building A (sets ++ [S]) n rules).states = (building A sets n rules).states ++
      [{ name := unusedName '\'' (A.nameSets sets) (A.setName S)
         accepting := S.toList.any (· ∈ A.accepting) }] := by
    rw [building, Automaton.nameSets_snoc, List.mapIdx_append, List.mapIdx_singleton,
      Automaton.length_nameSets, Nat.zero_add, List.getElem?_concat_length, hrules]
    refine congrArg (· ++ _) (List.ext_getElem? fun i => ?_)
    rw [building, List.getElem?_mapIdx, List.getElem?_mapIdx]
    refine Option.map_congr fun name hname => ?_
    rw [List.getElem?_append_left (lt_of_getElem?_nameSets hname)]
  have hnames : (building A (sets ++ [S]) n rules).names = (building A sets n rules).names.insert
      (unusedName '\'' (A.nameSets sets) (A.setName S)) sets.length := by
    rw [building, Automaton.nameSets_snoc,
      OrdMap.numbering_concat (unusedName_not_mem '\'' (A.nameSets sets) (A.setName S)),
      Automaton.length_nameSets]
    rfl
  have hqueue : (building A (sets ++ [S]) n rules).queue =
      (building A sets n rules).queue ++ [sets.length] := by
    have hlength : (sets ++ [S]).length - n = sets.length - n + 1 := by
      rw [List.length_append, List.length_singleton]
      omega
    have hlast : n + 1 * (sets.length - n) = sets.length := by omega
    rw [building, hlength, List.range'_concat, hlast]
    rfl
  rw [← hstates, ← hnames, ← hqueue, show (building A sets n rules).ids = .numbering sets from rfl,
    ← OrdMap.numbering_concat hS]
  rfl

/-- A set gets the number of its place in the list, at the end of which it is put if it is new. -/
theorem number_building (hlt : ∀ q ∈ S, q < A.size) (hn : n ≤ sets.length)
    (hrules : rules sets.length = ∅) :
    (building A sets n rules).number A.register S =
      .ok ((sets ++ novel sets [S]).idxOf S, building A (sets ++ novel sets [S]) n rules) := by
  have hids : (building A sets n rules).ids.get? S = sets.idxOf? S := OrdMap.get?_numbering sets S
  unfold Building.number
  rw [hids, novel]
  by_cases hS : S ∈ sets
  · obtain ⟨id, hid⟩ := Option.isSome_iff_exists.1 (List.isSome_idxOf?.2 hS)
    rw [if_pos hS, novel, List.append_nil, hid, List.idxOf_eq_getD_idxOf?, hid, Option.getD_some]
  · have hkeys : ∀ name, name ∈ (building A sets n rules).names.keys ↔ name ∈ A.nameSets sets :=
      fun _ => OrdMap.mem_keys_numbering
    have hid : (sets ++ [S]).idxOf S = sets.length := by
      rw [List.idxOf_append_of_notMem hS]
      simp
    have haccepting : S.toList.anyM (fun q => (stateAt A.register.states q).map State.accepting) =
        .ok (S.toList.any (· ∈ A.accepting)) :=
      anyM_eq_ok_any fun q hq => by
        rw [stateAt_register (hlt q hq)]
        rfl
    rw [if_neg hS, novel, List.idxOf?_eq_none_iff.2 hS, hid, building_concat hS hn hrules]
    simp only [haccepting, unusedName_congr hkeys, setName_register,
      length_states_building]
    rfl

/-! ### One turn -/

theorem building_modify (A : Automaton) (sets : List (OrdSet Nat)) (n : Nat) (rules : Nat → Rules)
    (k : Nat) (f : Rules → Rules) :
    { building A sets n rules with
      states := (building A sets n rules).states.modify k
        fun st => { st with rules := f st.rules } } =
      building A sets n fun i => if i = k then f (rules i) else rules i := by
  refine congrArg (fun states => { building A sets n rules with states }) ?_
  refine List.ext_getElem? fun i => ?_
  rw [List.getElem?_modify, building, List.getElem?_mapIdx, List.getElem?_mapIdx,
    Option.map_eq_map, Option.map_map]
  refine Option.map_congr fun name _ => ?_
  by_cases hi : k = i
  · simp [hi]
  · simp [hi, Ne.symm hi]

/-- A rule of the set that is visited leads to the number of a set, which may be new. -/
theorem follow_building {e : Symbol × OrdSet Nat} (hlt : ∀ q ∈ e.2, q < A.size)
    (hk : k < sets.length) (hn : n ≤ sets.length) (hrules : rules sets.length = ∅) :
    (building A sets n rules).follow A.register k e =
      .ok (building A (sets ++ novel sets [e.2]) n fun i => if i = k then
        (rules i).insert e.1 (.singleton ((sets ++ novel sets [e.2]).idxOf e.2)) else rules i) := by
  obtain ⟨st, hst⟩ : ∃ st,
      stateAt (building A (sets ++ novel sets [e.2]) n rules).states k = .ok st := by
    have hlength : k < (building A (sets ++ novel sets [e.2]) n rules).states.length := by
      rw [length_states_building, List.length_append]
      omega
    exact ⟨_, by rw [stateAt, List.getElem?_eq_getElem hlength]⟩
  simp only [Building.follow, number_building hlt hn hrules, bind, Except.bind, hst]
  exact congrArg Except.ok (building_modify A (sets ++ novel sets [e.2]) n rules k fun m =>
    m.insert e.1 (.singleton ((sets ++ novel sets [e.2]).idxOf e.2)))

/-- The rules of the set that is visited, followed one after the other, meet the sets that they lead to
in their order. -/
theorem foldlM_follow {l : List (Symbol × OrdSet Nat)} (hlt : ∀ e ∈ l, ∀ q ∈ e.2, q < A.size)
    (hk : k < sets.length) (hn : n ≤ sets.length) (hrules : ∀ i, sets.length ≤ i → rules i = ∅)
    (hfound : sets ++ novel sets (l.map Prod.snd) <+: found) :
    l.foldlM (Building.follow A.register k) (building A sets n rules) =
      .ok (building A (sets ++ novel sets (l.map Prod.snd)) n fun i => if i = k then
        l.foldl (fun m e => m.insert e.1 (.singleton (found.idxOf e.2))) (rules i) else rules i) := by
  induction l generalizing sets rules with
  | nil =>
    simp only [List.map_nil, novel, List.append_nil, List.foldl_nil, ite_self]
    rfl
  | cons e l ih =>
    obtain ⟨he, hlt⟩ := List.forall_mem_cons.1 hlt
    have hsplit := append_novel_cons sets e.2 (l.map Prod.snd)
    rw [List.map_cons, hsplit] at hfound
    rw [List.foldlM_cons, follow_building he hk hn (hrules _ le_rfl), List.map_cons, hsplit]
    have hlength : sets.length ≤ (sets ++ novel sets [e.2]).length := by
      rw [List.length_append]
      omega
    -- The set has a place in the list already, so it keeps its number.
    have hnumber : (sets ++ novel sets [e.2]).idxOf e.2 = found.idxOf e.2 := by
      have hmem : e.2 ∈ sets ++ novel sets [e.2] := by
        by_cases h : e.2 ∈ sets
        · exact List.mem_append_left _ h
        · exact List.mem_append_right _ (mem_novel.2 ⟨List.mem_singleton_self _, h⟩)
      obtain ⟨more, rfl⟩ := hfound
      rw [List.append_assoc _ (novel _ _) more, List.idxOf_append_of_mem hmem]
    refine (ih hlt (by omega) (by omega) (fun i hi => ?_) hfound).trans ?_
    · rw [if_neg (by omega)]
      exact hrules i (by omega)
    · rw [hnumber]
      refine congrArg Except.ok (building_congr fun i _ => ?_)
      by_cases hi : i = k
      · simp only [if_pos hi, List.foldl_cons]
      · simp only [if_neg hi]

theorem lists_image (A : Automaton) (S : OrdSet Nat) :
    Rules.Lists (.ofKeys (A.labelsFromSet S) (A.image S)) fun s q => ∃ p ∈ S, ⟨p, s, q⟩ ∈ A.edges := by
  refine Rules.lists_ofKeys (fun s => Automaton.mem_labelsFromSet.trans ?_) fun _ _ _ =>
    Automaton.mem_image
  constructor
  · rintro ⟨p, hp, q, he⟩
    exact ⟨q, p, hp, he⟩
  · rintro ⟨q, p, hp, he⟩
    exact ⟨p, hp, q, he⟩

theorem foldl_addAll (l : List Nat) (m : Rules) :
    l.foldl (fun m q => m.addAll (A.rules q).entries) m =
      m.addAll (l.flatMap fun q => (A.rules q).entries) := List.foldl_flatMap.symm

theorem unitedRules_register (hS : ∀ q ∈ S, q < A.size) :
    A.register.unitedRules S = .ok (.ofKeys (A.labelsFromSet S) (A.image S)) := by
  have hloop : A.register.unitedRules S =
      .ok (Rules.addAll ∅ (S.toList.flatMap fun q => (A.rules q).entries)) := by
    rw [← foldl_addAll]
    refine foldlM_eq_ok_foldl ∅ fun q hq m => ?_
    rw [stateAt_register (hS q hq)]
    rfl
  have hnonempty : ∀ e ∈ S.toList.flatMap fun q => (A.rules q).entries, ∃ q, q ∈ e.2 := by
    intro e he
    obtain ⟨p, -, he⟩ := List.mem_flatMap.1 he
    exact (A.lists_rules p).nonempty_of_mem e he
  rw [hloop]
  refine congrArg Except.ok (((Rules.lists_empty.addAll hnonempty).of_iff fun s q => ?_).unique
    (lists_image A S))
  simp only [false_or, List.mem_flatMap, ← (A.lists_rules _).exists_entry_iff]
  constructor
  · rintro ⟨e, ⟨p, hp, he⟩, h⟩
    exact ⟨p, hp, e, he, h⟩
  · rintro ⟨p, hp, e, he, h⟩
    exact ⟨e, ⟨p, hp, he⟩, h⟩

/-- The rules of the state that stands for a set, where the states are numbered in the order of the sets
that are found. -/
def subsetRules (A : Automaton) (found : List (OrdSet Nat)) (S : OrdSet Nat) : Rules :=
  .ofKeys (A.labelsFromSet S) fun s => .singleton (found.idxOf (A.image S s))

/-- What is kept in the course of the search that finds the sets `found`. -/
def stage (A : Automaton) (found : List (OrdSet Nat)) (s : List (OrdSet Nat) × List (OrdSet Nat)) :
    Building :=
  building A (s.1 ++ s.2) s.1.length fun i =>
    if i < s.1.length then subsetRules A found (found[i]?.getD ∅) else ∅

theorem stage_cons (A : Automaton) (found done queue : List (OrdSet Nat)) (S : OrdSet Nat) :
    { stage A found (done, S :: queue) with
      queue := List.range' (done.length + 1) queue.length } =
      building A (done ++ S :: queue) (done.length + 1) fun i =>
        if i < done.length then subsetRules A found (found[i]?.getD ∅) else ∅ := by
  have hlength : (done ++ S :: queue).length - (done.length + 1) = queue.length := by
    rw [List.length_append, List.length_cons]
    omega
  rw [stage, building, building, hlength]

/-- A visit is one turn of the search. -/
theorem visit_stage {done queue : List (OrdSet Nat)} (hA : A.WellFormed)
    (hlt : ∀ q ∈ S, q < A.size)
    (hfound : done ++ S :: queue ++ novel (done ++ S :: queue) (A.successors S) <+: found) :
    Building.visit A.register done.length
        { stage A found (done, S :: queue) with queue := List.range' (done.length + 1) queue.length } =
      .ok (stage A found
        (done ++ [S], queue ++ novel (done ++ S :: queue) (A.successors S))) := by
  have hS : (done ++ S :: queue)[done.length]? = some S := by simp
  have hfoundS : found[done.length]? = some S := by
    obtain ⟨more, rfl⟩ := hfound
    simp
  have himage : ∀ e ∈ (OrdMap.ofKeys (A.labelsFromSet S) (A.image S)).entries,
      ∀ q ∈ e.2, q < A.size := by
    intro e he q hq
    obtain ⟨s, -, rfl⟩ := List.mem_map.1 he
    obtain ⟨p, -, he⟩ := Automaton.mem_image.1 hq
    exact hA.target_lt _ he
  have hsuccessors : (OrdMap.ofKeys (A.labelsFromSet S) (A.image S)).entries.map Prod.snd =
      A.successors S := List.map_map
  have hsets : done ++ [S] ++ (queue ++ novel (done ++ S :: queue) (A.successors S)) =
      done ++ S :: queue ++ novel (done ++ S :: queue) (A.successors S) := by simp
  have hrules : (OrdMap.ofKeys (A.labelsFromSet S) (A.image S)).entries.foldl
      (fun m e => OrdMap.insert m e.1 (OrdSet.singleton (found.idxOf e.2))) ∅ =
      subsetRules A found S :=
    List.foldl_map.trans (OrdMap.foldl_insert_eq_ofKeys (A.labelsFromSet S) _)
  rw [← hsuccessors] at hfound
  rw [stage_cons, Building.visit, show (building A (done ++ S :: queue) _ _).subsets[done.length]? =
    some S from hS]
  simp only [unitedRules_register hlt, bind, Except.bind]
  rw [foldlM_follow himage (by simp) (by simp) (fun i hi => if_neg ?_) hfound]
  · simp only [stage, hsets, hsuccessors, List.length_append, List.length_singleton]
    refine congrArg Except.ok (building_congr fun i _ => ?_)
    obtain hi | rfl | hi := lt_trichotomy i done.length
    · rw [if_neg (by omega), if_pos hi, if_pos (by omega)]
    · rw [if_pos rfl, if_neg (lt_irrefl _), if_pos (by omega), hfoundS, Option.getD_some, hrules]
    · rw [if_neg (by omega), if_neg (by omega), if_neg (by omega)]
  · rw [List.length_append, List.length_cons] at hi
    omega

theorem queue_stage (A : Automaton) (found done queue : List (OrdSet Nat)) :
    (stage A found (done, queue)).queue = List.range' done.length queue.length := by
  have hlength : (done ++ queue).length - done.length = queue.length := by
    rw [List.length_append]
    omega
  rw [stage, building, hlength]

/-- The visits are the search, as long as there are rounds for what it finds. -/
theorem run_stage {s s' : List (OrdSet Nat) × List (OrdSet Nat)} (hA : A.WellFormed)
    (hlt : ∀ S ∈ found, ∀ q ∈ S, q < A.size) (h : Ends (visit A.successors) s s')
    (hs' : s' = (found, [])) {rounds : Nat} (hrounds : found.length ≤ s.1.length + rounds) :
    Building.run A.register rounds (stage A found s) = .ok (stage A found s') := by
  induction h generalizing rounds with
  | @stop s h =>
    subst hs'
    cases rounds <;> simp [Building.run, queue_stage]
  | @next s s₁ s' h hend ih =>
    obtain ⟨done, queue⟩ := s
    cases queue with
    | nil => cases h
    | cons S queue =>
      cases h
      have hfound := hend.prefix_found
      rw [hs', List.append_nil, show done ++ [S] ++ (queue ++ novel (done ++ S :: queue)
        (A.successors S)) = done ++ S :: queue ++ novel (done ++ S :: queue) (A.successors S) by simp]
        at hfound
      have hS : ∀ q ∈ S, q < A.size := hlt S (hfound.subset (by simp))
      -- The set that is visited is found, so there is a round for it.
      obtain ⟨rounds, rfl⟩ : ∃ more, rounds = more + 1 := by
        have hlength := hfound.length_le
        simp only [List.length_append, List.length_cons] at hlength hrounds
        exact ⟨rounds - 1, by omega⟩
      have hrest : found.length ≤ (done ++ [S]).length + rounds := by
        rw [List.length_append, List.length_singleton]
        simp only at hrounds
        omega
      rw [Building.run, queue_stage, List.length_cons, List.range'_succ]
      simp only [visit_stage hA hS hfound, bind, Except.bind]
      exact ih hs' hrest

/-! ### The whole construction -/

theorem first_eq_stage (A : Automaton) (found : List (OrdSet Nat)) (start : Nat) :
    Building.first start (stateOf A start (A.label start)) =
      stage A found ([], [.singleton start]) := by
  have hstage : stage A found ([], [.singleton start]) =
      building A ([] ++ [.singleton start]) 0 fun _ => ∅ := building_congr fun i _ => by simp
  have hname : unusedName '\'' (A.nameSets []) (A.setName (.singleton start)) = A.label start :=
    (unusedName_eq_self List.not_mem_nil).trans (A.setName_singleton start)
  have haccepting : (OrdSet.singleton start).toList.any (· ∈ A.accepting) =
      decide (start ∈ A.accepting) := Bool.or_false _
  rw [hstage, building_concat List.not_mem_nil (Nat.zero_le _) rfl, hname, haccepting]
  rfl

theorem lists_subsetRules (hS : (A.subsets start)[i]? = some S) :
    (subsetRules A (A.subsets start) S).Lists fun s j => ⟨i, s, j⟩ ∈ (A.powerset start).edges := by
  have hedge : ∀ s ∈ A.labelsFromSet S, ∀ j, j = (A.subsets start).idxOf (A.image S s) ↔
      ⟨i, s, j⟩ ∈ (A.powerset start).edges := by
    intro s hs j
    rw [Automaton.mem_edges_powerset]
    constructor
    · rintro rfl
      have hmem := Automaton.image_mem_subsets (List.mem_of_getElem? hS) hs
      exact ⟨S, hS, hs, List.getElem?_idxOf hmem⟩
    · rintro ⟨T, hT, -, hj⟩
      cases hS.symm.trans hT
      obtain ⟨hlt, hj⟩ := List.getElem?_eq_some_iff.1 hj
      rw [← hj, (A.nodup_subsets start).idxOf_getElem]
  refine Rules.lists_ofKeys (fun s => ⟨fun hs => ⟨_, (hedge s hs _).1 rfl⟩, ?_⟩) fun s hs j =>
    OrdSet.mem_singleton.trans (hedge s hs j)
  rintro ⟨j, he⟩
  obtain ⟨T, hT, hs, -⟩ := Automaton.mem_edges_powerset.1 he
  cases hS.symm.trans hT
  exact hs

/-- When all sets are visited, the states are those of the powerset automaton. -/
theorem states_stage (A : Automaton) (start : Nat) :
    (stage A (A.subsets start) (A.subsets start, [])).states = (A.powerset start).register.states := by
  refine List.ext_getElem? fun i => ?_
  rw [stage, building, List.getElem?_mapIdx, Automaton.getElem?_states, List.append_nil]
  refine Option.map_congr fun name hname => ?_
  have hlt := lt_of_getElem?_nameSets hname
  have hS : (A.subsets start)[i]? = some (A.subsets start)[i] := List.getElem?_eq_getElem hlt
  have haccepting : (A.subsets start)[i].toList.any (· ∈ A.accepting) =
      decide (i ∈ (A.powerset start).accepting) := by
    rw [Bool.eq_iff_iff, List.any_eq_true, decide_eq_true_eq, Automaton.mem_accepting_powerset]
    simp only [hS, Option.some.injEq, exists_eq_left', decide_eq_true_eq]
    exact Iff.rfl
  show State.mk _ _ _ = State.mk _ _ _
  rw [hS, if_pos hlt, Option.getD_some, haccepting, Automaton.rules_eq (lists_subsetRules hS)]

theorem names_stage (A : Automaton) (found : List (OrdSet Nat)) :
    (stage A found (found, [])).names = .numbering (A.nameSets found) := by
  rw [stage, building, List.append_nil]

theorem length_subsets_le (hA : A.WellFormed) (hstart : start < A.size) :
    (A.subsets start).length ≤ Nat.pow 2 A.size := by
  have hsub : A.subsets start ⊆ (List.range A.size).sublists.map OrdSet.ofList := fun S hS =>
    OrdSet.mem_map_sublists fun q hq => List.mem_range.2 (hA.subsets_lt hstart hS q hq)
  have hle := (A.nodup_subsets start).length_le_of_subset hsub
  rw [List.length_map, List.length_sublists, List.length_range] at hle
  exact hle

theorem run_first (hA : A.WellFormed) (hstart : start < A.size) :
    Building.run A.register (Nat.pow 2 A.register.states.length)
        (.first start (stateOf A start (A.label start))) =
      .ok (stage A (A.subsets start) (A.subsets start, [])) := by
  rw [first_eq_stage A (A.subsets start), Automaton.length_states]
  refine run_stage hA (fun S => hA.subsets_lt hstart) (A.enough_subsets start).ends rfl ?_
  rw [List.length_nil, Nat.zero_add]
  exact length_subsets_le hA hstart

/-! ### What is refused -/

theorem source_le_of_lt {e f : Edge} (h : compare e f = .lt) : e.source ≤ f.source := by
  by_contra hlt
  have hgt : compare e.source f.source = .gt := Nat.compare_eq_gt.2 (not_le.1 hlt)
  rw [Edge.compare_def, hgt] at h
  cases h

theorem contains_blank_rules : (A.rules i).contains .blank = true ↔ ∃ q, ⟨i, .blank, q⟩ ∈ A.edges := by
  rw [Automaton.rules, OrdMap.contains, OrdMap.get?_ofKeys, ← Automaton.mem_labelsFrom]
  split <;> simp [*]

theorem find?_blank (hA : A.WellFormed) :
    A.register.states.find? (·.rules.contains .blank) =
      A.firstEpsilon?.map fun id => stateOf A id (A.label id) := by
  unfold Automaton.firstEpsilon?
  cases hfind : A.edges.toList.find? Edge.isEpsilon with
  | none =>
    refine List.find?_eq_none.2 fun st hst hblank => ?_
    obtain ⟨i, hi⟩ := List.mem_iff_getElem?.1 hst
    rw [Automaton.getElem?_states, Option.map_eq_some_iff] at hi
    obtain ⟨name, -, rfl⟩ := hi
    obtain ⟨q, he⟩ := contains_blank_rules.1 hblank
    exact List.find?_eq_none.1 hfind _ he rfl
  | some e =>
    obtain ⟨hepsilon, before, after, hedges, hbefore⟩ := List.find?_eq_some_iff_append.1 hfind
    have he : e ∈ A.edges := List.mem_of_find?_eq_some hfind
    have hlabel : e.label = .blank := Symbol.isBlank_iff.1 hepsilon
    -- A silent move comes no earlier than the first one, and its source neither.
    have hfirst : ∀ p q, ⟨p, .blank, q⟩ ∈ A.edges → e.source ≤ p := by
      intro p q hmem
      rw [OrdSet.mem_def, hedges, List.mem_append, List.mem_cons] at hmem
      obtain hmem | rfl | hmem := hmem
      · have hno := hbefore _ hmem
        cases hno
      · exact le_rfl
      · have hascending := A.edges.ascending
        rw [hedges, List.pairwise_append, List.pairwise_cons] at hascending
        exact source_le_of_lt (hascending.2.1.1 _ hmem)
    have hlt := hA.source_lt e he
    refine List.find?_eq_some_iff_getElem.2 ⟨?_, e.source, by rwa [Automaton.length_states], ?_, ?_⟩
    · exact contains_blank_rules.2 ⟨e.target, hlabel ▸ he⟩
    · exact (List.getElem?_eq_some_iff.1 (Automaton.getElem?_states_of_lt hlt)).2
    · intro j hj
      have hst := Automaton.getElem?_states_of_lt (hj.trans hlt)
      rw [(List.getElem?_eq_some_iff.1 hst).2, Bool.not_eq_true', Bool.eq_false_iff]
      intro hblank
      obtain ⟨q, hmem⟩ := contains_blank_rules.1 hblank
      exact absurd hj (not_lt.2 (hfirst j q hmem))

/-! ### The operation -/

/-- Making a register deterministic makes the register of the powerset automaton, or it is refused as
the automaton is. -/
theorem run_determinize (hA : A.WellFormed) :
    determinize.run A.register = outcome (A.attempt () A.determinize.outcome) := by
  simp only [determinize, EStateM.run_bind, EStateM.run_get, Automaton.determinize,
    show A.register.start = A.start from rfl]
  cases hstart : A.start with
  | none => rfl
  | some start =>
    simp only [find?_blank hA]
    cases hfirst : A.firstEpsilon? with
    | some id => rfl
    | none =>
      have hlt := hA.start_lt start hstart
      simp only [Option.map_none, EStateM.run_bind, run_ofExcept (stateAt_register hlt),
        run_ofExcept (run_first hA hlt), EStateM.run_set, states_stage, names_stage]
      rfl

end Register

end TreeControl
