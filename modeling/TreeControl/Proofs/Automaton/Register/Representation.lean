import TreeControl.Automaton.Position
import TreeControl.Proofs.Automaton.Register.Calls

/-! # Names, rules and numbers that agree

Runs and the listing look up numbers as well.  In the register of a coherent automaton they are all in
range, so a run answers what it answers for the automaton, and the listing is that of the automaton
(`accepts_register`, `text_register`).

So whatever calls were made, with success or without, list and map of a register agree, its rules lead
from symbols of the alphabet to states, arrivals that are present are those that would be collected
now, and nothing fails because of a number that is out of range (`Reachable.representation`). -/

namespace TreeControl

namespace Register

open Automaton (register stateOf Call)

variable {A : Automaton} {R : Register}

/-! ### Runs and the listing -/

theorem mem_targets_of_advance? {p q : Nat} {s : Symbol} (h : A.advance? s p = some q) :
    q ∈ A.targets p s := by
  unfold Automaton.advance? at h
  split at h
  · rename_i r hr
    cases h
    exact OrdSet.mem_def.2 (hr ▸ List.mem_singleton.2 rfl)
  · cases h

theorem advance?_register (hA : A.WellFormed) (s : Symbol) (i : Nat) :
    A.register.advance? s i = A.advance? s i := by
  rcases h : (A.targets i s).toList with _ | ⟨q, _ | ⟨r, l⟩⟩ <;>
    simp [advance?, Automaton.advance?, hA.targets_register, h]

theorem acceptsFrom_register (hA : A.WellFormed) {i : Nat} (hi : i < A.size) (w : List Symbol) :
    A.register.acceptsFrom w i = (A.acceptsFrom w i).mapError .refused := by
  induction w generalizing i with
  | nil =>
    rw [acceptsFrom, stateAt_register hi]
    rfl
  | cons s w ih =>
    rw [acceptsFrom, advance?_register hA, Automaton.acceptsFrom]
    cases hq : A.advance? s i with
    | some q =>
      have he := Automaton.mem_targets.1 (mem_targets_of_advance? hq)
      exact ih (hA.target_lt _ he)
    | none =>
      show (if s ∈ A.alphabet then _ else _) = _
      split <;> rfl

theorem accepts_register (hA : A.WellFormed) (w : List Symbol) :
    A.register.accepts w = (A.accepts w).mapError .refused := by
  rw [accepts, Automaton.accepts, show A.register.start = A.start from rfl]
  cases hstart : A.start with
  | none => rfl
  | some p => exact acceptsFrom_register hA (hA.start_lt p hstart) w

/-- Without repetitions, sorted texts are those of the set. -/
theorem sortTexts_eq {l : List String} (h : l.Nodup) : sortTexts l = (OrdSet.ofList l).toList := by
  have hlt : ∀ {a b : String}, a ≤ b → a ≠ b → compare a b = .lt := fun hle hne => by
    have hlt := Std.lt_of_le_of_ne hle hne
    show compareOfLessAndEq _ _ = .lt
    rw [compareOfLessAndEq, if_pos hlt]
  have hascending : (sortTexts l).Pairwise fun a b => compare a b = .lt :=
    (sortTexts_ascending l).imp₂ (fun _ _ => hlt) ((sortTexts_perm l).nodup_iff.2 h)
  refine OrdSet.eq_of_ascending hascending (OrdSet.ofList l).ascending fun a => ?_
  rw [(sortTexts_perm l).mem_iff, ← OrdSet.mem_def, OrdSet.mem_ofList]

/-- The map of names tells the states in the order of their names. -/
theorem values_names (hA : A.Coherent) :
    A.register.names.entries.map Prod.snd = A.statesByName := by
  have hvalues : A.register.names.entries.map Prod.snd =
      (OrdSet.ofList A.names).toList.map A.names.idxOf := List.map_map
  rw [hvalues, Automaton.statesByName, sortTexts_eq hA.nodup_names, ← List.filterMap_eq_map]
  refine List.filterMap_congr fun name hname => ?_
  have hmem : name ∈ A.names := OrdSet.mem_ofList.1 hname
  obtain ⟨i, hi⟩ := Automaton.exists_stateId?_iff.2 hmem
  rw [hi, Function.comp, List.idxOf_eq_getD_idxOf?, show A.names.idxOf? name = some i from hi,
    Option.getD_some]

theorem lt_of_mem_statesByName {i : Nat} (h : i ∈ A.statesByName) : i < A.size := by
  obtain ⟨name, -, hid⟩ := List.mem_filterMap.1 h
  exact Automaton.lt_of_stateId? hid

theorem mapM_edgeLines (hA : A.WellFormed) (i : Nat) :
    (A.rules i).entries.mapM (A.register.edgeLines (stateOf A i (A.label i))) =
      .ok ((A.labelsFrom i).toList.map fun s =>
        (sortTexts ((A.targets i s).toList.map A.label)).map fun target =>
          s!"    {A.label i} {Automaton.quoteSymbol s} -> {target};\n") := by
  have hlines : ∀ e ∈ (A.rules i).entries,
      A.register.edgeLines (stateOf A i (A.label i)) e =
        .ok ((sortTexts (e.2.toList.map A.label)).map fun target =>
          s!"    {A.label i} {Automaton.quoteSymbol e.1} -> {target};\n") := by
    intro e he
    have hnames : e.2.toList.mapM (fun q => (stateAt A.register.states q).map State.name) =
        .ok (e.2.toList.map A.label) := mapM_eq_ok_map fun q hq => by
      have hlt := hA.target_lt _ ((A.lists_rules i).exists_entry_iff.1 ⟨e, he, rfl, hq⟩)
      rw [stateAt_register hlt]
      rfl
    rw [edgeLines, hnames]
    rfl
  rw [mapM_eq_ok_map hlines]
  exact congrArg Except.ok List.map_map

theorem startName_register (hA : A.WellFormed) :
    A.register.startName = .ok ((A.start.map A.label).getD "") := by
  rw [startName, show A.register.start = A.start from rfl]
  cases hstart : A.start with
  | none => rfl
  | some p =>
    simp only [stateAt_register (hA.start_lt p hstart)]
    rfl

theorem text_register (hA : A.Coherent) : A.register.text = .ok A.text := by
  have hwf := hA.toWellFormed
  have hstates : (A.register.names.entries.map Prod.snd).mapM (stateAt A.register.states) =
      .ok (A.statesByName.map fun i => stateOf A i (A.label i)) := by
    rw [values_names hA]
    exact mapM_eq_ok_map fun i hi => stateAt_register (lt_of_mem_statesByName hi)
  have hlines : (A.statesByName.map fun i => stateOf A i (A.label i)).mapM
      (fun st => st.rules.entries.mapM (A.register.edgeLines st)) =
      .ok (A.statesByName.map fun i => (A.labelsFrom i).toList.map fun s =>
        (sortTexts ((A.targets i s).toList.map A.label)).map fun target =>
          s!"    {A.label i} {Automaton.quoteSymbol s} -> {target};\n") := by
    rw [List.mapM_map]
    exact mapM_eq_ok_map fun i _ => mapM_edgeLines hwf i
  have hnames : (A.statesByName.map fun i => stateOf A i (A.label i)).map State.name =
      A.statesByName.map A.label := List.map_map
  have haccepting : ((A.statesByName.map fun i => stateOf A i (A.label i)).filter
      State.accepting).map State.name =
      (A.statesByName.filter (· ∈ A.accepting)).map A.label := by
    rw [List.filter_map, List.map_map]
    rfl
  have hjoin : (A.statesByName.map fun i => (A.labelsFrom i).toList.map fun s =>
        (sortTexts ((A.targets i s).toList.map A.label)).map fun target =>
          s!"    {A.label i} {Automaton.quoteSymbol s} -> {target};\n").flatten.flatten =
      A.statesByName.flatMap A.edgeLines := by
    rw [List.flatten_flatten, List.map_map]
    rfl
  unfold text
  simp only [hstates, bind, Except.bind, hlines, startName_register hwf, hnames, haccepting, hjoin]
  rfl

/-! ### What every register keeps -/

theorem refused_of_outcome {α : Type} {x : Except Automaton.Error α × Automaton} {e : Failure}
    (h : outcome x = .error e R) : ∃ reason, e = .refused reason := by
  obtain ⟨reason | a, B⟩ := x
  · cases h
    exact ⟨reason, rfl⟩
  · cases h

/-- Whatever calls were made on a register, with success or without: the list of states and the map of
names are inverse to each other; every state has rules only for the blank symbol and for symbols of the
alphabet, each of which leads to some states, all of them in the list; the start state is in the list;
and arrivals that are present are those that would be collected now.  Hence no number that is looked up
is out of range: a further call, a run or the listing fails only where it is refused. -/
theorem Reachable.representation (h : R.Reachable) :
    (∀ i st, R.states[i]? = some st → R.names.get? st.name = some i) ∧
    (∀ name i, R.names.get? name = some i → ∃ st, R.states[i]? = some st ∧ st.name = name) ∧
    (∀ st ∈ R.states, ∀ s qs, st.rules.get? s = some qs →
      (s = .blank ∨ s ∈ R.alphabet) ∧ (∃ q, q ∈ qs) ∧ ∀ q ∈ qs, q < R.states.length) ∧
    (∀ p, R.start = some p → p < R.states.length) ∧
    (∀ m, R.arrivals = some m → m = R.collected) ∧
    (∀ c, (∀ S, c = .join S → S.Reachable) → ∀ e R', (perform c).run R = .error e R' →
      ∃ reason, e = .refused reason) ∧
    (∀ w e, R.accepts w = .error e → ∃ reason, e = .refused reason) ∧
    ∃ text, R.text = .ok text := by
  obtain ⟨A, hreach, rfl⟩ := reachable_iff.1 h
  have hA := hreach.coherent
  have hwf := hA.toWellFormed
  have inverse : ∀ {name i}, A.register.names.get? name = some i ↔ A.stateName? i = some name :=
    (A.get?_names _).symm ▸ Automaton.stateId?_eq_some_iff hA.nodup_names
  refine ⟨fun i st hst => ?_, fun name i hid => ?_, fun st hst s qs hs => ?_, fun p hp => ?_,
    fun m hm => ?_, fun c hc e R' hfail => ?_, fun w e hfail => ?_, A.text, text_register hA⟩
  · rw [Automaton.getElem?_states, Option.map_eq_some_iff] at hst
    obtain ⟨name, hname, rfl⟩ := hst
    exact inverse.2 hname
  · have hname := inverse.1 hid
    exact ⟨stateOf A i name, by rw [Automaton.getElem?_states, hname]; rfl, rfl⟩
  · obtain ⟨i, hi⟩ := List.mem_iff_getElem?.1 hst
    rw [Automaton.getElem?_states, Option.map_eq_some_iff] at hi
    obtain ⟨name, -, rfl⟩ := hi
    have hmem : ∀ q, q ∈ qs ↔ ⟨i, s, q⟩ ∈ A.edges := fun q => (A.lists_rules i).mem_iff_of_get? hs
    obtain ⟨q, hq⟩ := (A.lists_rules i).nonempty hs
    refine ⟨hwf.label_mem _ ((hmem q).1 hq), ⟨q, hq⟩, fun q' hq' => ?_⟩
    rw [Automaton.length_states]
    exact hwf.target_lt _ ((hmem q').1 hq')
  · rw [Automaton.length_states]
    exact hwf.start_lt p hp
  · rw [collected_register hwf]
    exact (Option.some.inj (hA.arrivals_eq m hm)).symm
  · obtain ⟨c, rfl, hjoined⟩ := exists_call fun S e => reachable_iff.1 (hc S e)
    rw [run_perform hA c fun B e => (hjoined B e).coherent] at hfail
    exact refused_of_outcome hfail
  · rw [accepts_register hwf, mapError_eq_error_iff] at hfail
    obtain ⟨reason, -, rfl⟩ := hfail
    exact ⟨reason, rfl⟩

theorem Reachable.calls (h : R.Reachable) {cs : List (Call Register)}
    (hcs : ∀ S, .join S ∈ cs → S.Reachable) : (cs.foldl after R).Reachable := by
  induction cs generalizing R with
  | nil => exact h
  | cons c cs ih =>
    refine ih (h.call c fun S e => hcs S (e ▸ List.mem_cons_self)) fun S hS => ?_
    exact hcs S (List.mem_cons_of_mem c hS)

/-- Calls for a register whose one state goes back to itself. -/
def repetitionCalls : List (Call Register) :=
  [.addState "r", .addSymbol ⟨"c"⟩, .addEdge "r" ⟨"c"⟩ "r", .setStart "r", .setAccepting "r"]

/-- Calls for another register, to which the first one is joined.  Some of them fail: there is no `u`,
no `d` in the alphabet, no start state yet or already one, and a silent move after the join. -/
def primedCalls : List (Call Register) :=
  [.addState "s", .addState "t", .addState "s_t", .addSymbol ⟨"a"⟩, .addSymbol ⟨"b"⟩,
    .addEdge "s" ⟨"a"⟩ "s", .addEdge "s" ⟨"a"⟩ "t", .addEdge "s" ⟨"b"⟩ "s_t",
    .addEdge "s" ⟨"d"⟩ "t", .addEdge "s" ⟨"a"⟩ "u", .prepare, .join {}, .setStart "s",
    .setStart "t", .setAccepting "s_t", .join (repetitionCalls.foldl after {}), .determinize,
    .prepare, .setAccepting "s_t"]

/-- The set of `s` and `t` is called like the state `s_t`, which therefore gets another name. -/
theorem representation_primed :
    ∃ R S : Register, R.Reachable ∧ S.Reachable ∧
      R.states.map State.name = ["s", "s_t", "s_t'", "r"] ∧ R.arrivals.isSome = true ∧
      (∀ i st, R.states[i]? = some st → R.names.get? st.name = some i) ∧
      (∀ m, R.arrivals = some m → m = R.collected) ∧
      (∀ e R', (perform (.join S)).run R = .error e R' → ∃ reason, e = .refused reason) ∧
      ∃ text, R.text = .ok text := by
  have hS : (repetitionCalls.foldl after {}).Reachable :=
    Reachable.empty.calls (by simp [repetitionCalls])
  have hR : (primedCalls.foldl after {}).Reachable := Reachable.empty.calls fun S hmem => by
    have hjoined : S = {} ∨ S = repetitionCalls.foldl after {} := by
      simpa [primedCalls] using hmem
    obtain rfl | rfl := hjoined
    · exact .empty
    · exact hS
  obtain ⟨listed, -, -, -, arrivals, calls, -, text⟩ := hR.representation
  refine ⟨_, _, hR, hS, by decide +kernel, by decide +kernel, listed, arrivals,
    calls (.join _) fun S e => ?_, text⟩
  cases e
  exact hS

end Register

end TreeControl
