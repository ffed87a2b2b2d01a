import TreeControl.Automaton.Register
import TreeControl.Proofs.Automaton.Coherence

/-! # The register of an automaton

Every automaton has its register (`Automaton.register`): its states in the order of their numbers, each
with the rules that its transitions make, and the map from names to numbers.  A state's rules list its
transitions (`Rules.Lists`) and no symbol without one, which determines them (`Rules.Lists.unique`).

What adds to an automaton does to its register what it does to the automaton: it succeeds with the
register of the larger automaton, or it is refused for the same reason (`run_addState`, `run_addEdge`,
`run_setStart`, `run_setAccepting`).  A coherent automaton is needed for this, because a name that
occurs twice has one number in the map but two places in the list. -/

namespace TreeControl

/-! ### Rules -/

namespace Rules

/-- The rules list what a relation between symbols and states says, and no symbol without a state. -/
structure Lists (m : Rules) (P : Symbol → Nat → Prop) : Prop where
  nonempty : ∀ {s qs}, m.get? s = some qs → ∃ q, q ∈ qs
  mem_iff : ∀ s q, q ∈ (m.get? s).getD ∅ ↔ P s q

variable {m n : Rules} {P Q : Symbol → Nat → Prop} {s : Symbol} {q : Nat} {qs : OrdSet Nat}

theorem Lists.of_iff (h : m.Lists P) (hPQ : ∀ s q, P s q ↔ Q s q) : m.Lists Q :=
  ⟨h.nonempty, fun s q => (h.mem_iff s q).trans (hPQ s q)⟩

theorem Lists.get?_eq_none_iff (h : m.Lists P) : m.get? s = none ↔ ∀ q, ¬ P s q := by
  simp only [← h.mem_iff]
  cases hm : m.get? s with
  | none => simp
  | some qs =>
    obtain ⟨q, hq⟩ := h.nonempty hm
    simp only [reduceCtorEq, Option.getD_some, false_iff]
    exact fun hnone => hnone q hq

theorem Lists.mem_iff_of_get? (h : m.Lists P) (hm : m.get? s = some qs) : q ∈ qs ↔ P s q := by
  rw [← h.mem_iff, hm, Option.getD_some]

theorem Lists.unique (hm : m.Lists P) (hn : n.Lists P) : m = n := by
  refine OrdMap.ext fun s => ?_
  cases hms : m.get? s with
  | none => exact (hn.get?_eq_none_iff.2 (hm.get?_eq_none_iff.1 hms)).symm
  | some qs =>
    cases hns : n.get? s with
    | none =>
      rw [hm.get?_eq_none_iff.2 (hn.get?_eq_none_iff.1 hns)] at hms
      cases hms
    | some rs =>
      refine congrArg some (OrdSet.ext fun q => ?_)
      rw [hm.mem_iff_of_get? hms, hn.mem_iff_of_get? hns]

theorem lists_empty : (∅ : Rules).Lists fun _ _ => False where
  nonempty h := nomatch h
  mem_iff _ q := iff_of_false (OrdSet.not_mem_empty q) id

/-- Rules for just the symbols that lead somewhere. -/
theorem lists_ofKeys {keys : OrdSet Symbol} {f : Symbol → OrdSet Nat}
    (hkeys : ∀ s, s ∈ keys ↔ ∃ q, P s q) (hf : ∀ s ∈ keys, ∀ q, q ∈ f s ↔ P s q) :
    Lists (.ofKeys keys f) P where
  nonempty {s qs} h := by
    rw [OrdMap.get?_ofKeys] at h
    split at h
    · rename_i hs
      cases h
      obtain ⟨q, hq⟩ := (hkeys s).1 hs
      exact ⟨q, (hf s hs q).2 hq⟩
    · cases h
  mem_iff s q := by
    rw [OrdMap.get?_ofKeys]
    by_cases hs : s ∈ keys
    · rw [if_pos hs, Option.getD_some, hf s hs]
    · rw [if_neg hs]
      exact iff_of_false (OrdSet.not_mem_empty q) fun hq => hs ((hkeys s).2 ⟨q, hq⟩)

theorem Lists.add (h : m.Lists P) (hqs : ∃ q, q ∈ qs) :
    (m.add s qs).Lists fun s' q => P s' q ∨ (s' = s ∧ q ∈ qs) where
  nonempty {s' rs} hget := by
    rw [Rules.add, OrdMap.get?_insert] at hget
    split at hget
    · cases hget
      obtain ⟨q, hq⟩ := hqs
      exact ⟨q, OrdSet.mem_union.2 (.inr hq)⟩
    · exact h.nonempty hget
  mem_iff s' q := by
    rw [Rules.add, OrdMap.get?_insert]
    by_cases hs : s' = s
    · subst hs
      rw [if_pos rfl, Option.getD_some, OrdSet.mem_union, h.mem_iff]
      simp
    · rw [if_neg hs, h.mem_iff]
      simp [hs]

theorem Lists.addAll {l : List (Symbol × OrdSet Nat)} (h : m.Lists P)
    (hl : ∀ e ∈ l, ∃ q, q ∈ e.2) :
    (m.addAll l).Lists fun s q => P s q ∨ ∃ e ∈ l, e.1 = s ∧ q ∈ e.2 := by
  induction l generalizing m P with
  | nil => exact h.of_iff fun s q => by simp
  | cons e l ih =>
    obtain ⟨he, hl⟩ := List.forall_mem_cons.1 hl
    refine (ih (h.add he) hl).of_iff fun s q => ?_
    simp only [List.mem_cons, exists_eq_or_imp, or_assoc, eq_comm (a := s)]

theorem Lists.exists_entry_iff (h : m.Lists P) :
    (∃ e ∈ m.entries, e.1 = s ∧ q ∈ e.2) ↔ P s q := by
  rw [← h.mem_iff]
  constructor
  · rintro ⟨⟨s', qs⟩, hmem, rfl, hq⟩
    rw [OrdMap.get?_of_mem_entries hmem]
    exact hq
  · intro hq
    cases hm : m.get? s with
    | none =>
      rw [hm] at hq
      exact absurd hq (OrdSet.not_mem_empty q)
    | some qs =>
      rw [hm] at hq
      exact ⟨(s, qs), OrdMap.mem_entries_of_get? hm, rfl, hq⟩

theorem Lists.nonempty_of_mem (h : m.Lists P) : ∀ e ∈ m.entries, ∃ q, q ∈ e.2 :=
  fun ⟨_, _⟩ he => h.nonempty (OrdMap.get?_of_mem_entries he)

theorem Lists.erase (h : m.Lists P) : Lists (OrdMap.erase m s) fun s' q => P s' q ∧ s' ≠ s where
  nonempty {s' rs} hget := by
    rw [OrdMap.get?_erase] at hget
    split at hget
    · cases hget
    · exact h.nonempty hget
  mem_iff s' q := by
    rw [OrdMap.get?_erase]
    by_cases hs : s' = s
    · simp [hs]
    · rw [if_neg hs, h.mem_iff]
      simp [hs]

end Rules

/-! ### Registers of automata -/

namespace Automaton

/-- The rules that the transitions from a state make. -/
def rules (A : Automaton) (i : Nat) : Rules := .ofKeys (A.labelsFrom i) (A.targets i)

/-- Everything about a state. -/
def stateOf (A : Automaton) (i : Nat) (name : String) : Register.State where
  name := name
  accepting := i ∈ A.accepting
  rules := A.rules i

/-- The register of an automaton. -/
def register (A : Automaton) : Register where
  states := A.names.mapIdx A.stateOf
  names := .numbering A.names
  alphabet := A.alphabet
  start := A.start
  arrivals := A.arrivals

variable {A B C : Automaton} {i p q : Nat} {s : Symbol} {name : String}

theorem mem_labelsFrom : s ∈ A.labelsFrom i ↔ ∃ q, ⟨i, s, q⟩ ∈ A.edges := by
  rw [labelsFrom, OrdSet.mem_map]
  constructor
  · rintro ⟨e, mem, rfl⟩
    obtain ⟨he, h⟩ := OrdSet.mem_filter.1 mem
    obtain rfl := of_decide_eq_true h
    exact ⟨e.target, he⟩
  · rintro ⟨q, he⟩
    exact ⟨_, OrdSet.mem_filter.2 ⟨he, decide_eq_true rfl⟩, rfl⟩

theorem lists_rules (A : Automaton) (i : Nat) :
    (A.rules i).Lists fun s q => ⟨i, s, q⟩ ∈ A.edges :=
  Rules.lists_ofKeys (fun _ => mem_labelsFrom) fun _ _ _ => mem_targets

theorem rules_eq {m : Rules} (h : m.Lists fun s q => ⟨i, s, q⟩ ∈ A.edges) : A.rules i = m :=
  (A.lists_rules i).unique h

theorem getElem?_states (A : Automaton) (i : Nat) :
    A.register.states[i]? = (A.stateName? i).map (A.stateOf i) :=
  List.getElem?_mapIdx

@[simp] theorem length_states (A : Automaton) : A.register.states.length = A.size :=
  List.length_mapIdx

theorem getElem?_states_of_lt (hi : i < A.size) :
    A.register.states[i]? = some (A.stateOf i (A.label i)) := by
  have hname : A.stateName? i = some A.names[i] := List.getElem?_eq_getElem hi
  rw [getElem?_states, label, hname]
  rfl

@[simp] theorem get?_names (A : Automaton) (name : String) :
    A.register.names.get? name = A.stateId? name := OrdMap.get?_numbering A.names name

@[simp] theorem label_register (A : Automaton) (i : Nat) : A.register.label i = A.label i := by
  rw [Register.label, getElem?_states, Option.map_map]
  cases h : A.stateName? i <;> simp [label, h, stateOf]

theorem WellFormed.targets_register (hA : A.WellFormed) (i : Nat) (s : Symbol) :
    A.register.targets i s = A.targets i s := by
  refine OrdSet.ext fun q => ?_
  rw [Register.targets, getElem?_states, mem_targets, ← (A.lists_rules i).mem_iff]
  cases h : A.stateName? i with
  | none =>
    refine iff_of_false (OrdSet.not_mem_empty q) fun hq => ?_
    have hlt := hA.source_lt _ (((A.lists_rules i).mem_iff s q).1 hq)
    exact absurd (List.getElem?_eq_none_iff.1 h) (not_le.2 hlt)
  | some name => rfl

end Automaton

namespace Register

open Automaton (register stateOf Error)

variable {α : Type} {A B : Automaton} {R : Register} {i p q : Nat} {s : Symbol} {name : String}
  {f : State → State}

/-! ### Running changes -/

/-- An answer and an automaton, or the reason of a refusal and an automaton, in a register. -/
def outcome : Except Error α × Automaton → EStateM.Result Failure Register α
  | (.ok a, A) => .ok a A.register
  | (.error e, A) => .error (.refused e) A.register

@[simp] theorem outcome_ok (a : α) (A : Automaton) : outcome (.ok a, A) = .ok a A.register := rfl

theorem run_ofExcept {x : Except Failure α} {a : α} (h : x = .ok a) (R : Register) :
    (MonadExcept.ofExcept x : Edit α).run R = .ok a R := by
  rw [h]
  rfl

theorem stateAt_register (hi : i < A.size) :
    stateAt A.register.states i = .ok (stateOf A i (A.label i)) := by
  rw [stateAt, Automaton.getElem?_states_of_lt hi]

theorem run_change (hi : i < R.states.length) (f : State → State) :
    (change i f).run R = .ok () { R with states := R.states.modify i f } := by
  have hst : stateAt R.states i = .ok R.states[i] := by rw [stateAt, List.getElem?_eq_getElem hi]
  simp only [change, EStateM.run_bind, EStateM.run_get, run_ofExcept hst, EStateM.run_set]

/-- The register after one state of an automaton is changed. -/
theorem modify_states (hnames : B.names = A.names)
    (h : ∀ j name, stateOf B j name = if j = i then f (stateOf A j name) else stateOf A j name) :
    A.register.states.modify i f = B.register.states := by
  refine List.ext_getElem? fun j => ?_
  rw [List.getElem?_modify, Automaton.getElem?_states, Automaton.getElem?_states,
    Automaton.stateName?, Automaton.stateName?, hnames]
  cases A.names[j]? with
  | none => rfl
  | some name =>
    refine congrArg some ?_
    rw [h]
    by_cases hj : j = i
    · rw [if_pos hj]
      exact if_pos hj.symm
    · rw [if_neg hj]
      exact if_neg (Ne.symm hj)

/-! ### Operations that add -/

theorem run_findState (A : Automaton) (name : String) :
    (findState name).run A.register = outcome (A.findState name, A) := by
  simp only [findState, EStateM.run_bind, EStateM.run_get, Automaton.get?_names,
    Automaton.findState]
  cases A.stateId? name <;> rfl

theorem run_addSymbol (A : Automaton) (s : Symbol) :
    (addSymbol s).run A.register = .ok () (A.addSymbol s).register := rfl

/-- A state that is added gets the number that comes next, and nothing else has it yet. -/
theorem register_append (hA : A.Coherent) (hname : ¬ name ∈ A.names) :
    Automaton.register { A with names := A.names ++ [name], arrivals := none } =
      { A.register with
        states := A.register.states ++ [({ name := name } : State)]
        names := A.register.names.insert name A.size
        arrivals := none } := by
  have hrules : A.rules A.size = ∅ := by
    refine Automaton.rules_eq (Rules.lists_empty.of_iff fun s q => ?_)
    exact iff_of_false id fun he => absurd (hA.source_lt _ he) (lt_irrefl _)
  have haccepting : ¬ A.size ∈ A.accepting := fun h => absurd (hA.accepting_lt _ h) (lt_irrefl _)
  have hstates : (A.names ++ [name]).mapIdx (stateOf A) =
      A.register.states ++ [({ name := name } : State)] := by
    rw [List.mapIdx_append, List.mapIdx_singleton, Nat.zero_add]
    have hlast : stateOf A A.names.length name = ({ name := name } : State) := by
      show State.mk _ _ _ = State.mk _ _ _
      rw [show A.names.length = A.size from rfl, hrules, decide_eq_false haccepting]
    rw [hlast]
    rfl
  have hnames := OrdMap.numbering_concat hname
  exact congrArg₂ (fun states names => Register.mk states names A.alphabet A.start none) hstates hnames

theorem run_addState (hA : A.Coherent) (name : String) :
    ∃ id, (A.addState name).stateId? name = some id ∧
      (addState name).run A.register = .ok id (A.addState name).register := by
  simp only [addState, EStateM.run_bind, EStateM.run_get, Automaton.get?_names,
    Automaton.length_states]
  by_cases hname : name ∈ A.names
  · obtain ⟨id, hid⟩ := Automaton.exists_stateId?_iff.2 hname
    refine ⟨id, ?_, ?_⟩
    · rw [Automaton.addState, if_pos hname, hid]
    · rw [hid, Automaton.addState, if_pos hname]
      rfl
  · have hnone : A.stateId? name = none := List.idxOf?_eq_none_iff.2 hname
    refine ⟨A.size, ?_, ?_⟩
    · rw [Automaton.addState, if_neg hname, ← Automaton.get?_names, register_append hA hname,
        OrdMap.get?_insert, if_pos rfl]
    · rw [hnone, Automaton.addState, if_neg hname, register_append hA hname]
      rfl

theorem modify_states_addEdge (A : Automaton) (p : Nat) (s : Symbol) (q : Nat) :
    A.register.states.modify p (fun st => { st with rules := st.rules.add s (.singleton q) }) =
      (register { A with edges := A.edges.insert ⟨p, s, q⟩, arrivals := none }).states := by
  refine modify_states rfl fun j name => ?_
  have hrules : Automaton.rules { A with edges := A.edges.insert ⟨p, s, q⟩, arrivals := none } j =
      if j = p then (A.rules j).add s (.singleton q) else A.rules j := by
    split
    · rename_i hj
      subst hj
      refine Automaton.rules_eq (((A.lists_rules j).add ⟨q, OrdSet.mem_singleton.2 rfl⟩).of_iff
        fun s' q' => ?_)
      simp [or_comm]
    · rename_i hj
      refine Automaton.rules_eq ((A.lists_rules j).of_iff fun s' q' => ?_)
      simp [hj]
  show State.mk _ _ _ = _
  rw [hrules]
  split <;> rfl

theorem run_addEdge (A : Automaton) (source : String) (s : Symbol) (target : String) :
    (addEdge source s target).run A.register =
      outcome (A.attempt () (A.addEdge source s target)) := by
  simp only [addEdge, EStateM.run_bind, run_findState, Automaton.addEdge]
  cases hp : A.findState source with
  | error e => rfl
  | ok p =>
    simp only [outcome_ok, run_findState]
    cases hq : A.findState target with
    | error e => rfl
    | ok q =>
      simp only [outcome_ok, EStateM.run_get]
      by_cases hs : (s.isBlank || decide (s ∈ A.alphabet)) = true
      · have hlt : p < A.register.states.length := by
          rw [Automaton.length_states]
          exact Automaton.lt_of_stateId? (Automaton.findState_eq_ok_iff.1 hp)
        simp only [show A.register.alphabet = A.alphabet from rfl, if_pos hs, EStateM.run_bind,
          run_change hlt, EStateM.run_modify, modify_states_addEdge]
        rfl
      · simp only [show A.register.alphabet = A.alphabet from rfl, if_neg hs]
        rfl

theorem run_setStart (hA : A.Coherent) (name : String) :
    (setStart name).run A.register = outcome (A.attempt () (A.setStart name)) := by
  simp only [setStart, EStateM.run_bind, EStateM.run_get, Automaton.setStart,
    show A.register.start = A.start from rfl]
  cases hstart : A.start with
  | some p =>
    simp only [EStateM.run_bind, run_ofExcept (stateAt_register (hA.start_lt p hstart))]
    rfl
  | none =>
    simp only [EStateM.run_bind, run_findState]
    cases A.findState name <;> rfl

theorem modify_states_setAccepting (A : Automaton) (p : Nat) :
    A.register.states.modify p (fun st => { st with accepting := true }) =
      (register { A with accepting := A.accepting.insert p }).states := by
  refine modify_states rfl fun j name => ?_
  show State.mk _ (decide (j ∈ A.accepting.insert p)) _ = _
  by_cases hj : j = p
  · rw [if_pos hj, decide_eq_true (OrdSet.mem_insert.2 (.inl hj))]
    rfl
  · rw [if_neg hj, decide_eq_decide.2 (OrdSet.mem_insert.trans (or_iff_right hj))]
    rfl

theorem run_setAccepting (A : Automaton) (name : String) :
    (setAccepting name).run A.register = outcome (A.attempt () (A.setAccepting name)) := by
  simp only [setAccepting, EStateM.run_bind, run_findState, Automaton.setAccepting]
  cases hp : A.findState name with
  | error e => rfl
  | ok p =>
    have hlt : p < A.register.states.length := by
      rw [Automaton.length_states]
      exact Automaton.lt_of_stateId? (Automaton.findState_eq_ok_iff.1 hp)
    simp only [outcome_ok, run_change hlt, modify_states_setAccepting]
    rfl

end Register

end TreeControl
