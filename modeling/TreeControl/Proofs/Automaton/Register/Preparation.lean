import TreeControl.Proofs.Automaton.Register.Basic
import TreeControl.Proofs.Loops

/-! # Silent moves and arrivals in a register

Dropping the silent moves changes the states of a register one after the other.  What is done to one
state is a change of that state alone (`Acts`), so changes of different states can be made in a row
(`run_forM_range`), and each of them is read off from the register as it was in the beginning. -/

namespace TreeControl

namespace Register

open Automaton (register stateOf)

variable {A : Automaton} {R : Register} {p : Nat} {f g : State → State} {x y : Edit Unit}

/-! ### Changes of one state -/

/-- Whatever the register, `x` does nothing but change the state with a number, if there is one. -/
def Acts (p : Nat) (x : Edit Unit) (f : State → State) : Prop :=
  ∀ R : Register, p < R.states.length → x.run R = .ok () { R with states := R.states.modify p f }

theorem acts_change (p : Nat) (f : State → State) : Acts p (change p f) f :=
  fun _ h => run_change h f

theorem acts_pure (p : Nat) : Acts p (pure ()) id := by
  intro R _
  rw [List.modify_id]
  rfl

theorem Acts.seq (hx : Acts p x f) (hy : Acts p y g) : Acts p (do x; y) (g ∘ f) := by
  intro R h
  have hlt : p < (R.states.modify p f).length := by rwa [List.length_modify]
  simp only [EStateM.run_bind, hx R h]
  rw [hy _ hlt]
  simp only [List.modify_modify_eq]

/-- A loop that changes one state again and again. -/
theorem Acts.forM {β : Type} {l : List β} {x : β → Edit Unit} {f : State → β → State}
    (h : ∀ b ∈ l, Acts p (x b) (f · b)) : Acts p (l.forM x) (l.foldl f) := by
  induction l with
  | nil => exact acts_pure p
  | cons b l ih =>
    obtain ⟨hb, hl⟩ := List.forall_mem_cons.1 h
    exact hb.seq (ih hl)

/-- A loop that changes one state after the other. -/
theorem run_forM_acts {x : Nat → Edit Unit} {f : Nat → State → State} {l : List Nat}
    (hx : ∀ p ∈ l, Acts p (x p) (f p)) (hl : ∀ p ∈ l, p < R.states.length) :
    (l.forM x).run R =
      .ok () { R with states := l.foldl (fun states p => states.modify p (f p)) R.states } := by
  induction l generalizing R with
  | nil => rfl
  | cons p l ih =>
    obtain ⟨hp, hx⟩ := List.forall_mem_cons.1 hx
    obtain ⟨hlt, hl⟩ := List.forall_mem_cons.1 hl
    have hrest := ih (R := { R with states := R.states.modify p (f p) }) hx fun q hq => by
      rw [List.length_modify]
      exact hl q hq
    show (x p >>= fun _ => l.forM x).run R = _
    rw [EStateM.run_bind, hp R hlt]
    exact hrest

theorem getElem?_foldl_modify (f : Nat → State → State) (states : List State) (n i : Nat) :
    ((List.range n).foldl (fun states p => states.modify p (f p)) states)[i]? =
      states[i]?.map (if i < n then f i else id) := by
  induction n with
  | zero => simp
  | succ n ih =>
    rw [List.range_succ, List.foldl_concat, List.getElem?_modify, ih, Option.map_eq_map,
      Option.map_map]
    refine Option.map_congr fun st _ => ?_
    by_cases hi : n = i
    · subst hi
      simp
    · have hiff : i < n + 1 ↔ i < n := by omega
      simp [hi, hiff]

theorem run_forM_range {x : Nat → Edit Unit} {f : Nat → State → State}
    (hx : ∀ p < R.states.length, Acts p (x p) (f p)) :
    ((List.range R.states.length).forM x).run R =
      .ok () { R with states := R.states.mapIdx f } := by
  rw [run_forM_acts (fun p hp => hx p (List.mem_range.1 hp)) fun p => List.mem_range.1]
  refine congrArg (fun states => EStateM.Result.ok () { R with states }) (List.ext_getElem? fun i => ?_)
  rw [getElem?_foldl_modify, List.getElem?_mapIdx]
  refine Option.map_congr fun st hst => ?_
  rw [if_pos (List.getElem?_eq_some_iff.1 hst).1]

/-! ### Silent moves -/

theorem enough_closure (R : Register) (id : Nat) :
    Enough (fun p => (R.targets p .blank).toList) (R.silentEnds.length + 1) [id] := by
  refine ⟨List.nodup_singleton id, id :: R.silentEnds, by simp, fun p _ q hq => ?_, by simp⟩
  refine List.mem_cons_of_mem id ?_
  change q ∈ ((R.states[p]?.bind (·.rules.get? .blank)).getD ∅).toList at hq
  cases hst : R.states[p]? with
  | none =>
    rw [hst] at hq
    cases hq
  | some st =>
    rw [hst] at hq
    exact List.mem_flatMap.2 ⟨st, List.mem_of_getElem? hst, hq⟩

theorem closure_register (hA : A.WellFormed) (id : Nat) : A.register.closure id = A.closure id := by
  have hmoves : (fun p => (A.register.targets p .blank).toList) =
      fun p => (A.targets p .blank).toList := funext fun p => by rw [hA.targets_register]
  have henough := A.register.enough_closure id
  rw [hmoves] at henough
  rw [closure, hmoves, henough.explore_eq (A.enough_closure id)]
  rfl

/-- A state after it has taken over what another one does after reading. -/
def State.take (st other : State) : State where
  name := st.name
  accepting := st.accepting || other.accepting
  rules := st.rules.addAll (other.rules.entries.filter (!·.1.isBlank))

theorem foldl_add_rules (l : List (Symbol × OrdSet Nat)) (st : State) :
    l.foldl (fun st e => if e.1.isBlank then st else { st with rules := st.rules.add e.1 e.2 }) st =
      { st with rules := st.rules.addAll (l.filter (!·.1.isBlank)) } := by
  induction l generalizing st with
  | nil => rfl
  | cons e l ih =>
    rw [List.foldl_cons, ih, List.filter_cons]
    cases e.1.isBlank <;> rfl

theorem acts_takeOver (p : Nat) (other : State) : Acts p (takeOver p other) (·.take other) := by
  have hrules : Acts p (other.rules.entries.forM fun e => do
        unless e.1.isBlank do
          change p fun st => { st with rules := st.rules.add e.1 e.2 })
      fun st => { st with rules := st.rules.addAll (other.rules.entries.filter (!·.1.isBlank)) } := by
    have hloop : Acts p (other.rules.entries.forM fun e => do
          unless e.1.isBlank do
            change p fun st => { st with rules := st.rules.add e.1 e.2 })
        (other.rules.entries.foldl fun st e =>
          if e.1.isBlank then st else { st with rules := st.rules.add e.1 e.2 }) := by
      refine Acts.forM fun e _ => ?_
      cases e.1.isBlank with
      | true => exact acts_pure p
      | false => exact acts_change p _
    simpa only [foldl_add_rules] using hloop
  have haccepting : Acts p (if other.accepting then change p fun st => { st with accepting := true }
      else pure ()) fun st => { st with accepting := st.accepting || other.accepting } := by
    cases other.accepting with
    | true =>
      simp only [if_true, Bool.or_true]
      exact acts_change p _
    | false =>
      simp only [Bool.false_eq_true, if_false, Bool.or_false]
      exact acts_pure p
  exact hrules.seq haccepting

theorem addAll_append (m : Rules) (l l' : List (Symbol × OrdSet Nat)) :
    m.addAll (l ++ l') = (m.addAll l).addAll l' := List.foldl_append

theorem foldl_take (others : List State) (st : State) :
    others.foldl State.take st =
      { st with
        accepting := st.accepting || others.any State.accepting
        rules := st.rules.addAll
          (others.flatMap fun other => other.rules.entries.filter (!·.1.isBlank)) } := by
  induction others generalizing st with
  | nil =>
    simp only [List.foldl_nil, List.any_nil, Bool.or_false, List.flatMap_nil]
    rfl
  | cons other others ih =>
    rw [List.foldl_cons, ih, List.any_cons, List.flatMap_cons, addAll_append, ← Bool.or_assoc]
    rfl

/-- The rules of a state of its own and those of its closure that read something are its rules after the
silent moves are dropped. -/
theorem rules_dropEpsilon {p : Nat} (hp : p < A.size) {l : List (Symbol × OrdSet Nat)}
    (hl : ∀ e, e ∈ l ↔ ∃ r ∈ A.closure p, e ∈ (A.rules r).entries ∧ e.1 ≠ .blank) :
    A.dropEpsilon.value.rules p = OrdMap.erase ((A.rules p).addAll l) .blank := by
  have hnonempty : ∀ e ∈ l, ∃ q, q ∈ e.2 := fun e he => by
    obtain ⟨r, -, he, -⟩ := (hl e).1 he
    exact (A.lists_rules r).nonempty_of_mem e he
  refine Automaton.rules_eq ((((A.lists_rules p).addAll hnonempty).erase).of_iff fun s q => ?_)
  simp only [Automaton.mem_edges_dropEpsilon, hl, Automaton.mem_closure_iff]
  constructor
  · rintro ⟨he | ⟨e, ⟨r, hr, he, -⟩, hs, hq⟩, hblank⟩
    · exact ⟨hp, hblank, p, .nil p, he⟩
    · exact ⟨hp, hblank, r, hr, ((A.lists_rules r).exists_entry_iff).1 ⟨e, he, hs, hq⟩⟩
  · rintro ⟨-, hblank, r, hr, he⟩
    obtain ⟨e, hentry, rfl, hq⟩ := ((A.lists_rules r).exists_entry_iff).2 he
    exact ⟨.inr ⟨e, ⟨r, hr, hentry, hblank⟩, rfl, hq⟩, hblank⟩

theorem accepting_dropEpsilon {p : Nat} (hp : p < A.size) :
    decide (p ∈ A.dropEpsilon.value.accepting) =
      (decide (p ∈ A.accepting) || (A.closure p).toList.any (· ∈ A.accepting)) := by
  rw [Bool.eq_iff_iff, decide_eq_true_eq, Automaton.mem_accepting_dropEpsilon, Bool.or_eq_true,
    decide_eq_true_eq, List.any_eq_true]
  constructor
  · rintro ⟨-, r, ha, hr⟩
    exact .inr ⟨r, Automaton.mem_closure_iff.2 hr, decide_eq_true ha⟩
  · rintro (ha | ⟨r, hr, ha⟩)
    · exact ⟨hp, p, ha, .nil p⟩
    · exact ⟨hp, r, of_decide_eq_true ha, Automaton.mem_closure_iff.1 hr⟩

/-- What a state has taken over from its closure is what it has after the silent moves are dropped. -/
theorem stateOf_dropEpsilon {p : Nat} (hp : p < A.size) (name : String) :
    stateOf A.dropEpsilon.value p name =
      (fun st : State => { st with rules := OrdMap.erase st.rules .blank })
        (((A.closure p).toList.map fun q => stateOf A q (A.label q)).foldl State.take
          (stateOf A p name)) := by
  rw [foldl_take]
  show State.mk _ _ _ = State.mk _ _ _
  rw [accepting_dropEpsilon hp, List.any_map]
  congr 1
  refine rules_dropEpsilon hp fun e => ?_
  simp only [List.mem_flatMap, List.mem_map, exists_exists_and_eq_and, List.mem_filter,
    Bool.not_eq_true', ← Bool.not_eq_true, Symbol.isBlank_iff]
  exact Iff.rfl

theorem run_dropEpsilon (hA : A.WellFormed) :
    dropEpsilon.run A.register = .ok () A.dropEpsilon.value.register := by
  have hacts : ∀ p < A.register.states.length, Acts p
      (do
        (A.register.closure p).toList.forM fun q => do
          takeOver p (← MonadExcept.ofExcept (stateAt A.register.states q))
        change p fun st => { st with rules := st.rules.erase .blank })
      ((fun st => { st with rules := OrdMap.erase st.rules .blank }) ∘
        (A.register.closure p).toList.foldl fun st q => st.take (stateOf A q (A.label q))) := by
    intro p hp
    rw [Automaton.length_states] at hp
    refine Acts.seq (Acts.forM fun q hq => ?_) (acts_change p _)
    -- What is taken over comes from the register as it was before.
    have hlt : q < A.size := by
      rw [closure_register hA] at hq
      exact hA.run_lt (Automaton.mem_closure_iff.1 hq) hp
    intro R hR
    rw [EStateM.run_bind, run_ofExcept (stateAt_register hlt)]
    exact acts_takeOver p _ R hR
  simp only [dropEpsilon, EStateM.run_bind, EStateM.run_get, run_forM_range hacts,
    EStateM.run_modify]
  refine congrArg (EStateM.Result.ok ()) ?_
  have hstates : A.register.states.mapIdx (fun p => (fun st : State =>
        { st with rules := OrdMap.erase st.rules .blank }) ∘
          (A.register.closure p).toList.foldl fun st q => st.take (stateOf A q (A.label q))) =
      A.dropEpsilon.value.register.states := by
    refine List.ext_getElem? fun p => ?_
    rw [List.getElem?_mapIdx, Automaton.getElem?_states, Automaton.getElem?_states, Option.map_map]
    refine Option.map_congr fun name hname => ?_
    have hp : p < A.size := (List.getElem?_eq_some_iff.1 hname).1
    rw [stateOf_dropEpsilon hp, List.foldl_map, ← closure_register hA]
    rfl
  rw [hstates]
  rfl

/-! ### Arrivals -/

/-- The loop over rules gives each symbol of the alphabet the states that its rules lead to. -/
theorem foldl_modify_ofKeys (l : List (Symbol × OrdSet Nat)) (alphabet : OrdSet Symbol)
    (f : Symbol → OrdSet Nat) :
    l.foldl (fun (m : Rules) e => m.modify e.1 (· ∪ e.2)) (.ofKeys alphabet f) =
      .ofKeys alphabet fun s => l.foldl (fun qs e => if s = e.1 then qs ∪ e.2 else qs) (f s) := by
  induction l generalizing f with
  | nil => rfl
  | cons e l ih => rw [List.foldl_cons, OrdMap.modify_ofKeys, ih]; rfl

theorem mem_foldl_union {l : List (Symbol × OrdSet Nat)} {s : Symbol} {qs : OrdSet Nat} {q : Nat} :
    q ∈ l.foldl (fun qs e => if s = e.1 then qs ∪ e.2 else qs) qs ↔
      q ∈ qs ∨ ∃ e ∈ l, e.1 = s ∧ q ∈ e.2 := by
  induction l generalizing qs with
  | nil => simp
  | cons e l ih =>
    rw [List.foldl_cons, ih]
    by_cases hs : s = e.1
    · simp [hs, or_assoc]
    · simp [hs, Ne.symm hs]

theorem collected_register (hA : A.WellFormed) :
    A.register.collected = .ofKeys A.alphabet A.arrivalsOf := by
  rw [collected, foldl_modify_ofKeys]
  refine congrArg _ (funext fun s => OrdSet.ext fun q => ?_)
  rw [mem_foldl_union, Automaton.mem_arrivalsOf]
  simp only [OrdSet.not_mem_empty, false_or, List.mem_flatMap]
  constructor
  · rintro ⟨e, ⟨st, hst, he⟩, hs, hq⟩
    obtain ⟨i, hi⟩ := List.mem_iff_getElem?.1 hst
    rw [Automaton.getElem?_states, Option.map_eq_some_iff] at hi
    obtain ⟨name, -, rfl⟩ := hi
    exact ⟨i, (A.lists_rules i).exists_entry_iff.1 ⟨e, he, hs, hq⟩⟩
  · rintro ⟨p, he⟩
    obtain ⟨e, hentry, hs, hq⟩ := (A.lists_rules p).exists_entry_iff.2 he
    have hst := Automaton.getElem?_states_of_lt (hA.source_lt _ he)
    exact ⟨e, ⟨_, List.mem_of_getElem? hst, hentry⟩, hs, hq⟩

theorem run_collectArrivals (hA : A.WellFormed) :
    collectArrivals.run A.register = .ok () A.collectArrivals.register := by
  simp only [collectArrivals, EStateM.run_modify, collected_register hA]
  rfl

end Register

end TreeControl
