import TreeControl.Proofs.Automaton.Register.Preparation
import TreeControl.Proofs.Automaton.Register.Subsets

/-! # Registers that calls lead to

A call does to the register of an automaton what it does to the automaton (`run_perform`): it answers
the same, or it is refused for the same reason, and it leaves the register of the automaton afterwards
behind.  For a join this needs that transitions are ordered like the rules of one state after the other
(`toList_edges`), so that both add the same things in the same order.

So the registers that calls lead to are those of the automata that calls lead to
(`reachable_iff`). -/

namespace TreeControl

namespace Automaton

variable {A : Automaton}

/-! ### Reading in the order of the register -/

/-- Transitions come state by state, symbol by symbol and end by end. -/
theorem WellFormed.toList_edges (hA : A.WellFormed) :
    A.edges.toList = (List.range A.size).flatMap fun i =>
      (A.rules i).entries.flatMap fun e => e.2.toList.map fun q => ⟨i, e.1, q⟩ := by
  have hself : ∀ i : Nat, compare i i = .eq := fun i => OrdSet.compare_self i
  refine OrdSet.eq_of_ascending A.edges.ascending ?_ fun e => ?_
  · refine List.pairwise_flatMap.2 ⟨fun i _ => List.pairwise_flatMap.2 ⟨fun e _ => ?_, ?_⟩, ?_⟩
    · refine List.pairwise_map.2 (e.2.ascending.imp fun hlt => ?_)
      rw [Edge.compare_def, hself, OrdSet.compare_self]
      exact hlt
    · refine (A.rules i).ascending.imp fun {e f} hlt x hx y hy => ?_
      obtain ⟨q, -, rfl⟩ := List.mem_map.1 hx
      obtain ⟨r, -, rfl⟩ := List.mem_map.1 hy
      rw [Edge.compare_def, hself, hlt]
      rfl
    · refine List.pairwise_lt_range.imp fun {i j} hlt x hx y hy => ?_
      obtain ⟨e, -, hx⟩ := List.mem_flatMap.1 hx
      obtain ⟨q, -, rfl⟩ := List.mem_map.1 hx
      obtain ⟨f, -, hy⟩ := List.mem_flatMap.1 hy
      obtain ⟨r, -, rfl⟩ := List.mem_map.1 hy
      rw [Edge.compare_def, Nat.compare_eq_lt.2 hlt]
      rfl
  · simp only [List.mem_flatMap, List.mem_map, List.mem_range]
    constructor
    · intro he
      obtain ⟨entry, hentry, hs, hq⟩ := (A.lists_rules e.source).exists_entry_iff.2 he
      exact ⟨e.source, hA.source_lt e he, entry, hentry, e.target, hq, by rw [hs]⟩
    · rintro ⟨i, -, entry, hentry, q, hq, rfl⟩
      exact (A.lists_rules i).exists_entry_iff.1 ⟨entry, hentry, rfl, hq⟩

theorem states_register (A : Automaton) :
    A.register.states = (List.range A.size).map fun i => A.stateOf i (A.label i) := by
  refine List.ext_getElem? fun i => ?_
  rw [getElem?_states, List.getElem?_map]
  by_cases hi : i < A.size
  · have hname : A.stateName? i = some A.names[i] := List.getElem?_eq_getElem hi
    rw [List.getElem?_range hi, hname]
    simp [label, hname]
  · have hname : A.stateName? i = none := List.getElem?_eq_none (not_lt.1 hi)
    rw [hname, List.getElem?_eq_none (by simpa using hi)]
    rfl

end Automaton

namespace Register

open Automaton (register stateOf Error Addition Call)

variable {A B : Automaton} {R : Register}

/-! ### Joining -/

theorem forM_flatMap {α β : Type} (l : List α) (f : α → List β) (g : β → Edit Unit) :
    (l.flatMap f).forM g = l.forM fun a => (f a).forM g := by
  induction l with
  | nil => rfl
  | cons a l ih =>
    rw [List.flatMap_cons]
    show forM (f a ++ l.flatMap f) g = _
    rw [List.forM_append]
    exact congrArg (forM (f a) g >>= ·) (funext fun _ => ih)

theorem forM_congr {α : Type} {l : List α} {f g : α → Edit Unit} (h : ∀ a ∈ l, f a = g a) :
    l.forM f = l.forM g := by
  induction l with
  | nil => rfl
  | cons a l ih =>
    obtain ⟨ha, hl⟩ := List.forall_mem_cons.1 h
    show (f a >>= fun _ => l.forM f) = (g a >>= fun _ => l.forM g)
    rw [ha, ih hl]

/-- Adds something to a register. -/
def addition : Addition → Edit Unit
  | .symbol s => addSymbol s
  | .state name => do
    let _ ← addState name
  | .accepting name => setAccepting name
  | .edge source s target => addEdge source s target

theorem run_addition (hA : A.Coherent) (c : Addition) :
    (addition c).run A.register = outcome (A.attempt () (A.add c)) := by
  cases c with
  | symbol s => exact run_addSymbol A s
  | state name =>
    obtain ⟨id, -, hrun⟩ := run_addState hA name
    simp only [addition, EStateM.run_bind, hrun]
    rfl
  | accepting name => exact run_setAccepting A name
  | edge source s target => exact run_addEdge A source s target

theorem run_additions (hA : A.Coherent) (cs : List Addition) :
    (cs.forM addition).run A.register = outcome (A.addAll cs) := by
  induction cs generalizing A with
  | nil => rfl
  | cons c cs ih =>
    show (addition c >>= fun _ => cs.forM addition).run A.register = _
    rw [EStateM.run_bind, run_addition hA, Automaton.addAll]
    cases hc : A.add c with
    | error e => rfl
    | ok B => exact ih (hA.add hc)

theorem joinState_stateOf (B : Automaton) (i : Nat) (name : String) :
    joinState (stateOf B i name) = (B.stateAdditions (name, i)).forM addition := by
  unfold joinState Automaton.stateAdditions
  by_cases hi : i ∈ B.accepting
  · simp only [stateOf, hi, decide_true, if_true, List.forM_eq_forM, List.forM_cons, List.forM_nil,
      addition, bind_assoc, pure_bind, bind_pure_unit]
  · simp only [stateOf, hi, decide_false, Bool.false_eq_true, if_false, List.forM_eq_forM,
      List.forM_cons, List.forM_nil, addition, bind_assoc, pure_bind]

/-- The states of a second automaton are added in the order of their numbers. -/
theorem forM_joinState (B : Automaton) :
    B.register.states.forM joinState = (B.names.zipIdx.flatMap B.stateAdditions).forM addition := by
  rw [forM_flatMap, register, List.mapIdx_eq_zipIdx_map]
  refine List.forM_map.trans (forM_congr fun ⟨name, i⟩ _ => ?_)
  exact joinState_stateOf B i name

theorem forM_states (A : Automaton) (f : State → Edit Unit) :
    A.register.states.forM f = (List.range A.size).forM fun i => f (stateOf A i (A.label i)) := by
  rw [Automaton.states_register]
  exact List.forM_map

theorem forM_joinRules (hB : B.WellFormed) :
    B.register.states.forM (joinRules B.register.states) =
      (B.edges.toList.map B.edgeAddition).forM addition := by
  have hedge : ∀ i, ∀ e ∈ (B.rules i).entries, ∀ q ∈ e.2.toList,
      (do
        let target ← MonadExcept.ofExcept (stateAt B.register.states q)
        addEdge (B.label i) e.1 target.name : Edit Unit) =
      addition (B.edgeAddition ⟨i, e.1, q⟩) := by
    intro i e he q hq
    have hlt := hB.target_lt _ ((B.lists_rules i).exists_entry_iff.1 ⟨e, he, rfl, hq⟩)
    rw [stateAt_register hlt]
    rfl
  have hmap : (B.edges.toList.map B.edgeAddition).forM addition =
      B.edges.toList.forM fun e => addition (B.edgeAddition e) := List.forM_map
  rw [hmap, hB.toList_edges, forM_flatMap, forM_states]
  refine forM_congr fun i _ => ?_
  rw [forM_flatMap]
  refine forM_congr fun e he => Eq.trans (forM_congr (hedge i e he)) ?_
  simp only [List.forM_eq_forM, List.forM_map]

theorem run_addRegister (hA : A.Coherent) (hB : B.WellFormed) :
    (addRegister B.register).run A.register = outcome (A.addAll B.additions) := by
  have hsymbols : B.register.alphabet.toList.forM addSymbol =
      (B.alphabet.toList.map Addition.symbol).forM addition := by
    simp only [List.forM_eq_forM, List.forM_map]
    rfl
  rw [← run_additions hA, addRegister, hsymbols, forM_joinState, forM_joinRules hB,
    Automaton.additions]
  simp only [List.forM_eq_forM, List.forM_append, bind_assoc]

theorem label_of_prefix {C : Automaton} {i : Nat} (h : A.names <+: C.names) (hi : i < A.size) :
    C.label i = A.label i := by
  obtain ⟨names, hnames⟩ := h
  have hname : C.stateName? i = A.stateName? i := by
    rw [Automaton.stateName?, ← hnames]
    exact List.getElem?_append_left hi
  rw [Automaton.label, hname, Automaton.label]

theorem addAll_singleton (A : Automaton) (c : Addition) :
    A.addAll [c] = A.attempt () (A.add c) := by
  rw [Automaton.addAll]
  cases A.add c <;> rfl

/-- A join adds what the second automaton has and then a silent move between the start states. -/
theorem run_join (hA : A.Coherent) (hB : B.WellFormed) :
    (join B.register).run A.register = outcome (A.joinInto B) := by
  unfold join Automaton.joinInto
  simp only [EStateM.run_bind, EStateM.run_get, show A.register.start = A.start from rfl,
    show B.register.start = B.start from rfl]
  cases hp : A.start with
  | none => rfl
  | some p =>
    cases hq : B.start with
    | none => rfl
    | some q =>
      obtain ⟨D, hD⟩ := Automaton.exists_addAll_additions A hB
      have hadded := Automaton.added_of_addAll hD
      have hprefix := hadded.names_prefix
      have hplt := hA.start_lt p hp
      have hadd := run_addRegister hA hB
      rw [hD] at hadd
      simp only [EStateM.run_bind, hadd, outcome_ok, EStateM.run_get,
        run_ofExcept (stateAt_register (hplt.trans_le hprefix.length_le)),
        run_ofExcept (stateAt_register (hB.start_lt q hq)), Automaton.addAll_append hD, addAll_singleton]
      rw [← label_of_prefix hprefix hplt]
      exact run_addEdge D (D.label p) .blank (B.label q)

/-! ### All calls -/

theorem outcome_prepare (A : Automaton) :
    A.prepare.outcome = A.dropEpsilon.value.determinize.outcome.map Automaton.collectArrivals := by
  unfold Automaton.prepare
  simp only [Attempt.outcome_bind, Attempt.outcome_lift, Attempt.outcome_pure]
  show (A.dropEpsilon.value.determinize.outcome >>= fun D => .ok D.collectArrivals) = _
  cases A.dropEpsilon.value.determinize.outcome <;> rfl

theorem run_prepare (hA : A.WellFormed) :
    prepare.run A.register = outcome (A.prepare.outcome.map fun _ => (), A.afterPrepare) := by
  simp only [prepare, EStateM.run_bind, run_dropEpsilon hA, run_determinize hA.dropEpsilon,
    Automaton.afterPrepare, outcome_prepare]
  cases hD : A.dropEpsilon.value.determinize.outcome with
  | error e => rfl
  | ok D =>
    obtain ⟨start, -, -, rfl⟩ := Automaton.determinize_outcome_iff.1 hD
    exact run_collectArrivals (hA.dropEpsilon.powerset start)

theorem run_return {β : Type} {x : Edit Unit} {y : Except Error Unit × Automaton} (b : β)
    (h : x.run R = outcome y) :
    (do x; return b : Edit β).run R = outcome (y.1.map fun _ => b, y.2) := by
  rw [EStateM.run_bind, h]
  obtain ⟨_ | _, B⟩ := y <;> rfl

theorem map_attempt {β : Type} (A : Automaton) (b : β) (x : Except Error Automaton) :
    ((A.attempt () x).1.map fun _ => b, (A.attempt () x).2) = A.attempt b x := by
  cases x <;> rfl

/-- A call does to the register of an automaton what it does to the automaton. -/
theorem run_perform (hA : A.Coherent) (c : Call Automaton) (hc : ∀ B, c = .join B → B.Coherent) :
    (perform (c.map register)).run A.register = outcome (A.call c) := by
  have hwf := hA.toWellFormed
  cases c with
  | addState name =>
    obtain ⟨id, hid, hrun⟩ := run_addState hA name
    simp only [Call.map, perform, EStateM.run_bind, hrun, Automaton.call, hid]
    rfl
  | addSymbol s => exact run_return none (y := (.ok (), A.addSymbol s)) (run_addSymbol A s)
  | addEdge source s target =>
    rw [Automaton.call, ← map_attempt]
    exact run_return none (run_addEdge A source s target)
  | setStart name =>
    rw [Automaton.call, ← map_attempt]
    exact run_return none (run_setStart hA name)
  | setAccepting name =>
    rw [Automaton.call, ← map_attempt]
    exact run_return none (run_setAccepting A name)
  | dropEpsilon => exact run_return none (y := (.ok (), A.dropEpsilon.value)) (run_dropEpsilon hwf)
  | determinize =>
    rw [Automaton.call, ← map_attempt]
    exact run_return none (run_determinize hwf)
  | collectArrivals => exact run_return none (y := (.ok (), A.collectArrivals)) (run_collectArrivals hwf)
  | prepare =>
    refine (run_return none (run_prepare hwf)).trans (congrArg outcome (Prod.ext ?_ rfl))
    show (A.prepare.outcome.map fun _ => ()).map _ = A.prepare.outcome.map _
    cases A.prepare.outcome <;> rfl
  | join B => exact run_return none (run_join hA (hc B rfl).toWellFormed)

/-! ### Reached registers -/

theorem after_register (hA : A.Coherent) (c : Call Automaton)
    (hc : ∀ B, c = .join B → B.Coherent) :
    A.register.after (c.map register) = (A.after c).register := by
  rw [after, run_perform hA c hc, Automaton.after]
  obtain ⟨_ | _, B⟩ := A.call c <;> rfl

theorem exists_call {c : Call Register}
    (hc : ∀ S, c = .join S → ∃ B : Automaton, B.Reachable ∧ S = B.register) :
    ∃ c' : Call Automaton, c = c'.map register ∧ ∀ B, c' = .join B → B.Reachable := by
  cases c with
  | join S =>
    obtain ⟨B, hB, rfl⟩ := hc S rfl
    refine ⟨.join B, rfl, fun B' e => ?_⟩
    cases e
    exact hB
  | addState name => exact ⟨.addState name, rfl, nofun⟩
  | addSymbol s => exact ⟨.addSymbol s, rfl, nofun⟩
  | addEdge source s target => exact ⟨.addEdge source s target, rfl, nofun⟩
  | setStart name => exact ⟨.setStart name, rfl, nofun⟩
  | setAccepting name => exact ⟨.setAccepting name, rfl, nofun⟩
  | dropEpsilon => exact ⟨.dropEpsilon, rfl, nofun⟩
  | determinize => exact ⟨.determinize, rfl, nofun⟩
  | collectArrivals => exact ⟨.collectArrivals, rfl, nofun⟩
  | prepare => exact ⟨.prepare, rfl, nofun⟩

theorem Reachable.of_automaton (hA : A.Reachable) : A.register.Reachable := by
  induction hA with
  | empty => exact .empty
  | @call A c hA hc ih ihc =>
    rw [← after_register hA.coherent c fun B e => (hc B e).coherent]
    refine ih.call (c.map register) fun S e => ?_
    cases c <;> cases e
    exact ihc _ rfl

/-- The registers that calls lead to are those of the automata that calls lead to. -/
theorem reachable_iff : R.Reachable ↔ ∃ A : Automaton, A.Reachable ∧ R = A.register := by
  constructor
  · intro h
    induction h with
    | empty => exact ⟨{}, .empty, rfl⟩
    | call c _ _ ih ihc =>
      obtain ⟨A, hA, rfl⟩ := ih
      obtain ⟨c, rfl, hc⟩ := exists_call ihc
      exact ⟨A.after c, hA.call c hc, after_register hA.coherent c fun B e => (hc B e).coherent⟩
  · rintro ⟨A, hA, rfl⟩
    exact .of_automaton hA

end Register

end TreeControl
