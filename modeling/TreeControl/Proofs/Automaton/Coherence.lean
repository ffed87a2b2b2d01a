import TreeControl.Automaton.Call
import TreeControl.Proofs.Automaton.Additions

/-! # What every automaton keeps

One invariant holds between the calls that change an automaton (`Coherent`): beyond well-formedness,
no name occurs twice, accepting states are states, and arrivals that are present are those that would
be collected now.  Each operation keeps it, the subset construction because it primes a name until no
earlier state has it, and joining because it only adds, call by call, what any caller could add.

The automata that calls lead to, whether they succeed or not, are those that successful operations
make (`reachable_iff_built`): a join that fails has added nothing. -/

namespace TreeControl.Automaton

/-- What every automaton keeps. -/
structure Coherent (A : Automaton) : Prop extends A.WellFormed where
  nodup_names : A.names.Nodup
  accepting_lt : ∀ p ∈ A.accepting, p < A.size
  arrivals_eq : ∀ m, A.arrivals = some m → A.collectArrivals.arrivals = some m

variable {A B D : Automaton} {p q i start : Nat} {s : Symbol} {name : String}

/-! ### Names -/

theorem nodup_addState (h : A.names.Nodup) (name : String) : (A.addState name).names.Nodup := by
  unfold addState
  split
  · exact h
  · rename_i hname
    exact List.nodup_append.2 ⟨h, List.nodup_singleton name,
      fun n hn m hm e => hname (List.mem_singleton.1 hm ▸ e ▸ hn)⟩

/-- Where no name occurs twice, names and numbers are inverse to each other. -/
theorem stateId?_eq_some_iff (h : A.names.Nodup) :
    A.stateId? name = some i ↔ A.stateName? i = some name := by
  unfold stateId? stateName?
  rw [List.idxOf?_eq_some_iff, List.getElem?_eq_some_iff]
  constructor
  · rintro ⟨hi, e, -⟩
    exact ⟨hi, e⟩
  · rintro ⟨hi, e⟩
    refine ⟨hi, e, fun j hj e' => ?_⟩
    have := h.getElem_inj_iff.1 (e'.trans e.symm)
    omega

/-! ### Every operation keeps it -/

namespace Coherent

theorem addState (h : A.Coherent) (name : String) : (A.addState name).Coherent := by
  refine ⟨h.toWellFormed.addState name, nodup_addState h.nodup_names name, fun p hp => ?_, ?_⟩
  · refine lt_of_lt_of_le (h.accepting_lt p ?_) (size_le_addState A name)
    unfold Automaton.addState at hp
    split at hp
    · exact hp
    · exact hp
  · unfold Automaton.addState
    split
    · exact h.arrivals_eq
    · exact fun _ hm => nomatch hm

theorem addSymbol (h : A.Coherent) (s : Symbol) : (A.addSymbol s).Coherent :=
  ⟨h.toWellFormed.addSymbol s, h.nodup_names, h.accepting_lt, fun _ hm => nomatch hm⟩

theorem addEdge {target : String} (hA : A.Coherent) (h : A.addEdge name s target = .ok B) :
    B.Coherent := by
  have hwf := hA.toWellFormed.addEdge h
  obtain ⟨p, q, -, -, -, rfl⟩ := addEdge_eq_ok_iff.1 h
  exact ⟨hwf, hA.nodup_names, hA.accepting_lt, fun _ hm => nomatch hm⟩

theorem setStart (hA : A.Coherent) (h : A.setStart name = .ok B) : B.Coherent := by
  have hwf := hA.toWellFormed.setStart h
  obtain ⟨p, -, rfl⟩ := setStart_cases h
  exact ⟨hwf, hA.nodup_names, hA.accepting_lt, hA.arrivals_eq⟩

theorem setAccepting (hA : A.Coherent) (h : A.setAccepting name = .ok B) : B.Coherent := by
  have hwf := hA.toWellFormed.setAccepting h
  obtain ⟨p, hp, rfl⟩ := setAccepting_eq_ok_iff.1 h
  refine ⟨hwf, hA.nodup_names, fun q hq => ?_, hA.arrivals_eq⟩
  obtain rfl | hq := OrdSet.mem_insert.1 hq
  · exact lt_of_stateId? hp
  · exact hA.accepting_lt q hq

theorem dropEpsilon (h : A.Coherent) : A.dropEpsilon.value.Coherent :=
  ⟨h.toWellFormed.dropEpsilon, h.nodup_names, fun _ hp => (mem_accepting_dropEpsilon.1 hp).1,
    fun _ hm => nomatch hm⟩

theorem powerset (h : A.Coherent) (start : Nat) : (A.powerset start).Coherent := by
  refine ⟨h.toWellFormed.powerset start, A.nodup_nameSets _, fun p hp => ?_, fun _ hm => nomatch hm⟩
  obtain ⟨S, hS, -⟩ := mem_accepting_powerset.1 hp
  rw [size_powerset]
  exact (List.getElem?_eq_some_iff.1 hS).1

theorem collectArrivals (h : A.Coherent) : A.collectArrivals.Coherent :=
  ⟨h.toWellFormed.collectArrivals, h.nodup_names, h.accepting_lt, fun _ hm => hm⟩

theorem add {c : Addition} (hA : A.Coherent) (h : A.add c = .ok B) : B.Coherent := by
  cases c with
  | symbol s =>
    cases h
    exact hA.addSymbol s
  | state name =>
    cases h
    exact hA.addState name
  | accepting name => exact hA.setAccepting h
  | edge source s target => exact hA.addEdge h

end Coherent

theorem coherent_empty : ({} : Automaton).Coherent where
  source_lt := fun e he => absurd he (OrdSet.not_mem_empty e)
  target_lt := fun e he => absurd he (OrdSet.not_mem_empty e)
  label_mem := fun e he => absurd he (OrdSet.not_mem_empty e)
  start_lt := fun _ hp => nomatch hp
  nodup_names := .nil
  accepting_lt := fun p hp => absurd hp (OrdSet.not_mem_empty p)
  arrivals_eq := fun _ hm => nomatch hm

theorem of_attempt {α : Type} {a : α} {P : Automaton → Prop} {x : Except Error Automaton} (hA : P A)
    (hx : ∀ B, x = .ok B → P B) : P (A.attempt a x).2 := by
  cases x with
  | error e => exact hA
  | ok B => exact hx B rfl

theorem Coherent.joinInto (hA : A.Coherent) (B : Automaton) : (A.joinInto B).2.Coherent := by
  unfold Automaton.joinInto
  split
  · exact of_addAll Coherent.add hA
  · exact hA

theorem Coherent.after (hA : A.Coherent) (c : Call Automaton) : (A.after c).Coherent := by
  cases c with
  | addState name => exact hA.addState name
  | addSymbol s => exact hA.addSymbol s
  | addEdge source s target => exact of_attempt hA fun B h => hA.addEdge h
  | setStart name => exact of_attempt hA fun B h => hA.setStart h
  | setAccepting name => exact of_attempt hA fun B h => hA.setAccepting h
  | dropEpsilon => exact hA.dropEpsilon
  | determinize =>
    refine of_attempt hA fun B h => ?_
    obtain ⟨start, -, -, rfl⟩ := determinize_outcome_iff.1 h
    exact hA.powerset start
  | collectArrivals => exact hA.collectArrivals
  | prepare =>
    show A.afterPrepare.Coherent
    obtain ⟨start, -, h⟩ | h := afterPrepare_cases A
    · rw [h]
      exact (hA.dropEpsilon.powerset start).collectArrivals
    · rw [h]
      exact hA.dropEpsilon
  | join B => exact hA.joinInto B

theorem Reachable.coherent (h : A.Reachable) : A.Coherent := by
  induction h with
  | empty => exact coherent_empty
  | call c _ _ ih => exact ih.after c

theorem Reachable.calls (h : A.Reachable) {cs : List (Call Automaton)}
    (hcs : ∀ B, ¬ .join B ∈ cs) : (cs.foldl after A).Reachable := by
  induction cs generalizing A with
  | nil => exact h
  | cons c cs ih =>
    refine ih (h.call c fun B e => absurd (e ▸ List.mem_cons_self) (hcs B)) fun B hB => ?_
    exact hcs B (List.mem_cons_of_mem c hB)

/-! ### The automata that are reached -/

/-- A call that leaves the automaton as it was if it fails leads to what it makes if it succeeds. -/
theorem Reachable.of_call (hA : A.Reachable) (c : Call Automaton) {x : Except Error Automaton}
    (hcall : A.call c = A.attempt none x) (hc : ∀ B, c ≠ .join B) (h : x = .ok B) : B.Reachable := by
  have hafter := hA.call c fun D e => absurd e (hc D)
  rwa [after, hcall, h] at hafter

theorem Reachable.join (hA : A.Reachable) (hB : B.Reachable) (h : A.join B = .ok C) :
    C.Reachable := by
  have hafter := hA.call (.join B) fun D e => by
    cases e
    exact hB
  rw [join_eq_ok_iff] at h
  have hC : A.after (.join B) = C := congrArg Prod.snd h
  rwa [hC] at hafter

theorem Built.reachable (h : A.Built) : A.Reachable := by
  induction h with
  | empty => exact .empty
  | addState name _ ih => exact ih.call (.addState name) nofun
  | addSymbol s _ ih => exact ih.call (.addSymbol s) nofun
  | addEdge _ h ih => exact ih.of_call (.addEdge _ _ _) rfl nofun h
  | setStart _ h ih => exact ih.of_call (.setStart _) rfl nofun h
  | setAccepting _ h ih => exact ih.of_call (.setAccepting _) rfl nofun h
  | dropEpsilon _ ih => exact ih.call .dropEpsilon nofun
  | determinize _ h ih => exact ih.of_call .determinize rfl nofun h
  | collectArrivals _ ih => exact ih.call .collectArrivals nofun
  | prepare _ ih => exact ih.call .prepare nofun
  | join _ _ h ihA ihB => exact ihA.join ihB h

theorem Built.coherent (h : A.Built) : A.Coherent := h.reachable.coherent

/-- Every automaton that can be built is well-formed. -/
theorem Built.wellFormed (h : A.Built) : A.WellFormed := h.coherent.toWellFormed

theorem Built.after (hA : A.Built) {c : Call Automaton} (hc : ∀ B, c = .join B → B.Built) :
    (A.after c).Built := by
  cases c with
  | addState name => exact hA.addState name
  | addSymbol s => exact hA.addSymbol s
  | addEdge source s target => exact of_attempt hA fun B h => hA.addEdge h
  | setStart name => exact of_attempt hA fun B h => hA.setStart h
  | setAccepting name => exact of_attempt hA fun B h => hA.setAccepting h
  | dropEpsilon => exact hA.dropEpsilon
  | determinize => exact of_attempt hA fun B h => hA.determinize h
  | collectArrivals => exact hA.collectArrivals
  | prepare => exact hA.prepare
  | join B =>
    -- A join that fails has not begun, so it leaves the automaton that was there.
    have hB := hc B rfl
    show (A.joinInto B).2.Built
    obtain ⟨-, h⟩ | ⟨C, p, q, -, -, h, -⟩ := joinInto_cases hA.wellFormed hB.wellFormed
    · rw [h]
      exact hA
    · rw [h]
      exact hA.join hB (join_eq_ok_iff.2 h)

/-- The automata that calls lead to are those that successful operations make. -/
theorem reachable_iff_built : A.Reachable ↔ A.Built := by
  constructor
  · intro h
    induction h with
    | empty => exact .empty
    | call c _ _ ih ihc => exact ih.after ihc
  · exact Built.reachable

end TreeControl.Automaton
