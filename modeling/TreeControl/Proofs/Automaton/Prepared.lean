import TreeControl.Automaton.Position
import TreeControl.Proofs.Automaton.Coherence

/-! # Prepared automata

A prepared automaton is deterministic, has no silent moves, and knows where every symbol of its
alphabet leads.  Preparing gives such an automaton with the same words (`prepare_spec`).

A position stands for a set of states (`Position.Holds`).  One step of a prepared automaton moves
the whole set (`Prepared.step_spec`), so a walk ends in the position of all states that a run
from the first position can end in (`Prepared.walk_spec`).  From the start state a walk decides
acceptance (`Prepared.accepts_iff_walk`), and a walk that succeeds can be repeated on any middle
part of its word from an unknown position (`Prepared.reads_unknown_of_infix`). -/

namespace TreeControl

/-- The states that a position stands for. -/
def Position.Holds : Position → Nat → Prop
  | .known id, q => q = id
  | .unknown, _ => True
  | .among ids, q => q ∈ ids

theorem Position.holds_ofSet {ids : OrdSet Nat} {q : Nat} : (ofSet ids).Holds q ↔ q ∈ ids := by
  unfold ofSet
  split
  · rename_i id h
    rw [OrdSet.mem_def, h, List.mem_singleton]
    rfl
  · exact Iff.rfl

theorem Position.ofSet_ne_unknown (ids : OrdSet Nat) : ofSet ids ≠ .unknown := by
  unfold ofSet
  split <;> simp

namespace Automaton

/-- What preparing an automaton establishes. -/
structure Prepared (D : Automaton) : Prop where
  epsilonFree : D.EpsilonFree
  deterministic : ∀ {p q r : Nat} {s : Symbol}, ⟨p, s, q⟩ ∈ D.edges → ⟨p, s, r⟩ ∈ D.edges → q = r
  label_mem : ∀ e ∈ D.edges, e.label ∈ D.alphabet
  arrivals : D.arrivals = some (.ofKeys D.alphabet D.arrivalsOf)
  start : D.start = some 0

/-- A word can be read from a position to its end. -/
def Reads (D : Automaton) (P : Position) (w : List Symbol) : Prop := ∃ Q, D.walk w P = .ok Q

variable {A D : Automaton} {p q r : Nat} {s : Symbol} {P Q : Position} {u v w : List Symbol}

theorem accepts_collectArrivals_iff : A.collectArrivals.Accepts w ↔ A.Accepts w := by
  constructor
  · rintro ⟨p, hp, q, ha, hq⟩
    exact ⟨p, hp, q, ha, Run.mono (A := A.collectArrivals) (fun _ he => he) hq⟩
  · rintro ⟨p, hp, q, ha, hq⟩
    exact ⟨p, hp, q, ha, Run.mono (A := A) (fun _ he => he) hq⟩

theorem prepared_collectArrivals (hA : A.WellFormed) (free : A.EpsilonFree)
    (det : ∀ {p q r : Nat} {s : Symbol}, ⟨p, s, q⟩ ∈ A.edges → ⟨p, s, r⟩ ∈ A.edges → q = r)
    (start : A.start = some 0) : A.collectArrivals.Prepared where
  epsilonFree := free
  deterministic := det
  label_mem := fun e he => (hA.label_mem e he).resolve_left (free e he)
  arrivals := rfl
  start := start

/-- A prepared automaton has the words of the automaton that it was made from. -/
theorem prepare_spec (hA : A.WellFormed) (h : A.prepare.outcome = .ok D) :
    D.Prepared ∧ ∀ w, D.Accepts w ↔ A.Accepts w := by
  obtain ⟨start, hs, rfl⟩ := prepare_outcome_iff.1 h
  have free := epsilonFree_dropEpsilon A
  have wf := hA.dropEpsilon.powerset start
  refine ⟨prepared_collectArrivals wf free.powerset eq_of_mem_edges_powerset rfl, fun w => ?_⟩
  rw [accepts_collectArrivals_iff, accepts_powerset_iff free hs, accepts_dropEpsilon_iff hA]

theorem WellFormed.prepare (hA : A.WellFormed) (h : A.prepare.outcome = .ok D) :
    D.WellFormed := by
  obtain ⟨start, -, rfl⟩ := prepare_outcome_iff.1 h
  exact (hA.dropEpsilon.powerset start).collectArrivals

/-! ### Single states -/

theorem Prepared.advance?_eq_some_iff (hD : D.Prepared) :
    D.advance? s p = some q ↔ ⟨p, s, q⟩ ∈ D.edges := by
  have key : (D.targets p s).toList = [q] ↔ ⟨p, s, q⟩ ∈ D.edges := by
    rw [OrdSet.toList_eq_singleton_iff]
    constructor
    · intro h
      exact mem_targets.1 ((h q).2 rfl)
    · intro h x
      constructor
      · exact fun hx => hD.deterministic (mem_targets.1 hx) h
      · rintro rfl
        exact mem_targets.2 h
  rw [← key]
  unfold advance?
  split
  · rename_i q' h
    rw [h, Option.some.injEq, List.cons.injEq]
    simp
  · rename_i h
    simp only [reduceCtorEq, false_iff]
    exact h q

theorem Prepared.run_nil_iff (hD : D.Prepared) : D.Run p [] q ↔ q = p :=
  hD.epsilonFree.run_nil_iff

theorem Prepared.run_cons_iff (hD : D.Prepared) :
    D.Run p (s :: w) q ↔ ∃ r, D.advance? s p = some r ∧ D.Run r w q := by
  simp only [hD.epsilonFree.run_cons_iff, hD.advance?_eq_some_iff]

theorem Prepared.acceptsFrom_iff (hD : D.Prepared) :
    D.acceptsFrom w p = .ok true ↔ ∃ q ∈ D.accepting, D.Run p w q := by
  induction w generalizing p with
  | nil => simp [acceptsFrom, hD.run_nil_iff]
  | cons s w ih =>
    rw [acceptsFrom]
    cases hr : D.advance? s p with
    | none =>
      simp only [hD.run_cons_iff, hr]
      split <;> simp
    | some r => simp [hD.run_cons_iff, hr, ih]

theorem Prepared.accepts_iff (hD : D.Prepared) : D.accepts w = .ok true ↔ D.Accepts w := by
  unfold accepts Accepts
  rw [hD.start]
  simp [hD.acceptsFrom_iff]

/-! ### One step of a position -/

theorem Prepared.mem_arrivals_iff (hD : D.Prepared) :
    q ∈ (((OrdMap.ofKeys D.alphabet D.arrivalsOf).get? s).getD ∅) ↔ ∃ p, ⟨p, s, q⟩ ∈ D.edges := by
  rw [OrdMap.get?_ofKeys]
  by_cases hs : s ∈ D.alphabet
  · simp [hs]
  · simp only [hs, if_false, Option.getD_none, OrdSet.not_mem_empty, false_iff]
    rintro ⟨p, he⟩
    exact hs (hD.label_mem _ he)

/-- A step leads to the states that a transition joins to the states of the position. -/
theorem Prepared.step_spec (hD : D.Prepared) (h : D.step s P = .ok Q) :
    Q ≠ .unknown ∧ (∃ q, Q.Holds q) ∧
      ∀ q, Q.Holds q ↔ ∃ p, P.Holds p ∧ ⟨p, s, q⟩ ∈ D.edges := by
  unfold step at h
  cases P with
  | known p =>
    cases hq : D.advance? s p with
    | none => simp [hq] at h
    | some q =>
      simp only [hq] at h
      cases h
      refine ⟨by simp, ⟨q, rfl⟩, fun q' => ?_⟩
      have he := hD.advance?_eq_some_iff.1 hq
      constructor
      · rintro rfl
        exact ⟨p, rfl, he⟩
      · rintro ⟨p', rfl, he'⟩
        exact hD.deterministic he' he
  | unknown =>
    simp only [hD.arrivals] at h
    split at h
    · cases h
    · rename_i hne
      cases h
      rw [Bool.not_eq_true, OrdSet.isEmpty_eq_false_iff] at hne
      refine ⟨Position.ofSet_ne_unknown _, ?_, fun q => ?_⟩
      · simpa only [Position.holds_ofSet] using hne
      · rw [Position.holds_ofSet, hD.mem_arrivals_iff]
        simp [Position.Holds]
  | among ids =>
    simp only at h
    split at h
    · cases h
    · rename_i hne
      cases h
      rw [Bool.not_eq_true, OrdSet.isEmpty_eq_false_iff] at hne
      refine ⟨Position.ofSet_ne_unknown _, ?_, fun q => ?_⟩
      · simpa only [Position.holds_ofSet] using hne
      · rw [Position.holds_ofSet, OrdSet.mem_ofList, List.mem_filterMap]
        simp only [hD.advance?_eq_some_iff]
        exact Iff.rfl

theorem Prepared.exists_step (hD : D.Prepared) (hp : P.Holds p) (he : ⟨p, s, q⟩ ∈ D.edges) :
    ∃ Q, D.step s P = .ok Q := by
  unfold step
  cases P with
  | known p' =>
    obtain rfl : p = p' := hp
    simp [hD.advance?_eq_some_iff.2 he]
  | unknown =>
    have hne : (((OrdMap.ofKeys D.alphabet D.arrivalsOf).get? s).getD ∅).isEmpty = false :=
      OrdSet.isEmpty_eq_false_iff.2 ⟨q, hD.mem_arrivals_iff.2 ⟨p, he⟩⟩
    simp only [hD.arrivals, hne]
    exact ⟨_, rfl⟩
  | among ids =>
    have hne : (OrdSet.ofList (ids.toList.filterMap (D.advance? s))).isEmpty = false := by
      refine OrdSet.isEmpty_eq_false_iff.2 ⟨q, ?_⟩
      rw [OrdSet.mem_ofList, List.mem_filterMap]
      exact ⟨p, hp, hD.advance?_eq_some_iff.2 he⟩
    simp [hne]

theorem Prepared.step_error (hD : D.Prepared) {e : Error} (h : D.step s P = .error e) :
    e = D.rejection s P := by
  unfold step at h
  cases P with
  | known id =>
    dsimp only at h
    cases ha : D.advance? s id with
    | none =>
      rw [ha] at h
      cases h
      rfl
    | some q =>
      rw [ha] at h
      cases h
  | unknown =>
    simp only [hD.arrivals] at h
    split at h
    · cases h
      rfl
    · cases h
  | among ids =>
    dsimp only at h
    split at h
    · cases h
      rfl
    · cases h

/-! ### Walks -/

@[simp] theorem walk_nil (D : Automaton) (P : Position) : D.walk [] P = .ok P := rfl

theorem walk_cons (D : Automaton) (s : Symbol) (w : List Symbol) (P : Position) :
    D.walk (s :: w) P = D.step s P >>= D.walk w := List.foldlM_cons

theorem walk_singleton (D : Automaton) (s : Symbol) (P : Position) :
    D.walk [s] P = D.step s P := by
  rw [walk_cons]
  cases D.step s P <;> rfl

theorem walk_append (D : Automaton) (u v : List Symbol) (P : Position) :
    D.walk (u ++ v) P = D.walk u P >>= D.walk v := List.foldlM_append

/-- A walk ends in the position of all states that a run can end in. -/
theorem Prepared.walk_spec (hD : D.Prepared) (hP : ∃ p, P.Holds p) (h : D.walk w P = .ok Q) :
    (∃ q, Q.Holds q) ∧ ∀ q, Q.Holds q ↔ ∃ p, P.Holds p ∧ D.Run p w q := by
  induction w generalizing P with
  | nil =>
    cases h
    exact ⟨hP, fun q => by simp [hD.run_nil_iff]⟩
  | cons s w ih =>
    rw [walk_cons] at h
    cases hs : D.step s P with
    | error e =>
      rw [hs] at h
      cases h
    | ok P' =>
      rw [hs] at h
      obtain ⟨-, ne, hstep⟩ := hD.step_spec hs
      obtain ⟨ne', hwalk⟩ := ih ne h
      refine ⟨ne', fun q => ?_⟩
      rw [hwalk]
      simp only [hstep, hD.run_cons_iff, hD.advance?_eq_some_iff]
      constructor
      · rintro ⟨r, ⟨p, hp, he⟩, hr⟩
        exact ⟨p, hp, r, he, hr⟩
      · rintro ⟨p, hp, r, he, hr⟩
        exact ⟨r, ⟨p, hp, he⟩, hr⟩

theorem Prepared.reads_of_run (hD : D.Prepared) (hp : P.Holds p) (h : D.Run p w q) :
    D.Reads P w := by
  induction w generalizing p P with
  | nil => exact ⟨P, rfl⟩
  | cons s w ih =>
    obtain ⟨r, he, hr⟩ := hD.epsilonFree.run_cons_iff.1 h
    obtain ⟨P', hP'⟩ := hD.exists_step hp he
    obtain ⟨Q, hQ⟩ := ih (((hD.step_spec hP').2.2 r).2 ⟨p, hp, he⟩) hr
    refine ⟨Q, ?_⟩
    rw [walk_cons, hP']
    exact hQ

theorem walk_known (h : D.walk w (.known p) = .ok Q) : ∃ q, Q = .known q := by
  induction w generalizing p with
  | nil =>
    cases h
    exact ⟨p, rfl⟩
  | cons s w ih =>
    rw [walk_cons] at h
    unfold step at h
    cases hr : D.advance? s p with
    | none =>
      simp only [hr] at h
      cases h
    | some r =>
      simp only [hr] at h
      exact ih h

/-- A word is accepted if the walk from the start state succeeds and ends in an accepting
state. -/
theorem Prepared.accepts_iff_walk (hD : D.Prepared) :
    D.accepts w = .ok true ↔ ∃ Q, D.walk w (.known 0) = .ok Q ∧ D.isAccepting Q = true := by
  have h0 : ∃ p, (Position.known 0).Holds p := ⟨0, rfl⟩
  rw [hD.accepts_iff]
  constructor
  · rintro ⟨p, hp, q, ha, hq⟩
    cases hD.start.symm.trans hp
    obtain ⟨Q, hQ⟩ := hD.reads_of_run (P := .known 0) rfl hq
    obtain ⟨q', rfl⟩ := walk_known hQ
    have : q = q' := ((hD.walk_spec h0 hQ).2 q).2 ⟨0, rfl, hq⟩
    exact ⟨_, hQ, by simpa [isAccepting, ← this] using ha⟩
  · rintro ⟨Q, hQ, ha⟩
    obtain ⟨q, rfl⟩ := walk_known hQ
    obtain ⟨p, hp, hq⟩ := ((hD.walk_spec h0 hQ).2 q).1 rfl
    cases hp
    exact ⟨0, hD.start, q, by simpa [isAccepting] using ha, hq⟩

theorem Reads.of_append (h : D.Reads P (u ++ v)) : D.Reads P u := by
  obtain ⟨Q, h⟩ := h
  rw [walk_append] at h
  cases hu : D.walk u P with
  | error e =>
    rw [hu] at h
    cases h
  | ok R => exact ⟨R, hu⟩

/-- What can be read between other words can be read from anywhere. -/
theorem Prepared.reads_unknown_of_infix (hD : D.Prepared) (hP : ∃ p, P.Holds p)
    (h : D.Reads P (u ++ v ++ w)) : D.Reads .unknown v := by
  obtain ⟨Q, h⟩ := h.of_append
  obtain ⟨⟨q, hq⟩, hwalk⟩ := hD.walk_spec hP h
  obtain ⟨p, -, hrun⟩ := (hwalk q).1 hq
  obtain ⟨r, -, hrun⟩ := run_append_iff.1 hrun
  exact hD.reads_of_run (p := r) trivial hrun

end Automaton

end TreeControl
