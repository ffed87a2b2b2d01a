import TreeControl.Proofs.Attempt
import TreeControl.Proofs.Automaton.Prepared
import TreeControl.Proofs.Demo

/-! # Stepping is subset simulation

A position denotes a set of states (`Denotes`): a known state itself, candidates their set, and an
unknown position all states.  A word leads from a position to the states that a run on the word
reaches from one of them (`LeadsTo`).

Stepping through a word with at least one symbol is exact.  It succeeds if the word leads anywhere,
and then ends with the position of the set that it leads to (`Prepared.walk_ofSet`).  Otherwise it
stops at the first symbol behind which there is no state left (`Prepared.exists_stuck`).  From the
start state it tells what reading the whole word at once tells (`acceptsFrom_walk`).
Together, `walk_simulates`. -/

namespace TreeControl

/-! ### Positions of sets -/

namespace Position

theorem ofSet_eq_known_iff {ids : OrdSet Nat} {q : Nat} :
    ofSet ids = .known q ↔ ∀ x, x ∈ ids ↔ x = q := by
  rw [← OrdSet.toList_eq_singleton_iff]
  unfold ofSet
  split
  · rename_i id h
    rw [h, known.injEq, List.cons.injEq, and_iff_left rfl]
  · rename_i h
    simp only [reduceCtorEq, false_iff]
    exact h q

theorem exists_ofSet_eq_known_iff {ids : OrdSet Nat} :
    (∃ q, ofSet ids = .known q) ↔ ∃! q, q ∈ ids := by
  refine exists_congr fun q => ?_
  rw [ofSet_eq_known_iff]
  constructor
  · intro h
    exact ⟨(h q).2 rfl, fun x hx => (h x).1 hx⟩
  · rintro ⟨hq, h⟩ x
    exact ⟨h x, fun e => e ▸ hq⟩

end Position

namespace Automaton

/-- The states that a position denotes. -/
def Denotes (D : Automaton) : Position → Nat → Prop
  | .known id, q => q = id
  | .unknown, q => q < D.size
  | .among ids, q => q ∈ ids

/-- A word leads from the states of a position to a state. -/
def LeadsTo (D : Automaton) (P : Position) (w : List Symbol) (q : Nat) : Prop :=
  ∃ p, D.Denotes P p ∧ D.Run p w q

variable {A D : Automaton} {p q : Nat} {s : Symbol} {P Q R : Position} {u v w : List Symbol}

theorem denotes_ofSet {ids : OrdSet Nat} : D.Denotes (.ofSet ids) q ↔ q ∈ ids := by
  rw [← Position.holds_ofSet]
  cases h : Position.ofSet ids with
  | known id => exact Iff.rfl
  | unknown => exact absurd h (Position.ofSet_ne_unknown ids)
  | among ids' => exact Iff.rfl

theorem leadsTo_known : D.LeadsTo (.known p) w q ↔ D.Run p w q := by
  simp [LeadsTo, Denotes]

/-- A run that reads something begins in a state, so it does not matter that `Position.Holds` lets
an unknown position stand for every number. -/
theorem Prepared.leadsTo_iff (hD : D.Prepared) (wf : D.WellFormed) (hw : w ≠ []) :
    D.LeadsTo P w q ↔ ∃ p, P.Holds p ∧ D.Run p w q := by
  cases P with
  | known id => exact Iff.rfl
  | among ids => exact Iff.rfl
  | unknown =>
    refine exists_congr fun p => and_congr_left fun hrun => iff_of_true ?_ trivial
    obtain ⟨s, w, rfl⟩ := List.exists_cons_of_ne_nil hw
    obtain ⟨r, he, -⟩ := hD.epsilonFree.run_cons_iff.1 hrun
    exact wf.source_lt _ he

/-! ### Walks that succeed -/

theorem exists_ofSet_of_step (h : D.step s P = .ok Q) : ∃ ids, Q = .ofSet ids := by
  unfold step at h
  cases P with
  | known p =>
    cases hq : D.advance? s p with
    | none => simp [hq] at h
    | some q =>
      simp only [hq, Except.ok.injEq] at h
      exact ⟨.singleton q, h.symm⟩
  | unknown =>
    dsimp only at h
    split at h
    · cases h
    · split at h
      · cases h
      · exact ⟨_, (Except.ok.inj h).symm⟩
  | among ids =>
    dsimp only at h
    split at h
    · cases h
    · exact ⟨_, (Except.ok.inj h).symm⟩

theorem exists_ofSet_of_walk (hw : w ≠ []) (h : D.walk w P = .ok Q) : ∃ ids, Q = .ofSet ids := by
  obtain ⟨u, s, rfl⟩ := (List.eq_nil_or_concat' w).resolve_left hw
  rw [walk_append, bind_eq_ok_iff] at h
  obtain ⟨R, -, hs⟩ := h
  rw [walk_singleton] at hs
  exact exists_ofSet_of_step hs

theorem Prepared.exists_holds_of_walk (hD : D.Prepared) (hw : w ≠ []) (h : D.walk w P = .ok Q) :
    ∃ p, P.Holds p := by
  obtain ⟨s, w, rfl⟩ := List.exists_cons_of_ne_nil hw
  rw [walk_cons, bind_eq_ok_iff] at h
  obtain ⟨R, hs, -⟩ := h
  obtain ⟨-, ⟨q, hq⟩, hstep⟩ := hD.step_spec hs
  obtain ⟨p, hp, -⟩ := (hstep q).1 hq
  exact ⟨p, hp⟩

/-- A walk that succeeds ends with the position of the set that its word leads to. -/
theorem Prepared.walk_ofSet (hD : D.Prepared) (wf : D.WellFormed) (hw : w ≠ [])
    (h : D.walk w P = .ok Q) :
    ∃ ids : OrdSet Nat, Q = .ofSet ids ∧ (∃ q, q ∈ ids) ∧ ∀ q, q ∈ ids ↔ D.LeadsTo P w q := by
  obtain ⟨ids, rfl⟩ := exists_ofSet_of_walk hw h
  obtain ⟨hne, hreach⟩ := hD.walk_spec (hD.exists_holds_of_walk hw h) h
  simp only [Position.holds_ofSet, ← hD.leadsTo_iff wf hw] at hne hreach
  exact ⟨ids, rfl, hne, hreach⟩

theorem Prepared.reads_iff (hD : D.Prepared) (wf : D.WellFormed) (hw : w ≠ []) :
    D.Reads P w ↔ ∃ q, D.LeadsTo P w q := by
  constructor
  · rintro ⟨Q, h⟩
    obtain ⟨ids, -, ⟨q, hq⟩, hreach⟩ := hD.walk_ofSet wf hw h
    exact ⟨q, (hreach q).1 hq⟩
  · rintro ⟨q, hq⟩
    obtain ⟨p, hp, hrun⟩ := (hD.leadsTo_iff wf hw).1 hq
    exact hD.reads_of_run hp hrun

theorem isAccepting_ofSet {ids : OrdSet Nat} :
    D.isAccepting (.ofSet ids) = true ↔ ∃ q ∈ D.accepting, q ∈ ids := by
  have hholds : ∀ q, q ∈ ids ↔ (Position.ofSet ids).Holds q := fun q => Position.holds_ofSet.symm
  simp only [hholds]
  cases h : Position.ofSet ids with
  | known id => simp [isAccepting, Position.Holds]
  | unknown => exact absurd h (Position.ofSet_ne_unknown ids)
  | among ids' =>
    simp only [isAccepting, List.any_eq_true, decide_eq_true_eq, Position.Holds]
    exact exists_congr fun q => and_comm

/-! ### Walks that fail -/

/-- A walk that fails stops at the first symbol behind which its word leads nowhere. -/
theorem Prepared.exists_stuck (hD : D.Prepared) (wf : D.WellFormed) {e : Error}
    (h : D.walk w P = .error e) :
    ∃ u s v R, w = u ++ s :: v ∧ D.walk u P = .ok R ∧
      (∀ x, x <+: u → x ≠ [] → ∃ q, D.LeadsTo P x q) ∧ (¬ ∃ q, D.LeadsTo P (u ++ [s]) q) ∧
      e = D.rejection s R := by
  obtain ⟨u, s, v, R, rfl, hu, hs⟩ := exists_of_foldlM_eq_error h
  have hu : D.walk u P = .ok R := hu
  refine ⟨u, s, v, R, rfl, hu, fun x hx hne => ?_, fun hq => ?_, hD.step_error hs⟩
  · obtain ⟨y, rfl⟩ := hx
    exact (hD.reads_iff wf hne).1 (Reads.of_append ⟨R, hu⟩)
  · obtain ⟨Q, hQ⟩ := (hD.reads_iff wf (by simp)).2 hq
    rw [walk_append, hu] at hQ
    have hQ : D.walk [s] R = .ok Q := hQ
    rw [walk_singleton, hs] at hQ
    cases hQ

/-- Reading a word at once tells what stepping through it from a known state tells. -/
theorem acceptsFrom_walk :
    match D.walk w (.known p) with
    | .ok Q => D.acceptsFrom w p = .ok (D.isAccepting Q)
    | .error (.noTransition _ _) => D.acceptsFrom w p = .ok false
    | .error e => (∃ s, e = .unknownSymbol s) ∧ D.acceptsFrom w p = .error e := by
  induction w generalizing p with
  | nil => rfl
  | cons s w ih =>
    rw [walk_cons, acceptsFrom, step]
    cases hq : D.advance? s p with
    | some q => exact ih
    | none =>
      simp only [bind, Except.bind, rejection]
      by_cases hs : s ∈ D.alphabet
      · simp only [if_pos hs]
      · simp only [if_neg hs]
        exact ⟨⟨s, rfl⟩, trivial⟩

/-! ### All together -/

/-- Stepping through a word with at least one symbol from any position, also one with numbers that
are no states, simulates the set of states that the position denotes.  It succeeds if and only if the
word leads somewhere; the last position denotes exactly the states that the word leads to, is known if
and only if there is one of them, is never unknown, and is accepting if and only if one of them is.
Otherwise it fails at the first symbol behind which the word leads nowhere: there is no transition, or
the symbol is not in the alphabet.  From the start state it agrees with reading the whole word. -/
theorem walk_simulates (hA : A.Built) (hprep : A.prepare.outcome = .ok D) :
    (∀ P w, w ≠ [] →
      ((∃ Q, D.walk w P = .ok Q) ↔ ∃ q, D.LeadsTo P w q) ∧
      (∀ Q, D.walk w P = .ok Q →
        (∀ q, D.Denotes Q q ↔ D.LeadsTo P w q) ∧
        ((∃ q, Q = .known q) ↔ ∃! q, D.LeadsTo P w q) ∧ Q ≠ .unknown ∧
        (D.isAccepting Q = true ↔ ∃ q ∈ D.accepting, D.LeadsTo P w q)) ∧
      ((¬ ∃ q, D.LeadsTo P w q) →
        ∃ u s v R, w = u ++ s :: v ∧ D.walk u P = .ok R ∧
          (∀ x, x <+: u → x ≠ [] → ∃ q, D.LeadsTo P x q) ∧
          (¬ ∃ q, D.LeadsTo P (u ++ [s]) q) ∧
          D.walk w P = .error
            (if s ∈ D.alphabet then .noTransition (D.placeText R) s else .unknownSymbol s))) ∧
    ∃ start, D.start = some start ∧ ∀ w,
      match D.walk w (.known start) with
      | .ok Q => D.accepts w = .ok (D.isAccepting Q)
      | .error (.noTransition _ _) => D.accepts w = .ok false
      | .error e => (∃ s, e = .unknownSymbol s) ∧ D.accepts w = .error e := by
  have hD := (prepare_spec hA.wellFormed hprep).1
  have wf := hA.wellFormed.prepare hprep
  refine ⟨fun P w hw => ⟨hD.reads_iff wf hw, fun Q hQ => ?_, fun hstuck => ?_⟩,
    0, hD.start, fun w => ?_⟩
  · obtain ⟨ids, rfl, -, hreach⟩ := hD.walk_ofSet wf hw hQ
    simp only [← hreach]
    exact ⟨fun q => denotes_ofSet, Position.exists_ofSet_eq_known_iff,
      Position.ofSet_ne_unknown ids, isAccepting_ofSet⟩
  · cases hwalk : D.walk w P with
    | ok Q => exact absurd ((hD.reads_iff wf hw).1 ⟨Q, hwalk⟩) hstuck
    | error e =>
      obtain ⟨u, s, v, R, rfl, hu, hbefore, hnone, rfl⟩ := hD.exists_stuck wf hwalk
      exact ⟨u, s, v, R, rfl, hu, hbefore, hnone, rfl⟩
  · have haccepts : D.accepts w = D.acceptsFrom w 0 := by rw [accepts, hD.start]
    rw [haccepts]
    exact acceptsFrom_walk

/-- In the levels of the demonstration `S` leads from anywhere to the states 1 and 3, and from there
`b` leads to one state only.  The number 9 is no state, and no `S` leaves the state 1. -/
theorem walk_simulates_demo :
    ∃ A D, Demo.levels = .ok A ∧ A.prepare.outcome = .ok D ∧
      (∀ q, D.LeadsTo .unknown [⟨"S"⟩] q ↔ q = 1 ∨ q = 3) ∧
      (∃! q, D.LeadsTo .unknown [⟨"S"⟩, ⟨"b"⟩] q) ∧
      ¬ ∃ q, D.LeadsTo (.among (.ofList [1, 9])) [⟨"S"⟩] q := by
  have hA := Demo.levels_eq
  have hD := Demo.prepare_levels_eq
  have simulates := (walk_simulates (Demo.built_levels hA) hD).1
  refine ⟨_, _, hA, hD, fun q => ?_, ?_, fun h => ?_⟩
  · obtain ⟨-, ends, -⟩ := simulates .unknown [⟨"S"⟩] (by simp)
    rw [← (ends (.among (.ofList [1, 3])) (by decide +kernel)).1]
    show q ∈ OrdSet.ofList [1, 3] ↔ _
    simp
  · obtain ⟨-, ends, -⟩ := simulates .unknown [⟨"S"⟩, ⟨"b"⟩] (by simp)
    exact (ends (.known 4) (by decide +kernel)).2.1.1 ⟨4, rfl⟩
  · obtain ⟨Q, hQ⟩ := (simulates (.among (.ofList [1, 9])) [⟨"S"⟩] (by simp)).1.2 h
    have stuck : ((Demo.levels.toOption.getD {}).prepare.outcome.toOption.getD {}).walk [⟨"S"⟩]
        (.among (.ofList [1, 9])) = .error (.noTransition "states \x7b#9_q1\x7d" ⟨"S"⟩) := by
      decide +kernel
    rw [stuck] at hQ
    cases hQ

end Automaton

end TreeControl
