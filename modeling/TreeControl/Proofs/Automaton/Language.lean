import TreeControl.Proofs.Automaton.Prepared
import TreeControl.Proofs.Demo

/-! # Preparation keeps the language

A prepared automaton answers for every word whether the automaton that it was made from has an
accepting run.  While it reads the alphabet it always answers (`Prepared.exists_acceptsFrom`).  At
the first symbol outside the alphabet it reports that symbol, unless the word in front of it has led
nowhere and the answer was given before (`Prepared.acceptsFrom_foreign`).

Whether a word leads anywhere is the same before and after the preparation
(`exists_run_prepare_iff`), and so is the name of the start state (`stateName?_powerset_zero`). -/

namespace TreeControl.Automaton

variable {A D : Automaton} {p q i j start : Nat} {s : Symbol} {u v w : List Symbol}
  {S T : OrdSet Nat}

/-! ### The name of the start state -/

/-- The first set has no names before it, so its name is not primed. -/
theorem stateName?_powerset_zero (A : Automaton) (start : Nat) :
    (A.powerset start).stateName? 0 = some (A.label start) := by
  have hname := getElem?_nameSets (A := A) (A.subsets_getElem?_zero start)
  rw [setName_singleton] at hname
  exact hname

/-! ### Words that lead somewhere -/

theorem exists_mem_of_run_powerset (hA : A.EpsilonFree) (hS : (A.subsets start)[i]? = some S)
    (hne : ∃ p, p ∈ S) (h : (A.powerset start).Run i w j) :
    ∃ T, (A.subsets start)[j]? = some T ∧ ∃ q, q ∈ T := by
  have free : (A.powerset start).EpsilonFree := hA.powerset
  induction w generalizing i S with
  | nil =>
    rw [free.run_nil_iff] at h
    subst h
    exact ⟨S, hS, hne⟩
  | cons s w ih =>
    obtain ⟨k, he, h⟩ := free.run_cons_iff.1 h
    obtain ⟨S', -, hs, hk⟩ := mem_edges_powerset.1 he
    obtain ⟨p, hp, q, he⟩ := mem_labelsFromSet.1 hs
    exact ih hk ⟨q, mem_image.2 ⟨p, hp, he⟩⟩ h

theorem exists_run_powerset_zero_iff (hA : A.EpsilonFree) :
    (∃ j, (A.powerset start).Run 0 w j) ↔ ∃ q, A.Run start w q := by
  have hfirst := subsets_getElem?_zero A start
  have key := exists_run_powerset_iff hA hfirst (w := w) (P := fun _ => True)
  constructor
  · rintro ⟨j, hj⟩
    obtain ⟨T, hT, q, hq⟩ :=
      exists_mem_of_run_powerset hA hfirst ⟨start, OrdSet.mem_singleton.2 rfl⟩ hj
    obtain ⟨p, hp, q', hq', -⟩ := key.1 ⟨j, T, hj, hT, q, hq, trivial⟩
    rw [OrdSet.mem_singleton.1 hp] at hq'
    exact ⟨q', hq'⟩
  · rintro ⟨q, hq⟩
    obtain ⟨j, -, hj, -, -⟩ := key.2 ⟨start, OrdSet.mem_singleton.2 rfl, q, hq, trivial⟩
    exact ⟨j, hj⟩

theorem exists_run_prepare_iff (hA : A.WellFormed) (hstart : A.start = some start) :
    (∃ j, (A.dropEpsilon.value.powerset start).collectArrivals.Run 0 w j) ↔
      ∃ q, A.Run start w q := by
  have same : ∀ j, (A.dropEpsilon.value.powerset start).collectArrivals.Run 0 w j ↔
      (A.dropEpsilon.value.powerset start).Run 0 w j :=
    fun j => ⟨Run.mono fun _ he => he, Run.mono fun _ he => he⟩
  have drop := exists_run_dropEpsilon_iff hA (hA.start_lt start hstart) (w := w)
    (P := fun _ => True)
  rw [exists_congr same, exists_run_powerset_zero_iff (epsilonFree_dropEpsilon A)]
  constructor
  · rintro ⟨q, hq⟩
    obtain ⟨q', hq', -⟩ := drop.1 ⟨q, hq, q, .nil q, trivial⟩
    exact ⟨q', hq'⟩
  · rintro ⟨q, hq⟩
    obtain ⟨q', hq', -⟩ := drop.2 ⟨q, hq, trivial⟩
    exact ⟨q', hq'⟩

/-! ### Answers -/

theorem exists_acceptsFrom (hw : ∀ x ∈ w, x ∈ D.alphabet) : ∃ b, D.acceptsFrom w p = .ok b := by
  induction w generalizing p with
  | nil => exact ⟨_, rfl⟩
  | cons s w ih =>
    obtain ⟨hs, hw⟩ := List.forall_mem_cons.1 hw
    rw [acceptsFrom]
    cases D.advance? s p with
    | none => exact ⟨false, by simp [hs]⟩
    | some r => exact ih hw

/-- A symbol outside the alphabet is an error if the word in front of it leads to it, and otherwise
the word is refused before. -/
theorem Prepared.acceptsFrom_foreign (hD : D.Prepared) (hu : ∀ x ∈ u, x ∈ D.alphabet)
    (hs : ¬ s ∈ D.alphabet) :
    ((∃ q, D.Run p u q) → D.acceptsFrom (u ++ s :: v) p = .error (.unknownSymbol s)) ∧
      ((¬ ∃ q, D.Run p u q) → D.acceptsFrom (u ++ s :: v) p = .ok false) := by
  induction u generalizing p with
  | nil =>
    have hstuck : D.advance? s p = none := by
      refine Option.eq_none_iff_forall_ne_some.2 fun q hq => ?_
      exact hs (hD.label_mem _ (hD.advance?_eq_some_iff.1 hq))
    refine ⟨fun _ => ?_, fun h => absurd ⟨p, .nil p⟩ h⟩
    rw [List.nil_append, acceptsFrom, hstuck]
    exact if_neg hs
  | cons x u ih =>
    obtain ⟨hx, hu⟩ := List.forall_mem_cons.1 hu
    rw [List.cons_append, acceptsFrom]
    cases hr : D.advance? x p with
    | none =>
      have stuck : ¬ ∃ q, D.Run p (x :: u) q := by
        rintro ⟨q, hq⟩
        obtain ⟨r, hr', -⟩ := hD.run_cons_iff.1 hq
        rw [hr] at hr'
        cases hr'
      exact ⟨fun h => absurd h stuck, fun _ => if_pos hx⟩
    | some r =>
      have along : (∃ q, D.Run p (x :: u) q) ↔ ∃ q, D.Run r u q := by
        simp [hD.run_cons_iff, hr]
      rw [along]
      exact ih hu

theorem EpsilonFree.hasEpsilon_eq_false (hA : A.EpsilonFree) : A.hasEpsilon = false := by
  unfold hasEpsilon
  rw [List.any_eq_false]
  intro e he
  rw [Edge.isEpsilon, Symbol.isBlank_iff]
  exact hA e he

theorem Prepared.size_targets_le (hD : D.Prepared) (p : Nat) (s : Symbol) :
    (D.targets p s).size ≤ 1 := by
  have hsub : (D.targets p s).toList ⊆ (D.advance? s p).toList := by
    intro q hq
    rw [Option.mem_toList]
    exact hD.advance?_eq_some_iff.2 (mem_targets.1 hq)
  calc (D.targets p s).size
    _ ≤ (D.advance? s p).toList.length := (OrdSet.nodup_toList _).length_le_of_subset hsub
    _ ≤ 1 := by cases D.advance? s p <;> simp

/-- Preparation succeeds if there is a start state, and keeps the language.  The prepared automaton
has no silent moves and at most one transition for a state and a symbol, and keeps the alphabet and
the name of the start state.  It accepts a word of the alphabet if and only if the automaton that it
was made from has an accepting run; and of the symbols outside the alphabet it reports the first one
that some run leads to. -/
theorem prepare_language (hA : A.Built) (hstart : A.start = some start) :
    ∃ D, A.prepare.outcome = .ok D ∧ D.hasEpsilon = false ∧
      (∀ p s, (D.targets p s).size ≤ 1) ∧ D.alphabet = A.alphabet ∧
      (∃ q name, D.start = some q ∧ D.stateName? q = some name ∧
        A.stateName? start = some name) ∧
      (∀ w, (∀ x ∈ w, x ∈ A.alphabet) → ∃ b, D.accepts w = .ok b ∧ (b = true ↔ A.Accepts w)) ∧
      ∀ u s v, (∀ x ∈ u, x ∈ A.alphabet) → ¬ s ∈ A.alphabet →
        ((∃ q, A.Run start u q) → D.accepts (u ++ s :: v) = .error (.unknownSymbol s)) ∧
          ((¬ ∃ q, A.Run start u q) → D.accepts (u ++ s :: v) = .ok false) := by
  have wf := hA.wellFormed
  have hprep : A.prepare.outcome =
      .ok (A.dropEpsilon.value.powerset start).collectArrivals :=
    prepare_outcome_iff.2 ⟨start, hstart, rfl⟩
  obtain ⟨hD, hlang⟩ := prepare_spec wf hprep
  have hname : A.stateName? start = some (A.label start) := by
    unfold label stateName?
    rw [List.getElem?_eq_getElem (wf.start_lt start hstart)]
    rfl
  refine ⟨_, hprep, hD.epsilonFree.hasEpsilon_eq_false, hD.size_targets_le, rfl,
    ⟨0, A.label start, rfl, stateName?_powerset_zero _ start, hname⟩, fun w hw => ?_,
    fun u s v hu hs => ?_⟩
  · obtain ⟨b, hb⟩ := exists_acceptsFrom (D := (A.dropEpsilon.value.powerset start).collectArrivals)
      (p := 0) hw
    have haccepts : (A.dropEpsilon.value.powerset start).collectArrivals.accepts w = .ok b := hb
    refine ⟨b, haccepts, ?_⟩
    rw [← hlang, ← hD.accepts_iff, haccepts, Except.ok.injEq]
  · rw [← exists_run_prepare_iff wf hstart]
    exact hD.acceptsFrom_foreign hu hs

theorem prepare_language_joined :
    ∃ A B, Demo.levels = .ok A ∧ A.join A = .ok B ∧ B.hasEpsilon = true ∧ B.start = some 0 ∧
      ∃ D, B.prepare.outcome = .ok D ∧ D.hasEpsilon = false ∧
        (∀ p s, (D.targets p s).size ≤ 1) ∧ D.alphabet = B.alphabet ∧
        (∃ q name, D.start = some q ∧ D.stateName? q = some name ∧ B.stateName? 0 = some name) ∧
        (∀ w, (∀ x ∈ w, x ∈ B.alphabet) →
          ∃ b, D.accepts w = .ok b ∧ (b = true ↔ B.Accepts w)) ∧
        ∀ u s v, (∀ x ∈ u, x ∈ B.alphabet) → ¬ s ∈ B.alphabet →
          ((∃ q, B.Run 0 u q) → D.accepts (u ++ s :: v) = .error (.unknownSymbol s)) ∧
            ((¬ ∃ q, B.Run 0 u q) → D.accepts (u ++ s :: v) = .ok false) := by
  have hA := Demo.levels_eq
  have hjoin : ((Demo.levels.toOption.getD {}).join (Demo.levels.toOption.getD {})).toOption.map
      (fun B => (B.hasEpsilon, B.start)) = some (true, some 0) := by decide +kernel
  obtain ⟨B, hB, hfacts⟩ := Option.map_eq_some_iff.1 hjoin
  rw [toOption_eq_some_iff] at hB
  obtain ⟨heps, hstart⟩ := Prod.mk.inj hfacts
  have built : B.Built := .join (Demo.built_levels hA) (Demo.built_levels hA) hB
  exact ⟨_, B, hA, hB, heps, hstart, prepare_language built hstart⟩

end TreeControl.Automaton
