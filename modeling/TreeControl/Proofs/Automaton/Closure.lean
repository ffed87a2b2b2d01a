import TreeControl.Proofs.Automaton.Coherence

/-! # Silent moves

The closure of a state holds what finitely many silent moves lead to, whether or not they run in
circles (`mem_closure_iff_silent`).  Only transitions lead to other states, so a number that belongs to
no state has itself as its closure (`WellFormed.lt_of_silent`).

When the silent moves are dropped, each state takes over what the states of its closure had before:
their other transitions and whether one of them accepts.  It never takes over what a state of the
closure has itself only just been given, so the order of the states does not matter
(`Reachable.closure_exact`). -/

namespace TreeControl.Automaton

/-- One move that reads nothing. -/
def Silent (A : Automaton) (p q : Nat) : Prop := ⟨p, .blank, q⟩ ∈ A.edges

variable {A : Automaton} {p q r : Nat} {s : Symbol}

theorem mem_closure_iff_silent : q ∈ A.closure p ↔ Relation.ReflTransGen A.Silent p q := by
  have hmoves : (fun a b => b ∈ (A.targets a .blank).toList) = A.Silent :=
    funext fun a => funext fun b => propext mem_targets
  rw [mem_closure_iff, run_nil_iff_reflTransGen, hmoves]

theorem WellFormed.lt_of_silent (hA : A.WellFormed) (h : Relation.ReflTransGen A.Silent p q)
    (hq : q < A.size) : p < A.size := by
  cases h using Relation.ReflTransGen.head_induction_on with
  | refl => exact hq
  | head hmove _ => exact hA.source_lt _ hmove

/-- What a state can read after the silent moves are dropped is what its closure could read. -/
theorem WellFormed.mem_targets_dropEpsilon (hA : A.WellFormed) (hs : s ≠ .blank) :
    q ∈ A.dropEpsilon.value.targets p s ↔ ∃ r ∈ A.closure p, q ∈ A.targets r s := by
  simp only [mem_targets, mem_edges_dropEpsilon, mem_closure_iff]
  constructor
  · rintro ⟨-, -, r, hr, he⟩
    exact ⟨r, hr, he⟩
  · rintro ⟨r, hr, he⟩
    have hsilent := mem_closure_iff_silent.1 (mem_closure_iff.2 hr)
    exact ⟨hA.lt_of_silent hsilent (hA.source_lt _ he), hs, r, hr, he⟩

theorem Coherent.mem_accepting_dropEpsilon_iff (hA : A.Coherent) :
    p ∈ A.dropEpsilon.value.accepting ↔ ∃ r ∈ A.closure p, r ∈ A.accepting := by
  simp only [mem_accepting_dropEpsilon, mem_closure_iff]
  constructor
  · rintro ⟨-, r, ha, hr⟩
    exact ⟨r, hr, ha⟩
  · rintro ⟨r, hr, ha⟩
    have hsilent := mem_closure_iff_silent.1 (mem_closure_iff.2 hr)
    exact ⟨hA.lt_of_silent hsilent (hA.accepting_lt r ha), r, ha, hr⟩

/-- Whatever operations were called on an automaton: the closure of any number holds exactly what
silent moves lead to from there.  After the silent moves are dropped, a state reads a symbol towards
exactly the states that some member of its closure read it towards before, accepts exactly if some
member of its closure did, and has no silent moves; names, start state and alphabet stay. -/
theorem Reachable.closure_exact (h : A.Reachable) :
    (∀ p q, q ∈ A.closure p ↔ Relation.ReflTransGen A.Silent p q) ∧
    (∀ p s, s ≠ .blank → ∀ q,
      q ∈ A.dropEpsilon.value.targets p s ↔ ∃ r ∈ A.closure p, q ∈ A.targets r s) ∧
    (∀ p, p ∈ A.dropEpsilon.value.accepting ↔ ∃ r ∈ A.closure p, r ∈ A.accepting) ∧
    (∀ p q, ¬ A.dropEpsilon.value.Silent p q) ∧
    A.dropEpsilon.value.names = A.names ∧ A.dropEpsilon.value.start = A.start ∧
    A.dropEpsilon.value.alphabet = A.alphabet := by
  have hA := h.coherent
  refine ⟨fun p q => mem_closure_iff_silent, fun p s hs q => ?_, fun p => ?_, fun p q he => ?_,
    rfl, rfl, rfl⟩
  · exact hA.toWellFormed.mem_targets_dropEpsilon hs
  · exact hA.mem_accepting_dropEpsilon_iff
  · exact epsilonFree_dropEpsilon A _ he rfl

/-- Silent moves run in a circle through `s`, `t` and `u` and leave it towards `v`, which accepts and
reads `a` on; the number 9 belongs to no state. -/
theorem closure_exact_circle :
    ∃ A : Automaton, A.Reachable ∧ A.names = ["s", "t", "u", "v"] ∧
      (A.closure 1).toList = [0, 1, 2, 3] ∧ (A.closure 3).toList = [3] ∧
      (A.closure 9).toList = [9] ∧
      (A.dropEpsilon.value.targets 1 ⟨"a"⟩).toList = [0, 2] ∧
      A.dropEpsilon.value.accepting.toList = [0, 1, 2, 3] ∧
      (∀ p q, q ∈ A.closure p ↔ Relation.ReflTransGen A.Silent p q) ∧
      (∀ p s, s ≠ .blank → ∀ q,
        q ∈ A.dropEpsilon.value.targets p s ↔ ∃ r ∈ A.closure p, q ∈ A.targets r s) ∧
      (∀ p, p ∈ A.dropEpsilon.value.accepting ↔ ∃ r ∈ A.closure p, r ∈ A.accepting) ∧
      A.dropEpsilon.value.names = A.names := by
  have h : Reachable ([.addState "s", .addState "t", .addState "u", .addState "v",
      .addSymbol ⟨"a"⟩, .addEdge "s" .blank "t", .addEdge "t" .blank "u", .addEdge "u" .blank "s",
      .addEdge "t" .blank "v", .addEdge "s" ⟨"a"⟩ "u", .addEdge "v" ⟨"a"⟩ "s",
      .setAccepting "v"].foldl after {}) :=
    Reachable.empty.calls (by simp)
  obtain ⟨closure, targets, accepting, -, names, -, -⟩ := h.closure_exact
  exact ⟨_, h, by decide +kernel, by decide +kernel, by decide +kernel, by decide +kernel,
    by decide +kernel, by decide +kernel, closure, targets, accepting, names⟩

end TreeControl.Automaton
