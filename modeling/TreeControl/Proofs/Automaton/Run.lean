import TreeControl.Automaton.Preparation
import TreeControl.Proofs.Search

/-! # Runs of an automaton

`A.Run p w q` says that the automaton can go from `p` to `q` while it reads the word `w`, following
silent moves as it likes; `A.Accepts w` says that such a run leads from the start state to an
accepting state.  This is the meaning of an automaton before it is prepared.

The closure of a state is what it reaches without reading (`mem_closure_iff`).  With it the
transitions and the accepting states after `dropEpsilon` are described exactly, and the words stay
the same (`accepts_dropEpsilon_iff`). -/

namespace TreeControl.Automaton

/-- A run from one state to another that reads a word; silent moves read nothing. -/
inductive Run (A : Automaton) : Nat → List Symbol → Nat → Prop
  | nil (p : Nat) : Run A p [] p
  | silent {p r q : Nat} {w : List Symbol} :
      ⟨p, .blank, r⟩ ∈ A.edges → Run A r w q → Run A p w q
  | read {p r q : Nat} {s : Symbol} {w : List Symbol} :
      s ≠ .blank → ⟨p, s, r⟩ ∈ A.edges → Run A r w q → Run A p (s :: w) q

/-- The words of an automaton: a run leads from the start state to an accepting state. -/
def Accepts (A : Automaton) (w : List Symbol) : Prop :=
  ∃ p, A.start = some p ∧ ∃ q ∈ A.accepting, A.Run p w q

/-- No move reads nothing. -/
def EpsilonFree (A : Automaton) : Prop := ∀ e ∈ A.edges, e.label ≠ .blank

/-- What the construction of an automaton keeps: transitions join states and are labelled with the
alphabet or the blank symbol, and the start state is a state. -/
structure WellFormed (A : Automaton) : Prop where
  source_lt : ∀ e ∈ A.edges, e.source < A.size
  target_lt : ∀ e ∈ A.edges, e.target < A.size
  label_mem : ∀ e ∈ A.edges, e.label = .blank ∨ e.label ∈ A.alphabet
  start_lt : ∀ p, A.start = some p → p < A.size

variable {A : Automaton} {p q r : Nat} {s : Symbol} {u v w : List Symbol}

/-! ### Composition of runs -/

theorem Run.trans (hu : A.Run p u r) (hv : A.Run r v q) : A.Run p (u ++ v) q := by
  induction hu with
  | nil => exact hv
  | silent he _ ih => exact .silent he (ih hv)
  | read hs he _ ih => exact .read hs he (ih hv)

theorem Run.mono {B : Automaton} (hAB : ∀ e ∈ A.edges, e ∈ B.edges) (h : A.Run p w q) :
    B.Run p w q := by
  induction h with
  | nil => exact .nil _
  | silent he _ ih => exact .silent (hAB _ he) ih
  | read hs he _ ih => exact .read hs (hAB _ he) ih

theorem run_cons_iff :
    A.Run p (s :: w) q ↔
      s ≠ .blank ∧ ∃ r r', A.Run p [] r ∧ ⟨r, s, r'⟩ ∈ A.edges ∧ A.Run r' w q := by
  constructor
  · intro h
    generalize hu : s :: w = u at h
    induction h with
    | nil => cases hu
    | silent he _ ih =>
      obtain ⟨hs, r, r', hr, he', hq⟩ := ih hu
      exact ⟨hs, r, r', .silent he hr, he', hq⟩
    | read hs he hq _ =>
      cases hu
      exact ⟨hs, _, _, .nil _, he, hq⟩
  · rintro ⟨hs, r, r', hr, he, hq⟩
    exact hr.trans (.read hs he hq)

theorem run_append_iff : A.Run p (u ++ v) q ↔ ∃ r, A.Run p u r ∧ A.Run r v q := by
  constructor
  · intro h
    induction u generalizing p with
    | nil => exact ⟨p, .nil p, h⟩
    | cons s u ih =>
      obtain ⟨hs, r, r', hr, he, hq⟩ := run_cons_iff.1 h
      obtain ⟨r'', hr'', hq⟩ := ih hq
      exact ⟨r'', run_cons_iff.2 ⟨hs, r, r', hr, he, hr''⟩, hq⟩
  · rintro ⟨r, hu, hv⟩
    exact hu.trans hv

theorem EpsilonFree.run_nil_iff (hA : A.EpsilonFree) : A.Run p [] q ↔ q = p := by
  constructor
  · intro h
    cases h with
    | nil => rfl
    | silent he _ => exact absurd rfl (hA _ he)
  · rintro rfl
    exact .nil _

theorem EpsilonFree.run_cons_iff (hA : A.EpsilonFree) :
    A.Run p (s :: w) q ↔ ∃ r, ⟨p, s, r⟩ ∈ A.edges ∧ A.Run r w q := by
  rw [Automaton.run_cons_iff]
  constructor
  · rintro ⟨-, r, r', hr, he, hq⟩
    rw [hA.run_nil_iff] at hr
    subst hr
    exact ⟨r', he, hq⟩
  · rintro ⟨r, he, hq⟩
    exact ⟨hA _ he, p, r, .nil p, he, hq⟩

theorem WellFormed.run_lt (hA : A.WellFormed) (h : A.Run p w q) (hp : p < A.size) :
    q < A.size := by
  induction h with
  | nil => exact hp
  | silent he _ ih => exact ih (hA.target_lt _ he)
  | read _ he _ ih => exact ih (hA.target_lt _ he)

/-! ### Silent moves -/

theorem run_nil_iff_reflTransGen :
    A.Run p [] q ↔
      Relation.ReflTransGen (fun a b => b ∈ (A.targets a .blank).toList) p q := by
  constructor
  · intro h
    generalize hu : ([] : List Symbol) = u at h
    induction h with
    | nil => exact .refl
    | silent he _ ih => exact .head (mem_targets.2 he) (ih hu)
    | read => cases hu
  · intro h
    induction h using Relation.ReflTransGen.head_induction_on with
    | refl => exact .nil _
    | head he _ ih => exact .silent (mem_targets.1 he) ih

theorem enough_closure (A : Automaton) (p : Nat) :
    Enough (fun a => (A.targets a .blank).toList) (A.edges.size + 1) [p] := by
  refine ⟨List.nodup_singleton p, p :: A.edges.toList.map Edge.target, by simp, ?_,
    by simp [OrdSet.size]⟩
  intro a _ b hb
  exact List.mem_cons_of_mem p (List.mem_map.2 ⟨_, mem_targets.1 hb, rfl⟩)

theorem mem_closure_iff : q ∈ A.closure p ↔ A.Run p [] q := by
  rw [closure, OrdSet.mem_ofList, run_nil_iff_reflTransGen, mem_explore_iff (A.enough_closure p)]
  simp

/-! ### After the silent moves are dropped -/

theorem mem_edges_dropEpsilon :
    ⟨p, s, q⟩ ∈ A.dropEpsilon.value.edges ↔
      p < A.size ∧ s ≠ .blank ∧ ∃ r, A.Run p [] r ∧ ⟨r, s, q⟩ ∈ A.edges := by
  show _ ∈ OrdSet.ofList ((List.range A.size).flatMap A.edgesThrough) ↔ _
  simp only [OrdSet.mem_ofList, List.mem_flatMap, List.mem_range, edgesThrough, List.mem_map,
    List.mem_filter, Bool.and_eq_true, decide_eq_true_eq]
  constructor
  · rintro ⟨p', hp', e, ⟨he, hs, hr⟩, h⟩
    cases h
    refine ⟨hp', fun hb => ?_, e.source, mem_closure_iff.1 hr, he⟩
    have : e.isEpsilon = true := Symbol.isBlank_iff.2 hb
    simp [this] at hs
  · rintro ⟨hp, hs, r, hr, he⟩
    refine ⟨p, hp, ⟨r, s, q⟩, ⟨he, ?_, mem_closure_iff.2 hr⟩, rfl⟩
    simpa [Edge.isEpsilon, ← Bool.not_eq_true] using hs

theorem mem_accepting_dropEpsilon :
    p ∈ A.dropEpsilon.value.accepting ↔ p < A.size ∧ ∃ r ∈ A.accepting, A.Run p [] r := by
  show p ∈ OrdSet.ofList ((List.range A.size).filter
    fun p => (A.closure p).toList.any (· ∈ A.accepting)) ↔ _
  simp only [OrdSet.mem_ofList, List.mem_filter, List.mem_range, List.any_eq_true,
    decide_eq_true_eq]
  constructor
  · rintro ⟨hp, r, hr, ha⟩
    exact ⟨hp, r, ha, mem_closure_iff.1 hr⟩
  · rintro ⟨hp, r, ha, hr⟩
    exact ⟨hp, r, mem_closure_iff.2 hr, ha⟩

theorem epsilonFree_dropEpsilon (A : Automaton) : A.dropEpsilon.value.EpsilonFree :=
  fun ⟨_, _, _⟩ he => (mem_edges_dropEpsilon.1 he).2.1

theorem WellFormed.dropEpsilon (hA : A.WellFormed) : A.dropEpsilon.value.WellFormed where
  source_lt := fun ⟨_, _, _⟩ he => (mem_edges_dropEpsilon.1 he).1
  target_lt := by
    rintro ⟨p, s, q⟩ he
    obtain ⟨-, -, r, -, he⟩ := mem_edges_dropEpsilon.1 he
    exact hA.target_lt ⟨r, s, q⟩ he
  label_mem := by
    rintro ⟨p, s, q⟩ he
    obtain ⟨-, -, r, -, he⟩ := mem_edges_dropEpsilon.1 he
    exact hA.label_mem ⟨r, s, q⟩ he
  start_lt := hA.start_lt

/-- Dropping the silent moves keeps what a state reaches with a word, up to silent moves at the
end. -/
theorem exists_run_dropEpsilon_iff (hA : A.WellFormed) (hp : p < A.size) {P : Nat → Prop} :
    (∃ q, A.dropEpsilon.value.Run p w q ∧ ∃ r, A.Run q [] r ∧ P r) ↔ ∃ q, A.Run p w q ∧ P q := by
  have free := epsilonFree_dropEpsilon A
  induction w generalizing p with
  | nil => simp only [free.run_nil_iff, exists_eq_left]
  | cons s w ih =>
    constructor
    · rintro ⟨q, hq, h⟩
      obtain ⟨r, he, hr⟩ := free.run_cons_iff.1 hq
      obtain ⟨-, hs, r', hr', he'⟩ := mem_edges_dropEpsilon.1 he
      obtain ⟨q', hq', h'⟩ := (ih (hA.target_lt _ he')).1 ⟨q, hr, h⟩
      exact ⟨q', run_cons_iff.2 ⟨hs, r', r, hr', he', hq'⟩, h'⟩
    · rintro ⟨q, hq, h⟩
      obtain ⟨hs, r', r, hr', he', hr⟩ := run_cons_iff.1 hq
      obtain ⟨q', hq', h'⟩ := (ih (hA.target_lt _ he')).2 ⟨q, hr, h⟩
      have he := mem_edges_dropEpsilon.2 ⟨hp, hs, r', hr', he'⟩
      exact ⟨q', free.run_cons_iff.2 ⟨r, he, hq'⟩, h'⟩

/-- Dropping the silent moves keeps the words. -/
theorem accepts_dropEpsilon_iff (hA : A.WellFormed) :
    A.dropEpsilon.value.Accepts w ↔ A.Accepts w := by
  refine exists_congr fun p => and_congr_right fun hp => ?_
  have hlt := hA.start_lt p hp
  have key := exists_run_dropEpsilon_iff hA hlt (w := w) (P := (· ∈ A.accepting))
  constructor
  · rintro ⟨q, ha, hq⟩
    obtain ⟨-, r, hr, hr'⟩ := mem_accepting_dropEpsilon.1 ha
    obtain ⟨q', hq', ha'⟩ := key.1 ⟨q, hq, r, hr', hr⟩
    exact ⟨q', ha', hq'⟩
  · rintro ⟨q, ha, hq⟩
    obtain ⟨q', hq', r, hr, hr'⟩ := key.2 ⟨q, hq, ha⟩
    have hq'lt := hA.dropEpsilon.run_lt hq' hlt
    exact ⟨q', mem_accepting_dropEpsilon.2 ⟨hq'lt, r, hr', hr⟩, hq'⟩

end TreeControl.Automaton
