import Mathlib.Data.List.Sublists
import Mathlib.Logic.Relation
import TreeControl.Order.OrdSet
import TreeControl.Search

/-! # What a search finds

`explore` with a round for everything that can be found (`Enough`) lists exactly what is reachable from the
starting points (`mem_explore_iff`).  The item sets of a grammar, the closed sets of items, the
silent moves of an automaton and the reachable sets of its states are all found this way. -/

namespace TreeControl

variable {α : Type} [DecidableEq α]

/-- Enough rounds for a search: the starting points are distinct, and there is a round for every
element of a range that the search cannot leave. -/
def Enough (next : α → List α) (rounds : Nat) (queue : List α) : Prop :=
  queue.Nodup ∧ ∃ range : List α, (∀ y ∈ queue, y ∈ range) ∧
    (∀ y ∈ range, ∀ z ∈ next y, z ∈ range) ∧ range.length ≤ rounds

variable {next : α → List α} {rounds : Nat} {queue : List α} {x : α}

theorem mem_explore_iff (henough : Enough next rounds queue) :
    x ∈ explore next rounds [] queue ↔
      ∃ y ∈ queue, Relation.ReflTransGen (fun a b => b ∈ next a) y x := by
  constructor
  · refine of_mem_explore (P := fun x => ∃ y ∈ queue, Relation.ReflTransGen _ y x) ?_ ?_ x
    · rintro z ⟨y, hy, h⟩ z' hz'
      exact ⟨y, hy, h.tail hz'⟩
    · intro y hy
      exact ⟨y, by simpa using hy, .refl⟩
  · rintro ⟨y, hy, h⟩
    obtain ⟨nodup, range, start, pass, enough⟩ := henough
    have all : ∀ z ∈ explore next rounds [] queue, z ∈ range :=
      of_mem_explore pass (by simpa using start)
    have closed := explore_closed (by simpa using nodup) all (by simpa using enough) (by simp)
    induction h with
    | refl => exact mem_explore_of_mem (by simpa using hy)
    | tail _ hstep ih => exact closed _ ih _ hstep

/-- Only what is known matters, not in which order or how often. -/
theorem novel_congr {known known' xs : List α} (h : ∀ y, y ∈ known ↔ y ∈ known') :
    novel known xs = novel known' xs := by
  induction xs generalizing known known' with
  | nil => rfl
  | cons x xs ih =>
    have hcons : ∀ y, y ∈ x :: known ↔ y ∈ x :: known' := fun y => by
      rw [List.mem_cons, List.mem_cons, h]
    simp only [novel, h, ih h, ih hcons]

/-- What is new can be met one by one. -/
theorem append_novel_cons (known : List α) (x : α) (xs : List α) :
    known ++ novel known (x :: xs) =
      known ++ novel known [x] ++ novel (known ++ novel known [x]) xs := by
  by_cases hx : x ∈ known
  · simp only [novel, if_pos hx, List.append_nil]
  · have hcons : ∀ y, y ∈ x :: known ↔ y ∈ known ++ [x] := fun y => by simp [or_comm]
    simp only [novel, if_neg hx, List.append_assoc, List.singleton_append, novel_congr hcons]

theorem explore_prefix (next : α → List α) (rounds : Nat) (done queue : List α) :
    ∃ more, explore next rounds done queue = done ++ queue ++ more := by
  induction rounds generalizing done queue with
  | zero => exact ⟨[], by simp [explore]⟩
  | succ rounds ih =>
    cases queue with
    | nil => exact ⟨[], by simp [explore]⟩
    | cons x queue =>
      obtain ⟨more, h⟩ := ih (done ++ [x]) (queue ++ novel (done ++ x :: queue) (next x))
      exact ⟨novel (done ++ x :: queue) (next x) ++ more, by rw [explore, h]; simp⟩

theorem explore_getElem?_zero (next : α → List α) (rounds : Nat) (x : α) :
    (explore next rounds [] [x])[0]? = some x := by
  obtain ⟨more, h⟩ := explore_prefix next rounds [] [x]
  rw [h]
  rfl

theorem OrdSet.mem_map_sublists [Ord α] [Std.TransOrd α] [Std.LawfulEqOrd α] {s : OrdSet α}
    {l : List α} (h : ∀ x ∈ s, x ∈ l) : s ∈ l.sublists.map OrdSet.ofList := by
  refine List.mem_map.2 ⟨l.filter (· ∈ s), List.mem_sublists.2 List.filter_sublist, ?_⟩
  refine OrdSet.ext fun x => ?_
  rw [OrdSet.mem_ofList, List.mem_filter, decide_eq_true_eq]
  exact ⟨fun hx => hx.2, fun hx => ⟨h x hx, hx⟩⟩

end TreeControl
