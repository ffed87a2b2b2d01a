/-! # Sorting names

Names that may repeat are put in ascending order by insertion. -/

namespace TreeControl

/-- Puts a text before the first one that is not smaller. -/
def placeText (a : String) : List String → List String
  | [] => [a]
  | b :: bs => if a ≤ b then a :: b :: bs else b :: placeText a bs

/-- The texts in ascending order of code points, repetitions kept. -/
def sortTexts (l : List String) : List String := l.foldr placeText []

theorem placeText_perm (a : String) (l : List String) : (placeText a l).Perm (a :: l) := by
  induction l with
  | nil => exact .refl _
  | cons b bs ih =>
    unfold placeText
    split
    · exact .refl _
    · exact (ih.cons b).trans (.swap a b bs)

/-- Sorting only reorders. -/
theorem sortTexts_perm (l : List String) : (sortTexts l).Perm l := by
  induction l with
  | nil => exact .refl _
  | cons a l ih => exact (placeText_perm a _).trans (ih.cons a)

theorem placeText_ascending {a : String} {l : List String} (h : l.Pairwise (· ≤ ·)) :
    (placeText a l).Pairwise (· ≤ ·) := by
  induction l with
  | nil => exact List.pairwise_singleton _ a
  | cons b bs ih =>
    have hb := List.pairwise_cons.1 h
    unfold placeText
    split
    · rename_i hab
      refine List.pairwise_cons.2 ⟨fun x hx => ?_, h⟩
      rcases List.mem_cons.1 hx with rfl | hx
      · exact hab
      · exact String.le_trans hab (hb.1 x hx)
    · rename_i hab
      refine List.pairwise_cons.2 ⟨fun x hx => ?_, ih hb.2⟩
      rcases List.mem_cons.1 ((placeText_perm a bs).mem_iff.1 hx) with rfl | hx
      · exact (String.le_total b x).resolve_right hab
      · exact hb.1 x hx

/-- The result of sorting ascends. -/
theorem sortTexts_ascending (l : List String) : (sortTexts l).Pairwise (· ≤ ·) := by
  induction l with
  | nil => exact .nil
  | cons a l ih => exact placeText_ascending ih

end TreeControl
