import TreeControl.Proofs.Grammar.Derivation
import TreeControl.Proofs.Token.Words

/-! # Splitting a text at white space

Splitting a text at every character of white space leaves its words and empty pieces between them
(`splitWords`).  The reader of a text goes over the same words: what it hands out before the first
blank symbol are the pieces that are not empty, in order (`Words.supplies_ofText`). -/

namespace TreeControl

/-- The words of a text: the pieces between white space that are not empty. -/
def splitWords (cs : List Char) : List (List Char) :=
  (cs.splitOnP isWhitespace).filter (· ≠ [])

/-- The words of a text as symbols. -/
def Words.symbols (text : String) : List Symbol :=
  (splitWords text.toList).map fun word => ⟨.ofList word⟩

variable {cs blanks word rest : List Char} {c : Char} {n m : Nat}

/-! ### Splitting -/

theorem splitWords_cons_of_blank (hc : isWhitespace c = true) :
    splitWords (c :: cs) = splitWords cs := by
  simp [splitWords, List.splitOnP_cons_eq_if_modifyHead, hc]

theorem splitWords_append_of_blank (h : ∀ c ∈ blanks, isWhitespace c = true) :
    splitWords (blanks ++ rest) = splitWords rest := by
  induction blanks with
  | nil => rfl
  | cons c blanks ih =>
    obtain ⟨hc, hblanks⟩ := List.forall_mem_cons.1 h
    rw [List.cons_append, splitWords_cons_of_blank hc, ih hblanks]

theorem splitWords_append_of_solid (hne : word ≠ []) (h : ∀ c ∈ word, isWhitespace c = false)
    (hrest : rest = [] ∨ ∃ c tail, rest = c :: tail ∧ isWhitespace c = true) :
    splitWords (word ++ rest) = word :: splitWords rest := by
  obtain rfl | ⟨c, tail, rfl, hc⟩ := hrest
  · simp [splitWords, List.splitOnP_eq_singleton h, hne]
  · rw [splitWords_cons_of_blank hc, splitWords,
      List.splitOnP_append_cons_of_forall_mem h c hc tail, List.filter_cons_of_pos (by simpa)]
    rfl

theorem forall_mem_splitOnP (cs : List Char) :
    ∀ piece ∈ cs.splitOnP isWhitespace, ∀ c ∈ piece, isWhitespace c = false := by
  induction cs with
  | nil => simp
  | cons c cs ih =>
    obtain ⟨piece, pieces, hpieces⟩ :=
      List.exists_cons_of_ne_nil (List.splitOnP_ne_nil isWhitespace cs)
    rw [hpieces, List.forall_mem_cons] at ih
    rw [List.splitOnP_cons_eq_if_modifyHead, hpieces]
    split
    · exact List.forall_mem_cons.2 ⟨by simp, List.forall_mem_cons.2 ih⟩
    · rename_i hc
      refine List.forall_mem_cons.2 ⟨List.forall_mem_cons.2 ⟨?_, ih.1⟩, ih.2⟩
      exact Bool.of_not_eq_true hc

theorem forall_mem_splitWords (hword : word ∈ splitWords cs) :
    ∀ c ∈ word, isWhitespace c = false :=
  forall_mem_splitOnP cs word (List.mem_filter.1 hword).1

theorem length_splitWords_le (cs : List Char) : (splitWords cs).length ≤ cs.length := by
  induction cs with
  | nil => simp [splitWords]
  | cons c cs ih =>
    by_cases hc : isWhitespace c = true
    · rw [splitWords_cons_of_blank hc, List.length_cons]
      omega
    · obtain ⟨piece, pieces, hpieces⟩ :=
        List.exists_cons_of_ne_nil (List.splitOnP_ne_nil isWhitespace cs)
      have hshorter : (pieces.filter (· ≠ [])).length ≤
          ((piece :: pieces).filter (· ≠ [])).length :=
        ((List.sublist_cons_self piece pieces).filter _).length_le
      rw [splitWords, hpieces] at ih
      rw [splitWords, List.splitOnP_cons_eq_if_modifyHead, if_neg hc, hpieces, List.modifyHead_cons,
        List.filter_cons_of_pos (by simp), List.length_cons, List.length_cons]
      omega

/-! ### Reading -/

theorem forall_mem_of_forall_at {P : Char → Prop}
    (h : ∀ i, n ≤ i → i < m → ∃ c, cs[i]? = some c ∧ P c) : ∀ c ∈ (cs.take m).drop n, P c := by
  intro c hc
  obtain ⟨i, hi⟩ := List.mem_iff_getElem?.1 hc
  rw [List.getElem?_drop, List.getElem?_take] at hi
  split at hi
  · rename_i hlt
    obtain ⟨c', hc', hP⟩ := h (n + i) (Nat.le_add_right n i) hlt
    cases hi.symm.trans hc'
    exact hP
  · cases hi

namespace Words

variable {text : String} {w : Words text}

/-- A reader hands out the words of the text that it has not passed. -/
theorem Stands.supplies (hw : w.Stands n) :
    TokenSource.Supplies w ((splitWords (text.toList.drop n)).map fun word => ⟨.ofList word⟩) := by
  induction hk : text.toList.length - n using Nat.strong_induction_on generalizing w n with
  | _ k ih =>
    obtain ⟨s, e, hns, hse, hblank, hsolid, hend, hstop, htoken, -, hw'⟩ := hw.next
    have hfront : ∀ c ∈ (text.toList.take s).drop n, isWhitespace c = true :=
      forall_mem_of_forall_at hblank
    have hword : ∀ c ∈ (text.toList.take e).drop s, isWhitespace c = false :=
      forall_mem_of_forall_at hsolid
    have hwords : splitWords (text.toList.drop n) =
        splitWords ((text.toList.take e).drop s ++ text.toList.drop e) := by
      rw [drop_eq_append _ hns, splitWords_append_of_blank hfront, ← drop_eq_append _ hse]
    have hle := hw'.offset.le_length
    rcases hstop with rfl | hlt
    · -- Nothing but white space was left.
      obtain rfl : e = text.toList.length := Nat.le_antisymm hle hse
      rw [List.take_length, List.drop_length] at htoken
      rw [hwords, List.take_length, List.drop_length]
      exact htoken
    · have hrest : text.toList.drop e = [] ∨
          ∃ c tail, text.toList.drop e = c :: tail ∧ isWhitespace c = true := by
        rcases Nat.eq_or_lt_of_le hle with rfl | hlt
        · exact .inl List.drop_length
        · refine .inr ⟨_, _, List.drop_eq_getElem_cons hlt, Bool.of_not_eq_false fun h => ?_⟩
          exact hend ⟨_, List.getElem?_eq_getElem hlt, h⟩
      have hne : (text.toList.take e).drop s ≠ [] := by
        rw [Ne, List.drop_eq_nil_iff, List.length_take]
        omega
      rw [hwords, splitWords_append_of_solid hne hword hrest]
      refine ⟨htoken, fun h => hne ?_, ih _ (by omega) hw' rfl⟩
      rwa [Symbol.blank, Symbol.mk.injEq, String.ofList_eq_empty_iff] at h

theorem supplies_ofText (text : String) : TokenSource.Supplies (ofText text) (symbols text) :=
  (stands_ofText text).supplies

end Words

end TreeControl
