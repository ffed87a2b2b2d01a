import Mathlib.Data.List.Infix
import TreeControl.Token.Words

/-! # The words of a text and their places

A word of a text is a maximal run of characters that are not white space (`IsWord`), and the place
behind some characters is found by counting the line feeds among them and the characters behind the
last of these (`Location.behind`).

The reader of a text goes by byte offsets.  `HasIndex p n` says that the position `p` has `n`
characters in front of it, and `Words.Stands w n` that the reader has passed `n` characters and knows
the line and the beginning of the line there.  Passing one character keeps this (`Stands.pass`), so
white space is skipped to the next word or to the end (`Stands.skip`), and one call hands out what
stands there (`Stands.next`).  Over all calls these are the words of the text in their order, and
then the end of the text for ever: `ofText_delivers_words`. -/

namespace TreeControl

/-! ### Places -/

/-- The place behind some characters.  Its line counts the line feeds among them, its column the
characters behind the last line feed. -/
def Location.behind (cs : List Char) : Location :=
  ⟨1 + cs.count '\n', 1 + (cs.reverse.takeWhile (· ≠ '\n')).length⟩

namespace Location

theorem behind_newline (cs : List Char) :
    behind (cs ++ ['\n']) = ⟨(behind cs).line + 1, 1⟩ := by
  simp [behind, List.count_append, Nat.add_assoc]

theorem behind_snoc {c : Char} (cs : List Char) (hc : c ≠ '\n') :
    behind (cs ++ [c]) = ⟨(behind cs).line, (behind cs).column + 1⟩ := by
  simp [behind, List.count_append, hc, Nat.add_assoc]

example : behind "one\n\ntwo".toList = ⟨3, 4⟩ := by decide

end Location

/-! ### Words -/

section

variable {cs : List Char} {i n p q : Nat}

/-- White space stands behind `i` characters. -/
def BlankAt (cs : List Char) (i : Nat) : Prop := ∃ c, cs[i]? = some c ∧ isWhitespace c = true

/-- A character of a word stands behind `i` characters. -/
def SolidAt (cs : List Char) (i : Nat) : Prop := ∃ c, cs[i]? = some c ∧ isWhitespace c = false

/-- The characters from `p` up to `q` are a maximal run of characters that are not white space. -/
structure IsWord (cs : List Char) (p q : Nat) : Prop where
  lt : p < q
  solid : ∀ i, p ≤ i → i < q → SolidAt cs i
  begins : p = 0 ∨ BlankAt cs (p - 1)
  ends : q = cs.length ∨ BlankAt cs q

theorem SolidAt.not_blankAt (h : SolidAt cs i) : ¬ BlankAt cs i := by
  obtain ⟨c, hc, hsolid⟩ := h
  rintro ⟨c', hc', hblank⟩
  cases hc.symm.trans hc'
  rw [hsolid] at hblank
  cases hblank

theorem SolidAt.lt_length (h : SolidAt cs i) : i < cs.length := by
  obtain ⟨c, hc, -⟩ := h
  exact (List.getElem?_eq_some_iff.1 hc).1

theorem SolidAt.ne_newline {c : Char} (h : SolidAt cs i) (hc : cs[i]? = some c) : c ≠ '\n' := by
  rintro rfl
  exact h.not_blankAt ⟨_, hc, by decide⟩

theorem take_succ_of_getElem? {c : Char} (hc : cs[n]? = some c) :
    cs.take (n + 1) = cs.take n ++ [c] := by
  rw [List.take_add_one, hc]
  rfl

theorem drop_eq_append (cs : List Char) (h : n ≤ p) :
    cs.drop n = (cs.take p).drop n ++ cs.drop p := by
  calc cs.drop n
    _ = (cs.drop n).take (p - n) ++ (cs.drop n).drop (p - n) :=
      (List.take_append_drop (p - n) _).symm
    _ = (cs.take p).drop n ++ cs.drop p := by
      rw [← List.drop_take, List.drop_drop, Nat.add_sub_cancel' h]

/-- The characters of a word stay in one line. -/
theorem behind_take_of_solid (hpq : p ≤ q) (h : ∀ i, p ≤ i → i < q → SolidAt cs i) :
    Location.behind (cs.take q) =
      ⟨(Location.behind (cs.take p)).line, (Location.behind (cs.take p)).column + (q - p)⟩ := by
  induction q, hpq using Nat.le_induction with
  | base => simp
  | succ q hpq ih =>
    have hsolid := h q hpq (Nat.lt_succ_self q)
    obtain ⟨c, hc, -⟩ := id hsolid
    rw [take_succ_of_getElem? hc, Location.behind_snoc _ (hsolid.ne_newline hc),
      ih fun i hi hiq => h i hi (hiq.trans (Nat.lt_succ_self q)), Location.mk.injEq]
    exact ⟨rfl, by dsimp only; omega⟩

/-- Let no word be running at `n`, and let white space go from there to `s` and a run of other
characters from `s` to its end `e`.  Then this run is the first word from `n` on. -/
theorem isWord_iff_of_runs {n s e : Nat} (hn : n = 0 ∨ BlankAt cs (n - 1) ∨ ¬ SolidAt cs n)
    (hns : n ≤ s) (hse : s < e) (hblank : ∀ i, n ≤ i → i < s → BlankAt cs i)
    (hsolid : ∀ i, s ≤ i → i < e → SolidAt cs i) (he : ¬ SolidAt cs e) :
    IsWord cs p q ∧ n ≤ p ↔ (p = s ∧ q = e) ∨ (IsWord cs p q ∧ e ≤ p) := by
  have hends : e = cs.length ∨ BlankAt cs e := by
    rcases Nat.lt_or_ge e cs.length with hlt | hge
    · right
      refine ⟨cs[e], List.getElem?_eq_getElem hlt, Bool.of_not_eq_false fun h => he ?_⟩
      exact ⟨cs[e], List.getElem?_eq_getElem hlt, h⟩
    · have := (hsolid (e - 1) (by omega) (by omega)).lt_length
      exact .inl (by omega)
  constructor
  · rintro ⟨hword, hnp⟩
    have hp : SolidAt cs p := hword.solid p (le_refl p) hword.lt
    -- A word begins neither in the white space nor inside the run.
    have hsp : s ≤ p := by
      by_contra hlt
      exact hp.not_blankAt (hblank p hnp (by omega))
    by_cases hep : e ≤ p
    · exact .inr ⟨hword, hep⟩
    have hps : p = s := by
      by_contra hne
      rcases hword.begins with hzero | hbefore
      · omega
      · exact (hsolid (p - 1) (by omega) (by omega)).not_blankAt hbefore
    have hqe : q = e := by
      rcases Nat.lt_trichotomy q e with hlt | heq | hgt
      · have hq := hsolid q (by have := hword.lt; omega) hlt
        rcases hword.ends with hlen | hq'
        · exact absurd hq.lt_length (by omega)
        · exact absurd hq' hq.not_blankAt
      · exact heq
      · exact absurd (hword.solid e (by omega) hgt) he
    exact .inl ⟨hps, hqe⟩
  · rintro (⟨rfl, rfl⟩ | ⟨hword, hep⟩)
    · refine ⟨⟨hse, hsolid, ?_, hends⟩, hns⟩
      rcases Nat.lt_or_ge n p with hlt | hge
      · exact .inr (hblank (p - 1) (by omega) (by omega))
      · have hnp : n = p := by omega
        subst hnp
        rcases hn with hzero | hbefore | hnot
        · exact .inl hzero
        · exact .inr hbefore
        · exact absurd (hsolid n (le_refl n) hse) hnot
    · exact ⟨hword, by omega⟩

end

/-! ### Positions -/

/-- A position in a text has `n` characters in front of it. -/
structure HasIndex {text : String} (p : text.Pos) (n : Nat) : Prop where
  le_length : n ≤ text.toList.length
  splits : p.Splits (.ofList (text.toList.take n)) (.ofList (text.toList.drop n))

section

variable {text : String} {p q : text.Pos} {n m : Nat}

theorem hasIndex_startPos (text : String) : HasIndex text.startPos 0 :=
  ⟨Nat.zero_le _, by simp⟩

theorem HasIndex.eq_endPos_iff (hp : HasIndex p n) : p = text.endPos ↔ n = text.toList.length := by
  rw [hp.splits.eq_endPos_iff, ← String.ofList_nil, String.ofList_inj, List.drop_eq_nil_iff]
  have := hp.le_length
  omega

theorem HasIndex.drop_eq (hp : HasIndex p n) (h : p ≠ text.endPos) :
    ∃ t, text.toList.drop n = p.get h :: t := by
  obtain ⟨t, ht⟩ := hp.splits.exists_eq_singleton_append h
  refine ⟨t.toList, ?_⟩
  simpa using congrArg String.toList ht

theorem HasIndex.getElem? (hp : HasIndex p n) (h : p ≠ text.endPos) :
    text.toList[n]? = some (p.get h) := by
  obtain ⟨t, ht⟩ := hp.drop_eq h
  rw [← List.head?_drop, ht, List.head?_cons]

theorem HasIndex.next (hp : HasIndex p n) (h : p ≠ text.endPos) : HasIndex (p.next h) (n + 1) := by
  have hlt : n < text.toList.length :=
    Nat.lt_of_le_of_ne hp.le_length fun e => h (hp.eq_endPos_iff.2 e)
  refine ⟨hlt, ?_⟩
  obtain ⟨t, ht⟩ := hp.drop_eq h
  have hsplits : p.Splits (.ofList (text.toList.take n)) (.singleton (p.get h) ++ .ofList t) := by
    refine hp.splits.of_eq rfl ?_
    rw [ht, String.ofList_cons]
  refine hsplits.next.of_eq ?_ ?_
  · rw [take_succ_of_getElem? (hp.getElem? h), String.ofList_append,
      String.singleton_eq_ofList]
  · rw [← List.drop_drop, ht, List.drop_one, List.tail_cons]

theorem HasIndex.extract_eq (hp : HasIndex p n) (hq : HasIndex q m) (hle : n ≤ m) :
    text.extract p q = .ofList ((text.toList.take m).drop n) := by
  have hdrop := drop_eq_append text.toList hle
  have htake : text.toList.take n ++ (text.toList.take m).drop n = text.toList.take m := by
    calc text.toList.take n ++ (text.toList.take m).drop n
      _ = (text.toList.take m).take n ++ (text.toList.take m).drop n := by
        rw [List.take_take, Nat.min_eq_left hle]
      _ = text.toList.take m := List.take_append_drop n _
  have hp' : p.Splits (.ofList (text.toList.take n))
      (.ofList ((text.toList.take m).drop n) ++ .ofList (text.toList.drop m)) :=
    hp.splits.of_eq rfl (by rw [← String.ofList_append, ← hdrop])
  have hq' : q.Splits (.ofList (text.toList.take n) ++ .ofList ((text.toList.take m).drop n))
      (.ofList (text.toList.drop m)) :=
    hq.splits.of_eq (by rw [← String.ofList_append, htake]) rfl
  obtain ⟨h, hcopy⟩ := String.copy_slice_eq_iff_splits.2 ⟨_, _, hp', hq'⟩
  rw [String.extract_eq_copy_slice p q h, hcopy]

end

/-! ### The reader -/

namespace Words

variable {text : String} {w : Words text} {p : text.Pos} {n : Nat}

/-- The reader has passed `n` characters, and its line begins behind `k` of them. -/
structure StandsFrom (w : Words text) (k n : Nat) : Prop where
  offset : HasIndex w.offset n
  lineStart : HasIndex w.lineStart k
  le : k ≤ n
  behind_eq : Location.behind (text.toList.take n) = ⟨w.line, n - k + 1⟩

/-- The reader has passed `n` characters and knows the line and where it begins. -/
def Stands (w : Words text) (n : Nat) : Prop := ∃ k, w.StandsFrom k n

theorem stands_ofText (text : String) : (ofText text).Stands 0 :=
  ⟨0, hasIndex_startPos text, hasIndex_startPos text, Nat.le_refl 0, rfl⟩

theorem Stands.offset (hw : w.Stands n) : HasIndex w.offset n := hw.choose_spec.offset

theorem Stands.here_eq (hw : w.Stands n) : w.here = .behind (text.toList.take n) := by
  obtain ⟨k, hw⟩ := hw
  have hlength : ((text.toList.take n).drop k).length = n - k := by
    have := hw.offset.le_length
    simp only [List.length_drop, List.length_take]
    omega
  rw [here, hw.lineStart.extract_eq hw.offset hw.le, String.length_ofList, hlength, hw.behind_eq]

/-- Passing a character keeps the line and its beginning known. -/
theorem Stands.pass (hw : w.Stands n) (h : w.offset ≠ text.endPos) :
    (w.pass h).Stands (n + 1) := by
  obtain ⟨k, hw⟩ := hw
  have hc := hw.offset.getElem? h
  have hnext := hw.offset.next h
  have hle := hw.le
  unfold Words.pass
  by_cases hnewline : w.offset.get h = '\n'
  · rw [if_pos hnewline]
    refine ⟨n + 1, hnext, hnext, Nat.le_refl _, ?_⟩
    rw [take_succ_of_getElem? hc, hnewline, Location.behind_newline, hw.behind_eq, Nat.sub_self]
  · rw [if_neg hnewline]
    refine ⟨k, hnext, hw.lineStart, by omega, ?_⟩
    rw [take_succ_of_getElem? hc, Location.behind_snoc _ hnewline, hw.behind_eq, Location.mk.injEq]
    exact ⟨rfl, by dsimp only; omega⟩

theorem Stands.skip (hw : w.Stands n) :
    ∃ s, n ≤ s ∧ w.skip.Stands s ∧ (∀ i, n ≤ i → i < s → BlankAt text.toList i) ∧
      (s = text.toList.length ∨ SolidAt text.toList s) := by
  fun_induction Words.skip w generalizing n with
  | case1 w h =>
    exact ⟨n, Nat.le_refl n, hw, fun i hi hin => absurd hin (by omega),
      .inl (hw.offset.eq_endPos_iff.1 h)⟩
  | case2 w h hblank ih =>
    obtain ⟨s, hns, hs, hblanks, hstop⟩ := ih (hw.pass h)
    refine ⟨s, by omega, hs, fun i hi his => ?_, hstop⟩
    rcases Nat.eq_or_lt_of_le hi with rfl | hlt
    · exact ⟨_, hw.offset.getElem? h, hblank⟩
    · exact hblanks i hlt his
  | case3 w h hsolid =>
    exact ⟨n, Nat.le_refl n, hw, fun i hi hin => absurd hin (by omega),
      .inr ⟨_, hw.offset.getElem? h, Bool.of_not_eq_true hsolid⟩⟩

theorem hasIndex_wordEnd (hp : HasIndex p n) :
    ∃ e, n ≤ e ∧ HasIndex (wordEnd p) e ∧ (∀ i, n ≤ i → i < e → SolidAt text.toList i) ∧
      ¬ SolidAt text.toList e := by
  fun_induction wordEnd p generalizing n with
  | case1 =>
    refine ⟨n, Nat.le_refl n, hp, fun i hi hin => absurd hin (by omega), fun hsolid => ?_⟩
    have := hsolid.lt_length
    have := hp.eq_endPos_iff.1 rfl
    omega
  | case2 p h hblank =>
    refine ⟨n, Nat.le_refl n, hp, fun i hi hin => absurd hin (by omega), fun hsolid => ?_⟩
    exact hsolid.not_blankAt ⟨_, hp.getElem? h, hblank⟩
  | case3 p h hsolid ih =>
    obtain ⟨e, hne, he, hsolids, hstop⟩ := ih (hp.next h)
    refine ⟨e, by omega, he, fun i hi hie => ?_, hstop⟩
    rcases Nat.eq_or_lt_of_le hi with rfl | hlt
    · exact ⟨_, hp.getElem? h, Bool.of_not_eq_true hsolid⟩
    · exact hsolids i hlt hie

/-- The characters of a word do not begin a line. -/
theorem Stands.move {e : Nat} (hw : w.Stands n) (hne : n ≤ e) (hp : HasIndex p e)
    (hsolid : ∀ i, n ≤ i → i < e → SolidAt text.toList i) (latest : Location) :
    Stands { w with offset := p, latest := latest } e := by
  obtain ⟨k, hw⟩ := hw
  have hle := hw.le
  refine ⟨k, hp, hw.lineStart, by omega, ?_⟩
  rw [behind_take_of_solid hne hsolid, hw.behind_eq, Location.mk.injEq]
  exact ⟨rfl, by dsimp only; omega⟩

/-- One call passes white space and hands out the characters from there to the next white space or
to the end, with the place of the first of them. -/
theorem Stands.next (hw : w.Stands n) :
    ∃ s e, n ≤ s ∧ s ≤ e ∧ (∀ i, n ≤ i → i < s → BlankAt text.toList i) ∧
      (∀ i, s ≤ i → i < e → SolidAt text.toList i) ∧ ¬ SolidAt text.toList e ∧
      (s = text.toList.length ∨ s < e) ∧
      w.next.1 = ⟨.ofList ((text.toList.take e).drop s)⟩ ∧
      w.next.2.latest = .behind (text.toList.take s) ∧ w.next.2.Stands e := by
  obtain ⟨s, hns, hs, hblank, hstop⟩ := hw.skip
  obtain ⟨e, hse, he, hsolid, hend⟩ := hasIndex_wordEnd hs.offset
  refine ⟨s, e, hns, hse, hblank, hsolid, hend, hstop.imp_right fun h => ?_, ?_, hs.here_eq,
    hs.move hse he hsolid _⟩
  · exact Nat.lt_of_le_of_ne hse fun heq => hend (heq ▸ h)
  · exact congrArg Symbol.mk (hs.offset.extract_eq he hse)

/-! ### All calls -/

/-- The calls on a reader hand out words, given by where they begin and end, and then the end of the
text; the place of each is that of its first character, the place of the end is behind all of
them. -/
structure Delivers (w : Words text) (words : List (Nat × Nat)) : Prop where
  word : ∀ i p q, words[i]? = some (p, q) →
    TokenSource.tokenAt w i = ⟨.ofList ((text.toList.take q).drop p)⟩ ∧
      TokenSource.placeAt w i = .behind (text.toList.take p)
  finish : ∀ i, words.length ≤ i →
    TokenSource.tokenAt w i = .blank ∧ TokenSource.placeAt w i = .behind text.toList

theorem Delivers.cons {words : List (Nat × Nat)} {p q : Nat}
    (htoken : w.next.1 = ⟨.ofList ((text.toList.take q).drop p)⟩)
    (hplace : w.next.2.latest = .behind (text.toList.take p)) (h : w.next.2.Delivers words) :
    w.Delivers ((p, q) :: words) := by
  refine ⟨fun i p' q' hi => ?_, fun i hi => ?_⟩
  · cases i with
    | zero =>
      cases hi
      exact ⟨htoken, hplace⟩
    | succ i => exact h.word i p' q' hi
  · cases i with
    | zero => cases hi
    | succ i => exact h.finish i (Nat.le_of_succ_le_succ hi)

theorem Stands.delivers_nil (hw : w.Stands n) (hnone : ∀ i, n ≤ i → ¬ SolidAt text.toList i) :
    w.Delivers [] := by
  refine ⟨fun i p q hi => (by cases hi), fun i _ => ?_⟩
  induction i generalizing w n with
  | zero =>
    obtain ⟨s, e, hns, hse, -, hsolid, -, hstop, htoken, hplace, hw'⟩ := hw.next
    obtain rfl : s = text.toList.length :=
      hstop.resolve_right fun hlt => hnone s hns (hsolid s (Nat.le_refl s) hlt)
    obtain rfl : e = text.toList.length := Nat.le_antisymm hw'.offset.le_length hse
    rw [List.take_length, List.drop_length] at htoken
    rw [List.take_length] at hplace
    exact ⟨htoken, hplace⟩
  | succ i ih =>
    obtain ⟨s, e, hns, hse, -, -, -, -, -, -, hw'⟩ := hw.next
    exact ih hw' (fun i hi => hnone i (by omega)) (Nat.zero_le i)

/-- A reader that stands inside no word hands out the words behind it. -/
theorem Stands.exists_words (hw : w.Stands n)
    (hn : n = 0 ∨ BlankAt text.toList (n - 1) ∨ ¬ SolidAt text.toList n) :
    ∃ words : List (Nat × Nat), words.Pairwise (fun a b => a.1 < b.1) ∧
      (∀ p q, (p, q) ∈ words ↔ IsWord text.toList p q ∧ n ≤ p) ∧ w.Delivers words := by
  induction hk : text.toList.length - n using Nat.strong_induction_on generalizing w n with
  | _ k ih =>
    obtain ⟨s, e, hns, hse, hblank, hsolid, hend, hstop, htoken, hplace, hw'⟩ := hw.next
    have hle := hw'.offset.le_length
    rcases hstop with rfl | hlt
    · have hnone : ∀ i, n ≤ i → ¬ SolidAt text.toList i := fun i hi hsolid =>
        hsolid.not_blankAt (hblank i hi hsolid.lt_length)
      refine ⟨[], .nil, fun p q => ⟨fun h => absurd h List.not_mem_nil, fun h => ?_⟩,
        hw.delivers_nil hnone⟩
      exact absurd (h.1.solid p (Nat.le_refl p) h.1.lt) (hnone p h.2)
    · obtain ⟨words, hsorted, hmem, hdelivers⟩ := ih (text.toList.length - e) (by omega) hw'
        (.inr (.inr hend)) rfl
      have hmem' : ∀ p q, (p, q) ∈ (s, e) :: words ↔ IsWord text.toList p q ∧ n ≤ p := by
        intro p q
        rw [isWord_iff_of_runs hn hns hlt hblank hsolid hend, List.mem_cons, Prod.mk.injEq,
          hmem]
      refine ⟨(s, e) :: words, List.pairwise_cons.2 ⟨fun r hr => ?_, hsorted⟩, hmem',
        .cons htoken hplace hdelivers⟩
      have := ((hmem r.1 r.2).1 hr).2
      omega

/-- The tokens of a text are exactly its maximal runs of characters that are not white space, in
their order, and then blank symbols for ever.  The place of a word counts the line feeds in front of
it and the characters behind the last of these, and the place of the end does so for the whole
text. -/
theorem ofText_delivers_words (text : String) :
    ∃ words : List (Nat × Nat), words.Pairwise (fun a b => a.1 < b.1) ∧
      (∀ p q, (p, q) ∈ words ↔ IsWord text.toList p q) ∧ (ofText text).Delivers words := by
  obtain ⟨words, hsorted, hmem, hdelivers⟩ := (stands_ofText text).exists_words (.inl rfl)
  exact ⟨words, hsorted, by simpa using hmem, hdelivers⟩

end Words

end TreeControl
