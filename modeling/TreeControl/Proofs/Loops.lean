import TreeControl.Proofs.Search

/-! # Loops without a bound

The searches of this library count their rounds.  Here are the same loops without a count: one turn
of a loop leads to the next state or says that the loop is over, and `Ends` says that finitely many
turns lead to a state in which it is.

With enough rounds a counted loop stops where the loop without a count ends: the queue of a search
has run empty (`Enough.ends`), a pass has changed nothing (`ends_improve`), nobody has the name
(`ends_unusedName`).  A loop ends in one state only (`Ends.unique`), and a search among renamed things
ends with the renamed things (`Ends.visit_map`). -/

namespace TreeControl

/-- A loop that begins in one state is over in another, after finitely many turns. -/
inductive Ends {S : Type} (turn : S → Option S) : S → S → Prop
  | stop {s : S} : turn s = none → Ends turn s s
  | next {s s₁ s' : S} : turn s = some s₁ → Ends turn s₁ s' → Ends turn s s'

theorem Ends.unique {S : Type} {turn : S → Option S} {s a b : S} (ha : Ends turn s a)
    (hb : Ends turn s b) : a = b := by
  induction ha with
  | stop h =>
    cases hb with
    | stop => rfl
    | next h' => cases h.symm.trans h'
  | next h _ ih =>
    cases hb with
    | stop h' => cases h.symm.trans h'
    | next h' hb =>
      cases h.symm.trans h'
      exact ih hb

/-- A loop that does the same turns in another form ends with the same in that form. -/
theorem Ends.map {S T : Type} {turn : S → Option S} {turn' : T → Option T} {f : S → T}
    (pass : ∀ s, turn' (f s) = (turn s).map f) {s s' : S} (h : Ends turn s s') :
    Ends turn' (f s) (f s') := by
  induction h with
  | stop h =>
    refine .stop ?_
    rw [pass, h, Option.map_none]
  | next h _ ih =>
    refine .next ?_ ih
    rw [pass, h, Option.map_some]

variable {α : Type} [DecidableEq α] {rounds : Nat} {x : α}

/-! ### Breadth-first search -/

/-- One turn of a search, with what was visited and what is still to be visited. -/
def visit (next : α → List α) : List α × List α → Option (List α × List α)
  | (_, []) => none
  | (done, x :: queue) => some (done ++ [x], queue ++ novel (done ++ x :: queue) (next x))

variable {next : α → List α} {done queue range : List α}

/-- Each turn visits something new, so the queue runs empty when the range is used up. -/
theorem ends_visit (nodup : (done ++ queue).Nodup)
    (all : ∀ x ∈ explore next rounds done queue, x ∈ range)
    (enough : range.length ≤ done.length + rounds) :
    Ends (visit next) (done, queue) (explore next rounds done queue, []) := by
  induction rounds generalizing done queue with
  | zero =>
    have hlen := nodup.length_le_of_subset all
    rw [List.length_append] at hlen
    obtain rfl : queue = [] := List.eq_nil_of_length_eq_zero (by omega)
    rw [explore, List.append_nil]
    exact .stop rfl
  | succ rounds ih =>
    cases queue with
    | nil => exact .stop rfl
    | cons x queue =>
      refine .next rfl (ih ?_ all ?_)
      · simpa using nodup_append_novel nodup (next x)
      · rw [List.length_append, List.length_singleton]
        omega

/-- A search without a count ends with what one with enough rounds finds. -/
theorem Enough.ends (h : Enough next rounds queue) :
    Ends (visit next) ([], queue) (explore next rounds [] queue, []) := by
  obtain ⟨nodup, range, start, pass, enough⟩ := h
  exact ends_visit (by simpa using nodup) (of_mem_explore pass (by simpa using start))
    (by simpa using enough)

theorem Enough.explore_eq {rounds' : Nat} (h : Enough next rounds queue)
    (h' : Enough next rounds' queue) :
    explore next rounds [] queue = explore next rounds' [] queue :=
  congrArg Prod.fst (h.ends.unique h'.ends)

theorem Ends.mem_found {s s' : List α × List α} (h : Ends (visit next) s s') :
    ∀ x ∈ s.1 ++ s.2, x ∈ s'.1 := by
  induction h with
  | @stop s h =>
    obtain ⟨done, queue⟩ := s
    cases queue with
    | nil => simp
    | cons y queue => cases h
  | @next s s₁ s' h _ ih =>
    obtain ⟨done, queue⟩ := s
    cases queue with
    | nil => cases h
    | cons y queue =>
      cases h
      intro x hx
      exact ih x (by simp only [List.mem_append, List.mem_cons] at hx ⊢; tauto)

theorem Ends.prefix_found {s s' : List α × List α} (h : Ends (visit next) s s') :
    s.1 ++ s.2 <+: s'.1 ++ s'.2 := by
  induction h with
  | stop => exact List.prefix_refl _
  | @next s s₁ s' h _ ih =>
    obtain ⟨done, queue⟩ := s
    cases queue with
    | nil => cases h
    | cons y queue =>
      cases h
      refine List.IsPrefix.trans ⟨novel (done ++ y :: queue) (next y), ?_⟩ ih
      simp

theorem novel_map {β : Type} [DecidableEq β] {f : α → β} {known xs : List α}
    (inj : ∀ x ∈ xs, ∀ y ∈ known ++ xs, f x = f y → x = y) :
    novel (known.map f) (xs.map f) = (novel known xs).map f := by
  induction xs generalizing known with
  | nil => rfl
  | cons x xs ih =>
    have hmem : f x ∈ known.map f ↔ x ∈ known := by
      constructor
      · intro h
        obtain ⟨y, hy, e⟩ := List.mem_map.1 h
        exact inj x List.mem_cons_self y (List.mem_append_left _ hy) e.symm ▸ hy
      · exact List.mem_map_of_mem
    rw [List.map_cons, novel, novel]
    by_cases hx : x ∈ known
    · rw [if_pos hx, if_pos (hmem.2 hx)]
      refine ih fun z hz y hy => inj z (List.mem_cons_of_mem x hz) y ?_
      simp only [List.mem_append, List.mem_cons] at hy ⊢
      tauto
    · rw [if_neg hx, if_neg fun h => hx (hmem.1 h), List.map_cons, ← List.map_cons (f := f)]
      refine congrArg _ (ih fun z hz y hy => inj z (List.mem_cons_of_mem x hz) y ?_)
      simp only [List.mem_append, List.mem_cons] at hy ⊢
      tauto

/-- If things are renamed and keep their names apart, a search finds the renamed things, in the same
order. -/
theorem Ends.visit_map {β : Type} [DecidableEq β] {next' : β → List β} {f : α → β}
    {s s' : List α × List α} (h : Ends (visit next) s s')
    (inj : ∀ x ∈ s'.1, ∀ y ∈ s'.1, f x = f y → x = y)
    (pass : ∀ x ∈ s'.1, next' (f x) = (next x).map f) :
    Ends (visit next') (s.1.map f, s.2.map f) (s'.1.map f, s'.2.map f) := by
  induction h with
  | @stop s h =>
    obtain ⟨done, queue⟩ := s
    cases queue with
    | nil => exact .stop rfl
    | cons y queue => cases h
  | @next s s₁ s' h hend ih =>
    obtain ⟨done, queue⟩ := s
    cases queue with
    | nil => cases h
    | cons x queue =>
      cases h
      -- Everything that the visited element leads to is known or new, so it is found in the end.
      have found := hend.mem_found
      have hknown : ∀ y ∈ done ++ x :: queue, y ∈ s'.1 := fun y hy => found y (by
        simp only [List.mem_append, List.mem_cons] at hy ⊢
        tauto)
      have hnext : ∀ y ∈ next x, y ∈ s'.1 := fun y hy => by
        by_cases hy' : y ∈ done ++ x :: queue
        · exact hknown y hy'
        · exact found y (List.mem_append_right _ (List.mem_append_right _
            (mem_novel.2 ⟨hy, hy'⟩)))
      have hnovel : novel ((done ++ x :: queue).map f) ((next x).map f) =
          (novel (done ++ x :: queue) (next x)).map f := by
        refine novel_map fun z hz y hy => inj z (hnext z hz) y ?_
        rcases List.mem_append.1 hy with hy | hy
        · exact hknown y hy
        · exact hnext y hy
      refine .next ?_ (ih inj pass)
      rw [← pass x (hknown x (by simp))] at hnovel
      simp only [visit, List.map_append, List.map_cons, List.map_nil] at hnovel ⊢
      rw [hnovel]

/-! ### Fixed points -/

/-- One turn towards a fixed point. -/
def improve (f : α → α) (x : α) : Option α := if f x = x then none else some (f x)

theorem ends_improve {f : α → α} (h : f (saturate f rounds x).1 = (saturate f rounds x).1) :
    Ends (improve f) x (saturate f rounds x).1 := by
  induction rounds generalizing x with
  | zero => exact .stop (if_pos h)
  | succ rounds ih =>
    unfold saturate at h ⊢
    by_cases hx : f x = x
    · simp only [hx, if_true]
      exact .stop (if_pos hx)
    · simp only [hx, if_false] at h ⊢
      exact .next (if_neg hx) (ih h)

/-! ### Fresh names -/

variable {mark : Char} {taken : List String} {name : String}

/-- One turn of the search for a name that is not taken. -/
def extend (mark : Char) (taken : List String) (name : String) : Option String :=
  if name ∈ taken then some (name.push mark) else none

theorem ends_extend (h : ¬ lengthen mark taken rounds name ∈ taken) :
    Ends (extend mark taken) name (lengthen mark taken rounds name) := by
  induction rounds generalizing name with
  | zero => exact .stop (if_neg h)
  | succ rounds ih =>
    unfold lengthen at h ⊢
    by_cases hname : name ∈ taken
    · rw [if_pos hname] at h ⊢
      exact .next (if_pos hname) (ih h)
    · rw [if_neg hname]
      exact .stop (if_neg hname)

/-- The names tried are all different, so one of them is not taken. -/
theorem ends_unusedName (mark : Char) (taken : List String) (name : String) :
    Ends (extend mark taken) name (unusedName mark taken name) :=
  ends_extend (unusedName_not_mem mark taken name)

/-- Only what is taken matters, not in which order or how often. -/
theorem unusedName_congr {taken' : List String} (h : ∀ n, n ∈ taken ↔ n ∈ taken') :
    unusedName mark taken name = unusedName mark taken' name := by
  have hextend : extend mark taken = extend mark taken' := funext fun n => by
    simp only [extend, h]
  have hends := ends_unusedName mark taken name
  rw [hextend] at hends
  exact hends.unique (ends_unusedName mark taken' name)

theorem unusedName_eq_self (h : ¬ name ∈ taken) : unusedName mark taken name = name := by
  unfold unusedName
  cases taken.length with
  | zero => rfl
  | succ rounds => rw [lengthen, if_neg h]

end TreeControl
