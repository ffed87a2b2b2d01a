/-! # Searches that end

Three loops recur in the construction of a parse table, each with a bound that its caller
computes from the size of the data:

* `explore` visits everything reachable from a list of starting points, breadth first, and
  lists it in the order of discovery;
* `saturate` applies a function until nothing changes and counts the applications;
* `unusedName` lengthens a name until nobody else has it.

A bound that is large enough makes no difference to the result.  `explore_closed` and
`saturate_fixed` say which bounds are: one round for each thing that can be found, and one for
each change and one more.  `unusedName` brings its own bound (`unusedName_not_mem`). -/

namespace TreeControl

variable {α : Type} [DecidableEq α]

/-! ### Breadth-first search -/

/-- The elements of a list that are not in `known`, each once, in order. -/
def novel (known : List α) : List α → List α
  | [] => []
  | x :: xs => if x ∈ known then novel known xs else x :: novel (x :: known) xs

/-- Breadth-first search.  `done` has been visited, `queue` is still to be visited, and what
`next` gives for a visited element goes to the end of the queue unless it was met before. -/
def explore (next : α → List α) : Nat → (done queue : List α) → List α
  | 0, done, queue => done ++ queue
  | _ + 1, done, [] => done
  | rounds + 1, done, x :: queue =>
    explore next rounds (done ++ [x]) (queue ++ novel (done ++ x :: queue) (next x))

theorem mem_novel {known xs : List α} {x : α} : x ∈ novel known xs ↔ x ∈ xs ∧ ¬ x ∈ known := by
  induction xs generalizing known with
  | nil => simp [novel]
  | cons y ys ih =>
    unfold novel
    split
    · rename_i hy
      rw [ih, List.mem_cons]
      constructor
      · exact fun h => ⟨.inr h.1, h.2⟩
      · rintro ⟨rfl | h, hx⟩
        · exact absurd hy hx
        · exact ⟨h, hx⟩
    · rename_i hy
      rw [List.mem_cons, ih, List.mem_cons, List.mem_cons]
      by_cases hx : x = y
      · subst hx
        simp [hy]
      · simp [hx]

theorem nodup_novel (known xs : List α) : (novel known xs).Nodup := by
  induction xs generalizing known with
  | nil => exact .nil
  | cons y ys ih =>
    unfold novel
    split
    · exact ih known
    · refine List.nodup_cons.2 ⟨fun h => ?_, ih _⟩
      exact (mem_novel.1 h).2 List.mem_cons_self

theorem nodup_append_novel {known : List α} (h : known.Nodup) (xs : List α) :
    (known ++ novel known xs).Nodup :=
  List.nodup_append.2 ⟨h, nodup_novel known xs, fun _ ha _ hb e => (mem_novel.1 hb).2 (e ▸ ha)⟩

/-- What was met is found. -/
theorem mem_explore_of_mem {next : α → List α} {rounds : Nat} {done queue : List α} {x : α}
    (h : x ∈ done ++ queue) : x ∈ explore next rounds done queue := by
  induction rounds generalizing done queue with
  | zero => exact h
  | succ rounds ih =>
    cases queue with
    | nil => simpa [explore] using h
    | cons y queue =>
      refine ih ?_
      rw [← List.append_assoc]
      refine List.mem_append_left _ ?_
      simpa using h

/-- Whatever holds of the starting points and is passed on by `next` holds of all that is found. -/
theorem of_mem_explore {next : α → List α} {P : α → Prop} (pass : ∀ x, P x → ∀ y ∈ next x, P y)
    {rounds : Nat} {done queue : List α} (h : ∀ x ∈ done ++ queue, P x) :
    ∀ x ∈ explore next rounds done queue, P x := by
  induction rounds generalizing done queue with
  | zero => exact h
  | succ rounds ih =>
    cases queue with
    | nil => simpa [explore] using h
    | cons y queue =>
      refine ih fun x hx => ?_
      rw [← List.append_assoc] at hx
      rcases List.mem_append.1 hx with hx | hx
      · exact h x (by simpa using hx)
      · exact pass y (h y (by simp)) x (mem_novel.1 hx).1

/-- Nothing is found twice. -/
theorem nodup_explore {next : α → List α} {rounds : Nat} {done queue : List α}
    (h : (done ++ queue).Nodup) : (explore next rounds done queue).Nodup := by
  induction rounds generalizing done queue with
  | zero => exact h
  | succ rounds ih =>
    cases queue with
    | nil => simpa [explore] using h
    | cons y queue =>
      refine ih ?_
      simpa using nodup_append_novel h (next y)

/-- If there is a round for everything that can be found, the search is complete: whatever `next`
gives for something found is found too. -/
theorem explore_closed {next : α → List α} {rounds : Nat} {done queue range : List α}
    (nodup : (done ++ queue).Nodup) (all : ∀ x ∈ explore next rounds done queue, x ∈ range)
    (enough : range.length ≤ done.length + rounds)
    (visited : ∀ x ∈ done, ∀ y ∈ next x, y ∈ done ++ queue) :
    ∀ x ∈ explore next rounds done queue, ∀ y ∈ next x, y ∈ explore next rounds done queue := by
  induction rounds generalizing done queue with
  | zero =>
    have hlen := nodup.length_le_of_subset all
    rw [List.length_append] at hlen
    have : queue = [] := List.eq_nil_of_length_eq_zero (by omega)
    subst this
    simpa [explore] using visited
  | succ rounds ih =>
    cases queue with
    | nil => simpa [explore] using visited
    | cons z queue =>
      refine ih ?_ all ?_ ?_
      · simpa using nodup_append_novel nodup (next z)
      · rw [List.length_append, List.length_singleton]
        omega
      · intro x hx y hy
        rw [← List.append_assoc, List.mem_append]
        by_cases known : y ∈ done ++ z :: queue
        · exact .inl (by simpa using known)
        · rcases List.mem_append.1 hx with hx | hx
          · exact absurd (visited x hx y hy) known
          · rw [List.mem_singleton.1 hx] at hy
            exact .inr (mem_novel.2 ⟨hy, known⟩)

/-! ### Fixed points -/

/-- Applies `f` until it changes nothing; the second component counts the applications, the
last and idle one included. -/
def saturate (f : α → α) : Nat → α → α × Nat
  | 0, x => (x, 0)
  | rounds + 1, x =>
    let y := f x
    if y = x then (x, 1)
    else
      let (z, count) := saturate f rounds y
      (z, count + 1)

/-- Whatever `f` keeps holds of the result. -/
theorem saturate_keeps {f : α → α} {P : α → Prop} (keep : ∀ x, P x → P (f x)) {rounds : Nat}
    {x : α} (h : P x) : P (saturate f rounds x).1 := by
  induction rounds generalizing x with
  | zero => exact h
  | succ rounds ih =>
    unfold saturate
    by_cases hx : f x = x
    · simpa [hx] using h
    · simpa [hx] using ih (keep x h)

/-- If every change adds to a measure with a bound that leaves one round over, `f` changes nothing
more in the result. -/
theorem saturate_fixed {f : α → α} {P : α → Prop} {size : α → Nat} {bound : Nat}
    (keep : ∀ x, P x → P (f x)) (grow : ∀ x, P x → f x ≠ x → size x < size (f x))
    (limit : ∀ x, P x → size x ≤ bound) {rounds : Nat} {x : α} (h : P x)
    (enough : bound < size x + rounds) :
    f (saturate f rounds x).1 = (saturate f rounds x).1 := by
  induction rounds generalizing x with
  | zero =>
    have := limit x h
    omega
  | succ rounds ih =>
    unfold saturate
    by_cases hx : f x = x
    · simp [hx]
    · have := grow x h hx
      simpa [hx] using ih (keep x h) (by omega)

/-! ### Fresh names -/

/-- Appends `mark` while the name is taken, at most a given number of times. -/
def lengthen (mark : Char) (taken : List String) : Nat → String → String
  | 0, name => name
  | rounds + 1, name =>
    if name ∈ taken then lengthen mark taken rounds (name.push mark) else name

/-- The first of `name`, `name` with one mark, with two marks, … that is not taken. -/
def unusedName (mark : Char) (taken : List String) (name : String) : String :=
  lengthen mark taken taken.length name

/-- If even the last attempt is taken, so is every name tried before it. -/
theorem exists_taken_of_lengthen_mem {mark : Char} {taken : List String} {rounds : Nat}
    {name : String} (h : lengthen mark taken rounds name ∈ taken) :
    ∃ names : List String, names.Nodup ∧ names ⊆ taken ∧ names.length = rounds + 1 ∧
      ∀ n ∈ names, name.length ≤ n.length := by
  induction rounds generalizing name with
  | zero => exact ⟨[name], by simp, by simpa [lengthen] using h, rfl, by simp⟩
  | succ rounds ih =>
    unfold lengthen at h
    split at h
    · rename_i hname
      obtain ⟨names, nodup, sub, len, long⟩ := ih h
      refine ⟨name :: names, List.nodup_cons.2 ⟨fun hmem => ?_, nodup⟩, ?_, by simp [len], ?_⟩
      · have := long name hmem
        rw [String.length_push] at this
        omega
      · exact List.cons_subset.2 ⟨hname, sub⟩
      · intro n hn
        rcases List.mem_cons.1 hn with rfl | hn
        · exact Nat.le_refl _
        · have := long n hn
          rw [String.length_push] at this
          omega
    · rename_i hname
      exact absurd h hname

/-- An unused name is not taken. -/
theorem unusedName_not_mem (mark : Char) (taken : List String) (name : String) :
    ¬ unusedName mark taken name ∈ taken := by
  intro h
  obtain ⟨names, nodup, sub, len, -⟩ := exists_taken_of_lengthen_mem h
  have := nodup.length_le_of_subset sub
  omega

end TreeControl
