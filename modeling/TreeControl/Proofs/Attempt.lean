import Mathlib.Data.List.Forall2
import TreeControl.Trace.Traced

/-! # How attempts succeed and fail

A sequence of attempts succeeds if every one of them does, and otherwise fails as the first one that
does not.  The outcome of a traced loop is the loop of the outcomes, so what follows from it never
needs to look at the events. -/

namespace TreeControl

variable {ε ε' α β : Type}

theorem bind_eq_ok_iff {x : Except ε α} {f : α → Except ε β} {b : β} :
    x >>= f = .ok b ↔ ∃ a, x = .ok a ∧ f a = .ok b := by
  cases x with
  | error e => simp [bind, Except.bind]
  | ok a => simp [bind, Except.bind]

theorem bind_eq_error_iff {x : Except ε α} {f : α → Except ε β} {e : ε} :
    x >>= f = .error e ↔ x = .error e ∨ ∃ a, x = .ok a ∧ f a = .error e := by
  cases x with
  | error e' => simp [bind, Except.bind]
  | ok a => simp [bind, Except.bind]

theorem mapError_eq_ok_iff {x : Except ε α} {f : ε → ε'} {a : α} :
    x.mapError f = .ok a ↔ x = .ok a := by
  cases x <;> simp [Except.mapError]

theorem mapError_eq_error_iff {x : Except ε α} {f : ε → ε'} {e' : ε'} :
    x.mapError f = .error e' ↔ ∃ e, x = .error e ∧ f e = e' := by
  cases x <;> simp [Except.mapError]

theorem pure_eq_ok_iff {a b : α} : (pure a : Except ε α) = .ok b ↔ a = b := by
  simp [pure, Except.pure]

theorem toOption_eq_some_iff {x : Except ε α} {a : α} : x.toOption = some a ↔ x = .ok a := by
  cases x <;> simp [Except.toOption]

theorem mapM_eq_ok_iff {f : α → Except ε β} {l : List α} {bs : List β} :
    l.mapM f = .ok bs ↔ List.Forall₂ (fun a b => f a = .ok b) l bs := by
  induction l generalizing bs with
  | nil =>
    rw [List.mapM_nil, pure_eq_ok_iff, List.forall₂_nil_left_iff]
    exact eq_comm
  | cons a l ih =>
    simp only [List.mapM_cons, bind_eq_ok_iff, pure_eq_ok_iff, ih, List.forall₂_cons_left_iff]
    constructor
    · intro h
      obtain ⟨b, hb, bs', hbs, e⟩ := h
      exact ⟨b, bs', hb, hbs, e.symm⟩
    · intro h
      obtain ⟨b, bs', hb, hbs, e⟩ := h
      exact ⟨b, hb, bs', hbs, e.symm⟩

theorem mapM_eq_ok_map {f : α → Except ε β} {g : α → β} {l : List α} (h : ∀ a ∈ l, f a = .ok (g a)) :
    l.mapM f = .ok (l.map g) := by
  rw [mapM_eq_ok_iff, List.forall₂_map_right_iff, List.forall₂_same]
  exact h

theorem foldlM_eq_ok_foldl {f : β → α → Except ε β} {g : β → α → β} {l : List α} (b : β)
    (h : ∀ a ∈ l, ∀ b, f b a = .ok (g b a)) : l.foldlM f b = .ok (l.foldl g b) := by
  induction l generalizing b with
  | nil => rfl
  | cons a l ih =>
    obtain ⟨ha, hl⟩ := List.forall_mem_cons.1 h
    rw [List.foldlM_cons, ha, List.foldl_cons]
    exact ih (g b a) hl

theorem anyM_eq_ok_any {f : α → Except ε Bool} {g : α → Bool} {l : List α}
    (h : ∀ a ∈ l, f a = .ok (g a)) : l.anyM f = .ok (l.any g) := by
  induction l with
  | nil => rfl
  | cons a l ih =>
    obtain ⟨ha, hl⟩ := List.forall_mem_cons.1 h
    rw [List.anyM, ha, List.any_cons]
    cases hg : g a with
    | true => rfl
    | false => exact ih hl

theorem exists_of_mapM_eq_error {f : α → Except ε β} {l : List α} {e : ε}
    (h : l.mapM f = .error e) : ∃ a ∈ l, f a = .error e := by
  induction l with
  | nil => cases h
  | cons a l ih =>
    rw [List.mapM_cons, bind_eq_error_iff] at h
    rcases h with h | ⟨b, -, h⟩
    · exact ⟨a, List.mem_cons_self, h⟩
    · rcases bind_eq_error_iff.1 h with h | ⟨bs, -, h⟩
      · obtain ⟨a', ha', h'⟩ := ih h
        exact ⟨a', List.mem_cons_of_mem a ha', h'⟩
      · cases h

/-- A loop with a state fails at an element, after the elements before it have succeeded. -/
theorem exists_of_foldlM_eq_error {f : β → α → Except ε β} {l : List α} {b : β} {e : ε}
    (h : l.foldlM f b = .error e) :
    ∃ before x after b', l = before ++ x :: after ∧ before.foldlM f b = .ok b' ∧
      f b' x = .error e := by
  induction l generalizing b with
  | nil => cases h
  | cons a l ih =>
    rw [List.foldlM_cons, bind_eq_error_iff] at h
    rcases h with h | ⟨b₁, hb₁, h⟩
    · exact ⟨[], a, l, b, rfl, rfl, h⟩
    · obtain ⟨before, x, after, b', rfl, hbefore, hx⟩ := ih h
      refine ⟨a :: before, x, after, b', rfl, ?_, hx⟩
      rw [List.foldlM_cons, hb₁]
      exact hbefore

namespace Attempt

theorem outcome_bind_eq_ok_iff {x : Attempt ε α} {f : α → Attempt ε β} {b : β} :
    (x >>= f).outcome = .ok b ↔ ∃ a, x.outcome = .ok a ∧ (f a).outcome = .ok b := by
  rw [outcome_bind, bind_eq_ok_iff]

/-- An attempt that goes on by returning something fails where it failed before. -/
theorem outcome_bind_pure_eq_error_iff {x : Attempt ε α} {f : α → β} {e : ε} :
    (x >>= fun a => pure (f a)).outcome = .error e ↔ x.outcome = .error e := by
  simp only [outcome_bind, outcome_pure, bind_eq_error_iff, reduceCtorEq, and_false, exists_false,
    or_false]

theorem outcome_foldlM (f : β → α → Attempt ε β) (l : List α) (b : β) :
    (l.foldlM f b).outcome = l.foldlM (fun b a => (f b a).outcome) b := by
  induction l generalizing b with
  | nil => rfl
  | cons a l ih =>
    rw [List.foldlM_cons, List.foldlM_cons, outcome_bind]
    exact congrArg _ (funext ih)

theorem outcome_mapM (f : α → Attempt ε β) (l : List α) :
    (l.mapM f).outcome = l.mapM fun a => (f a).outcome := by
  induction l with
  | nil => rfl
  | cons a l ih =>
    simp only [List.mapM_cons, outcome_bind, outcome_pure, ih]
    rfl

/-! ### What sequences and loops report -/

theorem events_bind_of_ok {x : Attempt ε α} {f : α → Attempt ε β} {a : α}
    (h : x.outcome = .ok a) : (x >>= f).events = x.events ++ (f a).events := by
  show x.events ++ (ExceptT.bindCont f x.outcome).events = _
  rw [h]
  rfl

theorem events_bind_of_error {x : Attempt ε α} {f : α → Attempt ε β} {e : ε}
    (h : x.outcome = .error e) : (x >>= f).events = x.events := by
  show x.events ++ (ExceptT.bindCont f x.outcome).events = _
  rw [h]
  exact List.append_nil _

theorem events_bind_pure (x : Attempt ε α) (f : α → β) :
    (x >>= fun a => pure (f a)).events = x.events := by
  cases hx : x.outcome with
  | error e => exact events_bind_of_error hx
  | ok a => rw [events_bind_of_ok hx, events_pure, List.append_nil]

theorem mem_events_bind {x : Attempt ε α} {f : α → Attempt ε β} {ev : Event}
    (h : ev ∈ (x >>= f).events) : ev ∈ x.events ∨ ∃ a, x.outcome = .ok a ∧ ev ∈ (f a).events := by
  cases hx : x.outcome with
  | error e =>
    rw [events_bind_of_error hx] at h
    exact .inl h
  | ok a =>
    rw [events_bind_of_ok hx, List.mem_append] at h
    exact h.imp_right fun h => ⟨a, rfl, h⟩

theorem mem_events_mapM {f : α → Attempt ε β} {l : List α} {bs : List β} {ev : Event}
    (h : (l.mapM f).outcome = .ok bs) : ev ∈ (l.mapM f).events ↔ ∃ a ∈ l, ev ∈ (f a).events := by
  induction l generalizing bs with
  | nil => simp
  | cons a l ih =>
    rw [List.mapM_cons] at h ⊢
    obtain ⟨b, hb, h⟩ := outcome_bind_eq_ok_iff.1 h
    obtain ⟨bs', hbs, -⟩ := outcome_bind_eq_ok_iff.1 h
    rw [events_bind_of_ok hb, events_bind_of_ok hbs, events_pure, List.append_nil, List.mem_append,
      ih hbs, List.exists_mem_cons_iff]

end Attempt

end TreeControl
