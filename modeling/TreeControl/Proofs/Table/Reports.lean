import TreeControl.Proofs.Demo
import TreeControl.Proofs.Table.Filling

/-! # Reports of kept conflicts

A table that is built under a reporting policy warns of the conflicts that it keeps, while its cells
grow: whenever a shift and a reduction, or two reductions, first meet in a cell or another candidate
comes to them.  So a placement reports a conflict of a kind if the entry has it afterwards and did
not have it before, or has it in more candidates (`Site.Reports`).  What is reported over a whole row
is what its entries have in the end (`reports_of_foldlM`), and over all rows it is what the table
lists (`build_reports`). -/

namespace TreeControl

/-- The kinds of conflicts. -/
inductive Conflict where
  | shiftReduce
  | reduceReduce
  deriving DecidableEq, Repr

/-- Whether a cell has a conflict of a kind. -/
def Cell.has (c : Cell) : Conflict → Bool
  | .shiftReduce => c.isShiftReduce
  | .reduceReduce => c.isReduceReduce

/-- An entry, which may still be empty, has a conflict of a kind. -/
def Entry.Has (kind : Conflict) : Option Entry → Prop
  | some (.act c) => c.has kind = true
  | _ => False

/-- The conflict that an event reports, with its state and its symbol. -/
def Event.conflict? : Event → Option (Conflict × Nat × Symbol)
  | .keptShiftReduce q s _ _ => some (.shiftReduce, q, s)
  | .keptReduceReduce q s _ _ => some (.reduceReduce, q, s)
  | _ => none

/-- The warnings are the reports of conflicts. -/
theorem Event.severity_eq_warn_iff {e : Event} :
    e.severity = .warn ↔ ∃ kind q s, e.conflict? = some (kind, q, s) := by
  cases e <;> simp [severity, conflict?]

theorem Event.exists_shiftReduce_iff {es : List Event} {q : Nat} {s : Symbol} :
    (∃ ev ∈ es, ev.conflict? = some (.shiftReduce, q, s)) ↔
      ∃ target rule, .keptShiftReduce q s target rule ∈ es := by
  constructor
  · rintro ⟨ev, hev, hkind⟩
    cases ev <;> cases hkind
    exact ⟨_, _, hev⟩
  · rintro ⟨target, rule, hev⟩
    exact ⟨_, hev, rfl⟩

theorem Event.exists_reduceReduce_iff {es : List Event} {q : Nat} {s : Symbol} :
    (∃ ev ∈ es, ev.conflict? = some (.reduceReduce, q, s)) ↔
      ∃ first second, .keptReduceReduce q s first second ∈ es := by
  constructor
  · rintro ⟨ev, hev, hkind⟩
    cases ev <;> cases hkind
    exact ⟨_, _, hev⟩
  · rintro ⟨first, second, hev⟩
    exact ⟨_, hev, rfl⟩

theorem Cell.isShiftReduce_iff {c : Cell} :
    c.isShiftReduce = true ↔ c.shift.isSome = true ∧ c.reduces.min?.isSome = true := by
  rw [isShiftReduce, Bool.and_eq_true, Bool.not_eq_true', OrdSet.isEmpty_eq_false_iff,
    OrdSet.isSome_min?_iff]

theorem Cell.isReduceReduce_iff {c : Cell} :
    c.isReduceReduce = true ↔ ∃ n k, n ∈ c.reduces ∧ k ∈ c.reduces ∧ n ≠ k := by
  rw [isReduceReduce, decide_eq_true_eq, OrdSet.size]
  simp only [OrdSet.mem_def]
  have hnodup := OrdSet.nodup_toList c.reduces
  generalize c.reduces.toList = l at hnodup
  rcases l with _ | ⟨n, _ | ⟨k, ks⟩⟩
  · simp
  · simp
  · have hnk : n ≠ k := fun e => (List.nodup_cons.1 hnodup).1 (by simp [e])
    exact ⟨fun _ => ⟨n, k, by simp, by simp, hnk⟩, fun _ => by simp⟩

/-! ### Single placements -/

namespace Site

variable {site : Site} {e : Option Entry} {e' : Entry} {pl : Placement} {c c' : Cell}
  {target rule other : Nat} {es es' : List Event} {P Q : Conflict → Prop}

/-- If the policy asks for reports, the events report at this place the conflicts that `P` holds of,
and otherwise there are none. -/
structure Reports (site : Site) (es : List Event) (P : Conflict → Prop) : Prop where
  sound : ∀ ev ∈ es, site.policy.report = true ∧
    ∃ kind, P kind ∧ ev.conflict? = some (kind, site.state, site.symbol)
  complete : site.policy.report = true → ∀ kind, P kind →
    ∃ ev ∈ es, ev.conflict? = some (kind, site.state, site.symbol)

theorem reports_nil (hP : ∀ kind, ¬ P kind) : site.Reports [] P where
  sound := by simp
  complete := fun _ kind h => absurd h (hP kind)

theorem Reports.append (h : site.Reports es P) (h' : site.Reports es' Q) :
    site.Reports (es ++ es') fun kind => P kind ∨ Q kind where
  sound ev hev := by
    rcases List.mem_append.1 hev with hev | hev
    · obtain ⟨hreport, kind, hP, hkind⟩ := h.sound ev hev
      exact ⟨hreport, kind, .inl hP, hkind⟩
    · obtain ⟨hreport, kind, hQ, hkind⟩ := h'.sound ev hev
      exact ⟨hreport, kind, .inr hQ, hkind⟩
  complete hreport kind hPQ := by
    rcases hPQ with hP | hQ
    · obtain ⟨ev, hev, hkind⟩ := h.complete hreport kind hP
      exact ⟨ev, List.mem_append_left _ hev, hkind⟩
    · obtain ⟨ev, hev, hkind⟩ := h'.complete hreport kind hQ
      exact ⟨ev, List.mem_append_right _ hev, hkind⟩

theorem Reports.congr (h : site.Reports es P) (hPQ : ∀ kind, P kind ↔ Q kind) :
    site.Reports es Q := by
  rwa [show Q = P from funext fun kind => propext (hPQ kind).symm]

theorem reports_single {kind : Conflict} {ev : Event}
    (hev : ev.conflict? = some (kind, site.state, site.symbol)) :
    site.Reports (if site.policy.report then [ev] else []) (· = kind) := by
  cases hreport : site.policy.report with
  | false => exact ⟨by simp, by simp [hreport]⟩
  | true => exact ⟨by simp [hreport, hev], by simp [hev]⟩

theorem reports_keepShiftReduce (h : site.policy.allowShiftReduce = true) :
    site.Reports (site.keepShiftReduce target rule).events (· = .shiftReduce) := by
  have hevents : (site.keepShiftReduce target rule).events = if site.policy.report then
      [.keptShiftReduce site.state site.symbol target (site.grammar.ruleText rule)] else [] := by
    unfold keepShiftReduce
    cases site.policy.report <;> simp [h]
  rw [hevents]
  exact reports_single rfl

theorem reports_keepReduceReduce (h : site.policy.allowReduceReduce = true) :
    site.Reports (site.keepReduceReduce rule other).events (· = .reduceReduce) := by
  have hevents : (site.keepReduceReduce rule other).events = if site.policy.report then
      [.keptReduceReduce site.state site.symbol (site.grammar.ruleText rule)
        (site.grammar.ruleText other)] else [] := by
    unfold keepReduceReduce
    cases site.policy.report <;> simp [h]
  rw [hevents]
  exact reports_single rfl

theorem reports_addShift (h : (site.addShift c target).outcome = .ok c') :
    site.Reports (site.addShift c target).events
      fun kind => kind = .shiftReduce ∧ c.shift = none ∧ c.reduces.min?.isSome = true := by
  have hallow := addShift_outcome_iff.1 h
  unfold addShift
  cases hs : c.shift with
  | some first =>
    dsimp only
    split
    · exact reports_nil (by simp)
    · exact reports_nil (by simp)
  | none =>
    cases hm : c.reduces.min? with
    | none => exact reports_nil (by simp)
    | some r =>
      have hempty : ¬ c.reduces.isEmpty = true := by
        rw [← OrdSet.min?_eq_none_iff, hm]
        simp
      have hallow : site.policy.allowShiftReduce = true := by
        simpa [hs, hempty] using And.intro (hallow.resolve_left (by simp [hs])).2.1 trivial
      show site.Reports (site.keepShiftReduce target r >>= fun _ => pure _).events _
      rw [Attempt.events_bind_pure]
      exact (reports_keepShiftReduce hallow).congr (by simp)

/-- A reduction that is added beside a shift or beside other reductions is reported. -/
theorem reports_addReduce (h : (site.addReduce c rule).outcome = .ok c') :
    site.Reports (site.addReduce c rule).events fun kind => ¬ rule ∈ c.reduces ∧
      (kind = .shiftReduce ∧ c.shift.isSome = true ∨
        kind = .reduceReduce ∧ c.reduces.min?.isSome = true) := by
  have hallow := addReduce_outcome_iff.1 h
  unfold addReduce
  split
  · exact reports_nil (by simp [*])
  · rename_i hnew
    obtain ⟨-, hsr, hrr, -⟩ := hallow.resolve_left (by simp [hnew])
    have hempty : ∀ first, c.reduces.min? = some first → ¬ c.reduces.isEmpty = true := by
      intro first hfirst
      rw [← OrdSet.min?_eq_none_iff, hfirst]
      simp
    cases hs : c.shift with
    | none =>
      cases hm : c.reduces.min? with
      | none => exact reports_nil (by simp)
      | some first =>
        have hrr := hrr.resolve_left (hempty first hm)
        show site.Reports (site.keepReduceReduce first rule >>= fun _ => pure _).events _
        rw [Attempt.events_bind_pure]
        exact (reports_keepReduceReduce hrr).congr (by simp [hnew])
    | some target =>
      have hsr := hsr.resolve_left (by simp [hs])
      cases hm : c.reduces.min? with
      | none =>
        show site.Reports (site.keepShiftReduce target rule >>= fun _ => pure _).events _
        rw [Attempt.events_bind_pure]
        exact (reports_keepShiftReduce hsr).congr (by simp [hnew])
      | some first =>
        have hrr := hrr.resolve_left (hempty first hm)
        have hkeep : (site.keepShiftReduce target rule).outcome = .ok () :=
          keepShiftReduce_outcome_iff.2 hsr
        show site.Reports (site.keepShiftReduce target rule >>= fun _ =>
          site.keepReduceReduce first rule >>= fun _ => pure _).events _
        rw [Attempt.events_bind_of_ok hkeep, Attempt.events_bind_pure]
        exact ((reports_keepShiftReduce hsr).append (reports_keepReduceReduce hrr)).congr
          (by simp [hnew])

theorem has_of_addShift (h : (site.addShift c target).outcome = .ok c') (kind : Conflict) :
    c'.has kind = true ↔ c.has kind = true ∨
      kind = .shiftReduce ∧ c.shift = none ∧ c.reduces.min?.isSome = true := by
  rcases addShift_outcome_iff.1 h with ⟨hs, rfl⟩ | ⟨hs, -, rfl⟩
  · simp [hs]
  · cases kind with
    | shiftReduce => simp [Cell.has, Cell.isShiftReduce_iff, hs]
    | reduceReduce => simp [Cell.has, Cell.isReduceReduce]

/-- With another reduction a cell has the conflicts that it had, one with its shift and one with its
other reductions. -/
theorem has_of_addReduce (h : (site.addReduce c rule).outcome = .ok c') (kind : Conflict) :
    c'.has kind = true ↔ c.has kind = true ∨ ¬ rule ∈ c.reduces ∧
      (kind = .shiftReduce ∧ c.shift.isSome = true ∨
        kind = .reduceReduce ∧ c.reduces.min?.isSome = true) := by
  rcases addReduce_outcome_iff.1 h with ⟨hr, rfl⟩ | ⟨hr, -, -, rfl⟩
  · simp [hr]
  · cases kind with
    | shiftReduce =>
      have hsome : ∃ n, n ∈ c.reduces.insert rule := ⟨rule, OrdSet.mem_insert.2 (.inl rfl)⟩
      simp only [Cell.has, Cell.isShiftReduce_iff, OrdSet.isSome_min?_iff, hsome, hr, and_true,
        not_false_eq_true, true_and, reduceCtorEq, false_and, or_false]
      constructor
      · exact .inr
      · rintro (⟨hs, -⟩ | hs)
        · exact hs
        · exact hs
    | reduceReduce =>
      simp only [Cell.has, Cell.isReduceReduce_iff, OrdSet.isSome_min?_iff, OrdSet.mem_insert, hr,
        not_false_eq_true, true_and, reduceCtorEq, false_and, false_or]
      constructor
      · rintro ⟨n, k, rfl | hn, rfl | hk, hne⟩
        · exact absurd rfl hne
        · exact .inr ⟨k, hk⟩
        · exact .inr ⟨n, hn⟩
        · exact .inl ⟨n, k, hn, hk, hne⟩
      · rintro (⟨n, k, hn, hk, hne⟩ | ⟨n, hn⟩)
        · exact ⟨n, k, .inr hn, .inr hk, hne⟩
        · exact ⟨n, rule, .inr hn, .inl rfl, fun e => hr (e ▸ hn)⟩

theorem not_has_shift (kind : Conflict) :
    ¬ Entry.Has kind (some (.act { shift := some target })) := by
  cases kind <;> exact Bool.false_ne_true

theorem not_has_reduce (kind : Conflict) :
    ¬ Entry.Has kind (some (.act { reduces := .singleton rule })) := by
  cases kind <;> exact Bool.false_ne_true

/-- A placement reports the conflicts that the entry has in more candidates than before. -/
theorem exists_reports (h : (site.place e pl).outcome = .ok e') :
    ∃ P, site.Reports (site.place e pl).events P ∧
      ∀ kind, Entry.Has kind (some e') ↔ Entry.Has kind e ∨ P kind := by
  have silent : (site.place e pl).events = [] →
      (∀ kind, Entry.Has kind (some e') ↔ Entry.Has kind e) →
      ∃ P, site.Reports (site.place e pl).events P ∧
        ∀ kind, Entry.Has kind (some e') ↔ Entry.Has kind e ∨ P kind := by
    intro hevents hhas
    rw [hevents]
    exact ⟨fun _ => False, reports_nil fun _ => id, fun kind => by rw [hhas, or_false]⟩
  rcases e with _ | (_ | q | c)
  · cases pl with
    | accept =>
      cases h
      exact silent rfl fun _ => Iff.rfl
    | goto q =>
      cases h
      exact silent rfl fun _ => Iff.rfl
    | shift q =>
      cases h
      exact silent rfl fun kind => iff_of_false (not_has_shift kind) id
    | reduce r =>
      cases h
      exact silent rfl fun kind => iff_of_false (not_has_reduce kind) id
    | deadEnd => cases h
  · cases pl with
    | accept =>
      cases h
      exact silent rfl fun _ => Iff.rfl
    | _ => cases h
  · cases pl with
    | goto q' =>
      simp only [place] at h silent ⊢
      split at h
      · rename_i hq
        rw [if_pos hq] at silent ⊢
        cases h
        exact silent rfl fun _ => Iff.rfl
      · cases h
    | _ => cases h
  · cases pl with
    | shift q =>
      obtain ⟨c', hc', h⟩ := Attempt.outcome_bind_eq_ok_iff.1 h
      cases h
      have hevents : (site.place (some (.act c)) (.shift q)).events =
          (site.addShift c q).events := Attempt.events_bind_pure _ _
      rw [hevents]
      exact ⟨_, reports_addShift hc', has_of_addShift hc'⟩
    | reduce r =>
      obtain ⟨c', hc', h⟩ := Attempt.outcome_bind_eq_ok_iff.1 h
      cases h
      have hevents : (site.place (some (.act c)) (.reduce r)).events =
          (site.addReduce c r).events := Attempt.events_bind_pure _ _
      rw [hevents]
      exact ⟨_, reports_addReduce hc', has_of_addReduce hc'⟩
    | accept =>
      simp only [place] at h
      split at h
      · cases h
      · cases h
    | goto q => cases h
    | deadEnd => cases h

end Site

/-! ### Rows -/

namespace Table

variable {g G : Grammar} {p : Prediction} {m : Means} {t : Table} {policy : Policy}
  {state q : Nat} {s : Symbol} {row row' : Row} {l : List (Symbol × Placement)} {c : Cell}
  {kind : Conflict} {ev : Event}

/-- While a row grows, the policy has the conflicts reported that the entries gain, each with the
state and the symbol. -/
structure Reports (policy : Policy) (state : Nat) (es : List Event) (row row' : Row) : Prop where
  sound : ∀ ev ∈ es, policy.report = true ∧ ∃ kind s, ev.conflict? = some (kind, state, s)
  complete : policy.report = true → ∀ kind s, Entry.Has kind (row'.get? s) ↔
    Entry.Has kind (row.get? s) ∨ ∃ ev ∈ es, ev.conflict? = some (kind, state, s)

theorem Reports.nil (policy : Policy) (state : Nat) (row : Row) :
    Reports policy state [] row row where
  sound := by simp
  complete := by simp

theorem Reports.trans {row₁ : Row} {es es' : List Event} (h : Reports policy state es row row₁)
    (h' : Reports policy state es' row₁ row') : Reports policy state (es ++ es') row row' where
  sound ev hev := (List.mem_append.1 hev).elim (h.sound ev) (h'.sound ev)
  complete hreport kind s := by
    rw [h'.complete hreport, h.complete hreport, or_assoc]
    simp only [List.mem_append, or_and_right, exists_or]

theorem reports_of_fillEntry {x : Symbol × Placement}
    (h : (fillEntry G policy state row x).outcome = .ok row') :
    Reports policy state (fillEntry G policy state row x).events row row' := by
  obtain ⟨e, hplace, h⟩ := Attempt.outcome_bind_eq_ok_iff.1 h
  cases h
  obtain ⟨P, hreports, hhas⟩ := Site.exists_reports hplace
  have hevents : (fillEntry G policy state row x).events =
      (Site.place ⟨G, policy, state, x.1⟩ (row.get? x.1) x.2).events :=
    Attempt.events_bind_pure _ _
  rw [hevents]
  refine ⟨fun ev hev => ?_, fun hreport kind s => ?_⟩
  · obtain ⟨hreport, kind, -, hkind⟩ := hreports.sound ev hev
    exact ⟨hreport, kind, x.1, hkind⟩
  · rw [OrdMap.get?_insert]
    split
    · rename_i hs
      subst hs
      rw [hhas]
      apply or_congr_right
      constructor
      · exact hreports.complete hreport kind
      · rintro ⟨ev, hev, hkind⟩
        obtain ⟨-, kind', hP, hkind'⟩ := hreports.sound ev hev
        cases hkind.symm.trans hkind'
        exact hP
    · rename_i hs
      have hnone : ¬ ∃ ev ∈ (Site.place ⟨G, policy, state, x.1⟩ (row.get? x.1) x.2).events,
          ev.conflict? = some (kind, state, s) := by
        rintro ⟨ev, hev, hkind⟩
        obtain ⟨-, kind', -, hkind'⟩ := hreports.sound ev hev
        cases hkind.symm.trans hkind'
        exact hs rfl
      rw [or_iff_left hnone]

theorem reports_of_foldlM (h : (l.foldlM (fillEntry G policy state) row).outcome = .ok row') :
    Reports policy state (l.foldlM (fillEntry G policy state) row).events row row' := by
  induction l generalizing row with
  | nil =>
    cases h
    exact .nil policy state row'
  | cons x l ih =>
    rw [List.foldlM_cons] at h ⊢
    obtain ⟨row₁, hx, h⟩ := Attempt.outcome_bind_eq_ok_iff.1 h
    rw [Attempt.events_bind_of_ok hx]
    exact (reports_of_fillEntry hx).trans (ih h)

/-! ### Whole tables -/

theorem mem_rowConflicts_iff : (s, c) ∈ rowConflicts row ↔
    row.get? s = some (.act c) ∧ c.isConflict = true := by
  unfold rowConflicts
  rw [List.mem_filterMap]
  constructor
  · rintro ⟨⟨s', e⟩, hmem, h⟩
    cases e with
    | accept => cases h
    | goto q => cases h
    | act c' =>
      dsimp only at h
      split at h
      · rename_i hc
        cases h
        exact ⟨OrdMap.get?_of_mem_entries hmem, hc⟩
      · cases h
  · rintro ⟨hget, hc⟩
    exact ⟨(s, .act c), OrdMap.mem_entries_of_get? hget, if_pos hc⟩

theorem mem_conflicts_iff : (q, s, c) ∈ t.conflicts ↔
    t.entry? q s = some (.act c) ∧ c.isConflict = true := by
  unfold conflicts entry?
  simp only [List.mem_flatMap, List.mem_map, Prod.exists, List.mem_zipIdx_iff_getElem?,
    Prod.mk.injEq, Option.bind_eq_some_iff]
  constructor
  · rintro ⟨row, i, hrow, s', c', hmem, rfl, rfl, rfl⟩
    obtain ⟨hget, hc⟩ := mem_rowConflicts_iff.1 hmem
    exact ⟨⟨row, hrow, hget⟩, hc⟩
  · rintro ⟨⟨row, hrow, hget⟩, hc⟩
    exact ⟨row, q, hrow, s, c, mem_rowConflicts_iff.2 ⟨hget, hc⟩, rfl, rfl, rfl⟩

theorem has_entry?_iff : Entry.Has kind (t.entry? q s) ↔
    ∃ c, (q, s, c) ∈ t.conflicts ∧ c.has kind = true := by
  have hconflict : ∀ c : Cell, c.has kind = true → c.isConflict = true := by
    intro c hc
    rw [Cell.isConflict, Bool.or_eq_true]
    cases kind with
    | shiftReduce => exact .inl hc
    | reduceReduce => exact .inr hc
  simp only [mem_conflicts_iff]
  constructor
  · intro h
    cases he : t.entry? q s with
    | none =>
      rw [he] at h
      exact absurd h id
    | some e =>
      rw [he] at h
      cases e with
      | accept => exact absurd h id
      | goto q => exact absurd h id
      | act c => exact ⟨c, ⟨rfl, hconflict c h⟩, h⟩
  · rintro ⟨c, ⟨he, -⟩, hc⟩
    rw [he]
    exact hc

theorem conflict?_of_prepareLevels (h : ev ∈ (prepareLevels m).events) : ev.conflict? = none := by
  unfold prepareLevels at h
  cases hA : m.automaton with
  | none =>
    rw [hA] at h
    cases h
  | some A =>
    rw [hA] at h
    have h : ev ∈ A.prepare.events := by
      rwa [← Attempt.events_adapt A.prepare BuildError.automaton,
        ← Attempt.events_bind_pure _ some]
    unfold Automaton.prepare at h
    rcases Attempt.mem_events_bind h with h | ⟨B, -, h⟩
    · rw [Attempt.events_lift] at h
      cases List.mem_singleton.1 h
      rfl
    · rw [Attempt.events_bind_pure] at h
      unfold Automaton.determinize at h
      split at h
      · cases h
      · split at h
        · cases h
        · rw [Attempt.events_bind_pure, Attempt.events_emit] at h
          cases List.mem_singleton.1 h
          rfl

theorem conflict?_of_findGroups (h : ev ∈ G.findGroups.events) : ev.conflict? = none := by
  have h : ev ∈ (List.range G.groups.length).map Event.groupFound ++
    ([.groupsFound G.groups.length G.rules.length] ++ []) := h
  simp only [List.append_nil, List.mem_append, List.mem_map, List.mem_singleton] at h
  rcases h with ⟨i, -, rfl⟩ | rfl
  · rfl
  · rfl

theorem conflict?_of_predict (h : ev ∈ G.predict.events) : ev.conflict? = none := by
  unfold Grammar.predict at h
  simp only [Traced.events_bind, Traced.events_pure, List.append_nil, List.mem_append] at h
  rcases h with h | h
  · cases List.mem_singleton.1 h
    rfl
  · cases List.mem_singleton.1 h
    rfl

theorem mem_events_build_iff (h : (build g m).outcome = .ok t) (hev : ev.conflict? ≠ none) :
    ev ∈ (build g m).events ↔ ∃ x ∈ t.grammar.groups.zipIdx,
      ev ∈ (fillRow t.grammar t.grammar.predict.value m.chosenPolicy x).events := by
  obtain ⟨hG, hD, hgroups, hrows, -, -⟩ := build_outcome_iff.1 h
  have hG : (Attempt.ofExcept (g.augment.mapError BuildError.grammar)).outcome = .ok t.grammar :=
    mapError_eq_ok_iff.2 hG
  rw [← Attempt.outcome_mapM, hgroups] at hrows
  unfold build
  rw [Attempt.events_bind_of_ok hG, Attempt.events_bind_of_ok hD,
    Attempt.events_bind_of_ok (Attempt.outcome_lift _),
    Attempt.events_bind_of_ok (Attempt.outcome_lift _), Attempt.events_bind_pure]
  simp only [Attempt.events_ofExcept, Attempt.events_lift, List.nil_append, List.mem_append]
  rw [or_iff_right fun h => hev (conflict?_of_prepareLevels h),
    or_iff_right fun h => hev (conflict?_of_findGroups h),
    or_iff_right fun h => hev (conflict?_of_predict h)]
  exact Attempt.mem_events_mapM hrows

theorem reports_row (h : (build g m).outcome = .ok t) {group : Group}
    (hgroup : t.grammar.groups[q]? = some group) : ∃ row, t.rows[q]? = some row ∧
      Reports m.chosenPolicy q
        (fillRow t.grammar t.grammar.predict.value m.chosenPolicy (group, q)).events ∅ row := by
  rcases row_cases h q with ⟨hnone, -⟩ | ⟨group', row, hgroup', hrow, hfold⟩
  · cases hnone.symm.trans hgroup
  · cases hgroup'.symm.trans hgroup
    rw [← Attempt.outcome_foldlM] at hfold
    exact ⟨row, hrow, reports_of_foldlM hfold⟩

/-- Under a reporting policy the conflicts of a kind that are reported are those that the table
has. -/
theorem reported_iff (h : (build g m).outcome = .ok t) (hreport : m.chosenPolicy.report = true)
    (kind : Conflict) (q : Nat) (s : Symbol) :
    (∃ ev ∈ (build g m).events, ev.conflict? = some (kind, q, s)) ↔
      ∃ c, (q, s, c) ∈ t.conflicts ∧ c.has kind = true := by
  rw [← has_entry?_iff, entry?]
  constructor
  · rintro ⟨ev, hev, hkind⟩
    rw [mem_events_build_iff h (by simp [hkind])] at hev
    obtain ⟨⟨group, i⟩, hgroup, hev⟩ := hev
    obtain ⟨row, hrow, hreports⟩ := reports_row h (List.mem_zipIdx_iff_getElem?.1 hgroup)
    obtain ⟨-, kind', s', hkind'⟩ := hreports.sound ev hev
    cases hkind.symm.trans hkind'
    rw [hrow, Option.bind_some, hreports.complete hreport]
    exact .inr ⟨ev, hev, hkind⟩
  · intro hhas
    rcases row_cases h q with ⟨-, hnone⟩ | ⟨group, row, hgroup, hrow, -⟩
    · rw [hnone] at hhas
      exact absurd hhas id
    · obtain ⟨row', hrow', hreports⟩ := reports_row h hgroup
      rw [hrow', Option.bind_some, hreports.complete hreport] at hhas
      obtain ⟨ev, hev, hkind⟩ := hhas.resolve_left id
      refine ⟨ev, (mem_events_build_iff h (by simp [hkind])).2 ⟨(group, q), ?_, hev⟩, hkind⟩
      exact List.mem_zipIdx_iff_getElem?.2 hgroup

/-- If the policy asks for reports, the warnings of a shift against a reduction name just the states
and symbols whose cells have such a conflict in the table, and so do the warnings of reductions
against each other.  If it does not, there are no warnings. -/
theorem build_reports (h : (build g m).outcome = .ok t) :
    (t.policy.report = true → ∀ q s,
      ((∃ target rule, .keptShiftReduce q s target rule ∈ (build g m).events) ↔
        ∃ c, (q, s, c) ∈ t.conflicts ∧ c.isShiftReduce = true) ∧
      ((∃ first second, .keptReduceReduce q s first second ∈ (build g m).events) ↔
        ∃ c, (q, s, c) ∈ t.conflicts ∧ c.isReduceReduce = true)) ∧
    (t.policy.report = false → ∀ ev ∈ (build g m).events, ev.severity ≠ .warn) := by
  obtain ⟨-, -, -, -, -, hpolicy⟩ := build_outcome_iff.1 h
  rw [hpolicy]
  refine ⟨fun hreport q s => ⟨?_, ?_⟩, fun hreport ev hev hwarn => ?_⟩
  · rw [← Event.exists_shiftReduce_iff]
    exact reported_iff h hreport .shiftReduce q s
  · rw [← Event.exists_reduceReduce_iff]
    exact reported_iff h hreport .reduceReduce q s
  · obtain ⟨kind, q, s, hkind⟩ := Event.severity_eq_warn_iff.1 hwarn
    rw [mem_events_build_iff h (by simp [hkind])] at hev
    obtain ⟨⟨group, i⟩, hgroup, hev⟩ := hev
    obtain ⟨row, -, hreports⟩ := reports_row h (List.mem_zipIdx_iff_getElem?.1 hgroup)
    have hreport' := (hreports.sound ev hev).1
    rw [hreport] at hreport'
    cases hreport'

/-- The grammar with conflicts, with and without reports. -/
theorem build_reports_choice :
    ∃ g A t t', Demo.choice = .ok g ∧ Demo.choiceLevels = .ok A ∧
      (build g { automaton := some A, report := true }).outcome = .ok t ∧
      (build g { automaton := some A }).outcome = .ok t' ∧
      t.policy.report = true ∧ t'.policy.report = false ∧ t'.conflicts ≠ [] ∧
      (∀ q s,
        ((∃ target rule, .keptShiftReduce q s target rule ∈
            (build g { automaton := some A, report := true }).events) ↔
          ∃ c, (q, s, c) ∈ t.conflicts ∧ c.isShiftReduce = true) ∧
        ((∃ first second, .keptReduceReduce q s first second ∈
            (build g { automaton := some A, report := true }).events) ↔
          ∃ c, (q, s, c) ∈ t.conflicts ∧ c.isReduceReduce = true)) ∧
      ∀ ev ∈ (build g { automaton := some A }).events, ev.severity ≠ .warn := by
  have hg := Demo.choice_eq
  have hA := Demo.choiceLevels_eq
  have hloud : (build (Demo.choice.toOption.getD {})
      { automaton := some (Demo.choiceLevels.toOption.getD {}), report := true }).outcome.toOption.map
        (fun t => t.policy.report) = some true := by
    decide +kernel
  have hquiet : (build (Demo.choice.toOption.getD {})
      { automaton := some (Demo.choiceLevels.toOption.getD {}) }).outcome.toOption.map
        (fun t => (t.policy.report, t.conflicts.isEmpty)) = some (false, false) := by
    decide +kernel
  generalize Demo.choice.toOption.getD {} = g at hg hloud hquiet
  generalize Demo.choiceLevels.toOption.getD {} = A at hA hloud hquiet
  obtain ⟨t, ht, hreport⟩ := Option.map_eq_some_iff.1 hloud
  obtain ⟨t', ht', hfacts⟩ := Option.map_eq_some_iff.1 hquiet
  obtain ⟨hsilent, hconflicts⟩ := Prod.mk.inj hfacts
  rw [toOption_eq_some_iff] at ht ht'
  exact ⟨g, A, t, t', hg, hA, ht, ht', hreport, hsilent, List.isEmpty_eq_false_iff.1 hconflicts,
    (build_reports ht).1 hreport, (build_reports ht').2 hsilent⟩

end Table

end TreeControl
