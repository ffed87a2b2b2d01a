import TreeControl.Proofs.Precedence

/-! # Groups and failed declarations

A declaration that meets a symbol with a group fails there.  It keeps the symbols in front of that one
and does not use up its number, so the next declaration goes on with the group that the failed one has
begun (`after`), perhaps with another associativity (`Clashes`).

The table is coherent (`Coherent`) exactly as long as that does not happen.  Bindings are never
changed, so an incoherent table stays incoherent (`Coherent.of_after`), and one declaration makes a
coherent table incoherent exactly if it clashes (`Coherent.after_iff`).  A clash has a failed
declaration behind it (`Clashes.exists_failed`).

Coherence is what the comparisons of two symbols in both directions depend on: in different groups
they are opposite anyway (`opposed_of_ne`), and in one group they agree exactly if both symbols have
the same associativity (`agree_iff`).  Together: `groupLaw_foldl_iff`. -/

namespace TreeControl.Precedence

/-- A declaration with its arguments. -/
structure Declaration where
  associativity : Associativity
  symbols : List Symbol

/-- The table after a declaration, whether it succeeds or not. -/
def after (p : Precedence) (d : Declaration) : Precedence :=
  (p.declare d.associativity d.symbols).1

/-- The symbols of a group have one associativity. -/
def Coherent (p : Precedence) : Prop :=
  ∀ x y b b', p.bindings.get? x = some b → p.bindings.get? y = some b' →
    b.group = b'.group → b.associativity = b'.associativity

/-- Every group has a number below the next one: no failed declaration has begun a group. -/
def Settled (p : Precedence) : Prop :=
  ∀ x b, p.bindings.get? x = some b → b.group < p.groups

/-- A declaration that binds a symbol goes on with a group that a failed one has begun with another
associativity. -/
def Clashes (p : Precedence) (d : Declaration) : Prop :=
  (∃ s, d.symbols.head? = some s ∧ p.bindings.get? s = none) ∧
    ∃ x b, p.bindings.get? x = some b ∧ b.group = p.groups ∧ b.associativity ≠ d.associativity

/-- The comparisons of two symbols in both directions have the same outcome. -/
def Agree (p : Precedence) (x y : Symbol) : Prop :=
  (∃ v, p.verdict x y = .ok v ∧ p.verdict y x = .ok v) ∨
    p.verdict x y = .error (.nonassociative x) ∧ p.verdict y x = .error (.nonassociative y)

/-- The comparisons of two symbols in both directions have opposite outcomes. -/
def Opposed (p : Precedence) (x y : Symbol) : Prop :=
  p.verdict x y = .ok .reduce ∧ p.verdict y x = .ok .shift ∨
    p.verdict x y = .ok .shift ∧ p.verdict y x = .ok .reduce

/-- What the groups of a table mean for two of its symbols. -/
def GroupLaw (p : Precedence) : Prop :=
  ∀ x y b b', p.bindings.get? x = some b → p.bindings.get? y = some b' →
    (b.group = b'.group → b.associativity = b'.associativity ∧ p.Agree x y) ∧
    (b.group ≠ b'.group → p.Opposed x y)

variable {p : Precedence} {b b' : Binding} {x y s : Symbol} {symbols : List Symbol}
  {m : OrdMap Symbol Binding} {d : Declaration} {ds : List Declaration}

/-! ### What a declaration changes -/

theorem get?_bindAll_of_some (h : m.get? x = some b') :
    (bindAll b symbols m).1.get? x = some b' := by
  induction symbols generalizing m with
  | nil => exact h
  | cons s symbols ih =>
    rw [bindAll]
    split
    · exact h
    · rename_i hs
      refine ih ?_
      rw [OrdMap.get?_insert, if_neg, h]
      rintro rfl
      exact hs (Option.isSome_iff_exists.2 ⟨b', h⟩)

/-- A symbol gets a binding only from a declaration whose first symbol has none. -/
theorem get?_bindAll_cases (h : (bindAll b symbols m).1.get? x = some b') :
    m.get? x = some b' ∨ b' = b ∧ ∃ s, symbols.head? = some s ∧ m.get? s = none := by
  induction symbols generalizing m with
  | nil => exact .inl h
  | cons s symbols ih =>
    rw [bindAll] at h
    split at h
    · exact .inl h
    · rename_i hs
      have hnone : m.get? s = none := Option.not_isSome_iff_eq_none.1 hs
      obtain h | ⟨hb, -⟩ := ih h
      · rw [OrdMap.get?_insert] at h
        split at h
        · exact .inr ⟨(Option.some.inj h).symm, s, rfl, hnone⟩
        · exact .inl h
      · exact .inr ⟨hb, s, rfl, hnone⟩

theorem get?_bindAll_head (hs : symbols.head? = some s) (h : m.get? s = none) :
    (bindAll b symbols m).1.get? s = some b := by
  cases symbols with
  | nil => cases hs
  | cons s' symbols =>
    cases hs
    have hs : ¬ m.contains s = true := Option.not_isSome_iff_eq_none.2 h
    rw [bindAll, if_neg hs]
    refine get?_bindAll_of_some ?_
    rw [OrdMap.get?_insert, if_pos rfl]

theorem bindings_after (p : Precedence) (d : Declaration) :
    (p.after d).bindings = (bindAll ⟨d.associativity, p.groups⟩ d.symbols p.bindings).1 := by
  unfold after declare
  split <;> simp [*]

theorem groups_after_of_ok (h : (p.declare d.associativity d.symbols).2 = .ok ()) :
    (p.after d).groups = p.groups + 1 := by
  unfold after
  unfold declare at h ⊢
  split
  · rfl
  · simp_all

theorem get?_after_of_some (h : p.bindings.get? x = some b) :
    (p.after d).bindings.get? x = some b := by
  rw [bindings_after]
  exact get?_bindAll_of_some h

theorem get?_after_cases (h : (p.after d).bindings.get? x = some b) :
    p.bindings.get? x = some b ∨ b = ⟨d.associativity, p.groups⟩ ∧
      ∃ s, d.symbols.head? = some s ∧ p.bindings.get? s = none := by
  rw [bindings_after] at h
  exact get?_bindAll_cases h

/-! ### Coherence, one declaration after the other -/

theorem Coherent.of_after (h : (p.after d).Coherent) : p.Coherent :=
  fun x y b b' hx hy => h x y b b' (get?_after_of_some hx) (get?_after_of_some hy)

theorem Coherent.of_foldl (h : (ds.foldl Precedence.after p).Coherent) : p.Coherent := by
  induction ds generalizing p with
  | nil => exact h
  | cons d ds ih => exact (ih h).of_after

theorem Coherent.after_iff (hp : p.Coherent) (d : Declaration) :
    (p.after d).Coherent ↔ ¬ p.Clashes d := by
  constructor
  · rintro h ⟨⟨s, hs, hnone⟩, x, b, hx, hgroup, hne⟩
    have hbound : (p.after d).bindings.get? s = some ⟨d.associativity, p.groups⟩ := by
      rw [bindings_after]
      exact get?_bindAll_head hs hnone
    exact hne (h x s b _ (get?_after_of_some hx) hbound hgroup)
  · intro h x y b b' hx hy hgroup
    -- What the declaration binds agrees with what stood in its group before.
    have joined : ∀ {z c}, p.bindings.get? z = some c → c.group = p.groups →
        (∃ s, d.symbols.head? = some s ∧ p.bindings.get? s = none) →
        c.associativity = d.associativity := by
      intro z c hz hc hfirst
      exact Decidable.byContradiction fun hne => h ⟨hfirst, z, c, hz, hc, hne⟩
    obtain hx | ⟨rfl, hfirst⟩ := get?_after_cases hx
    · obtain hy | ⟨rfl, hfirst⟩ := get?_after_cases hy
      · exact hp x y b b' hx hy hgroup
      · exact joined hx hgroup hfirst
    · obtain hy | ⟨rfl, -⟩ := get?_after_cases hy
      · exact (joined hy hgroup.symm hfirst).symm
      · rfl

/-- Declarations keep a table coherent exactly if none of them clashes. -/
theorem Coherent.foldl_iff (hp : p.Coherent) :
    (ds.foldl Precedence.after p).Coherent ↔
      ∀ before d rest, ds = before ++ d :: rest → ¬ (before.foldl Precedence.after p).Clashes d := by
  induction ds generalizing p with
  | nil => simpa using hp
  | cons d ds ih =>
    constructor
    · intro h before d' rest hds
      have hd : (p.after d).Coherent := Coherent.of_foldl h
      cases before with
      | nil =>
        cases hds
        exact (hp.after_iff d).1 hd
      | cons d'' before =>
        cases hds
        exact (ih hd).1 h before d' rest rfl
    · intro h
      have hd : (p.after d).Coherent := (hp.after_iff d).2 (h [] d ds rfl)
      exact (ih hd).2 fun before d' rest hds => h (d :: before) d' rest (congrArg (d :: ·) hds)

/-! ### Failed declarations -/

theorem Settled.after (hp : p.Settled) (h : (p.declare d.associativity d.symbols).2 = .ok ()) :
    (p.after d).Settled := by
  intro x b hx
  rw [groups_after_of_ok h]
  obtain hx | ⟨rfl, -⟩ := get?_after_cases hx
  · exact Nat.lt_succ_of_lt (hp x b hx)
  · exact Nat.lt_succ_self p.groups

/-- Before a clash a declaration has failed. -/
theorem Clashes.exists_failed (hp : p.Settled) (h : (ds.foldl Precedence.after p).Clashes d) :
    ∃ before d' rest s, ds = before ++ d' :: rest ∧
      ((before.foldl Precedence.after p).declare d'.associativity d'.symbols).2 =
        .error (.duplicate s) := by
  induction ds generalizing p with
  | nil =>
    obtain ⟨-, x, b, hx, hgroup, -⟩ := h
    exact absurd hgroup (Nat.ne_of_lt (hp x b hx))
  | cons d' ds ih =>
    match hfirst : (p.declare d'.associativity d'.symbols).2 with
    | .ok () =>
      obtain ⟨before, d'', rest, s, hds, hfailed⟩ := ih (hp.after hfirst) h
      exact ⟨d' :: before, d'', rest, s, congrArg (d' :: ·) hds, hfailed⟩
    | .error e =>
      obtain ⟨s, rfl⟩ : ∃ s, e = .duplicate s := by
        unfold declare at hfirst
        split at hfirst
        · cases hfirst
        · exact ⟨_, (Except.error.inj hfirst).symm⟩
      exact ⟨[], d', ds, s, rfl, hfirst⟩

/-! ### Comparisons in both directions -/

theorem opposed_of_ne (hx : p.bindings.get? x = some b) (hy : p.bindings.get? y = some b')
    (hne : b.group ≠ b'.group) : p.Opposed x y := by
  rcases Nat.lt_or_gt_of_ne hne with hlt | hgt
  · exact .inl ⟨verdict_reduce_iff.2 ⟨b, b', hx, hy, .inl hlt⟩,
      verdict_shift_iff.2 ⟨b', b, hy, hx, .inl hlt⟩⟩
  · exact .inr ⟨verdict_shift_iff.2 ⟨b, b', hx, hy, .inl hgt⟩,
      verdict_reduce_iff.2 ⟨b', b, hy, hx, .inl hgt⟩⟩

theorem verdict_of_eq (hx : p.bindings.get? x = some b) (hy : p.bindings.get? y = some b')
    (heq : b.group = b'.group) :
    p.verdict x y = match b.associativity with
      | .left => .ok .reduce
      | .right => .ok .shift
      | .nonassoc => .error (.nonassociative x) := by
  cases hassoc : b.associativity <;> simp only [verdict, hx, hy, if_pos heq, hassoc]

theorem agree_iff (hx : p.bindings.get? x = some b) (hy : p.bindings.get? y = some b')
    (heq : b.group = b'.group) : p.Agree x y ↔ b.associativity = b'.associativity := by
  rw [Agree, verdict_of_eq hx hy heq, verdict_of_eq hy hx heq.symm]
  cases b.associativity <;> cases b'.associativity <;> simp

theorem groupLaw_iff : p.GroupLaw ↔ p.Coherent := by
  constructor
  · intro h x y b b' hx hy heq
    exact ((h x y b b' hx hy).1 heq).1
  · intro h x y b b' hx hy
    refine ⟨fun heq => ?_, opposed_of_ne hx hy⟩
    have ha := h x y b b' hx hy heq
    exact ⟨ha, (agree_iff hx hy heq).2 ha⟩

/-! ### All declarations on a new table -/

theorem coherent_empty : Coherent {} := by simp [Coherent]

/-- Whether its declarations succeed or fail, a table obeys the group law exactly if none of them goes
on with a group that a failed one has begun with another associativity. -/
theorem groupLaw_foldl_iff (ds : List Declaration) :
    (ds.foldl Precedence.after {}).GroupLaw ↔
      ∀ before d rest, ds = before ++ d :: rest →
        ¬ (before.foldl Precedence.after {}).Clashes d :=
  groupLaw_iff.trans coherent_empty.foldl_iff

/-- The right group that fails at `a` leaves `b` in group 1, and the left group declared next takes the
same number: between `b` and `c` each of the two comparisons follows its own associativity. -/
theorem groupLaw_fails_after_duplicate :
    ∃ (a b c : Symbol) (p : Precedence),
      p = [Declaration.mk .left [a], ⟨.right, [b, a]⟩, ⟨.left, [c]⟩].foldl Precedence.after {} ∧
      p.bindings.get? b = some ⟨.right, 1⟩ ∧ p.bindings.get? c = some ⟨.left, 1⟩ ∧
      p.verdict b c = .ok .shift ∧ p.verdict c b = .ok .reduce ∧ ¬ p.GroupLaw := by
  refine ⟨⟨"a"⟩, ⟨"b"⟩, ⟨"c"⟩, _, rfl, by decide, by decide, rfl, rfl, fun h => ?_⟩
  have hsame := (h ⟨"b"⟩ ⟨"c"⟩ ⟨.right, 1⟩ ⟨.left, 1⟩ (by decide) (by decide)).1 rfl
  cases hsame.1

end TreeControl.Precedence
