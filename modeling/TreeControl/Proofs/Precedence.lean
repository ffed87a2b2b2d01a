import TreeControl.Precedence

/-! # Tables of left and right groups

A precedence table that is declared with left and right groups only decides between any two of its
symbols (`Regular.decides`).  Its verdicts hang together like comparisons: a symbol that is reduced
before another is reduced before everything that the other is reduced before, and so on for the four
ways in which two verdicts can share a symbol.  That is what lets a verdict between two neighbouring
operators stand for all the operators of their operands. -/

namespace TreeControl.Precedence

variable {p p' : Precedence} {a : Associativity} {b b' : Binding} {x y z : Symbol}
  {symbols : List Symbol} {m m' : OrdMap Symbol Binding}

/-- The tables that declarations of left and right groups make, as long as they succeed. -/
inductive Declared : Precedence → Prop
  | empty : Declared {}
  | declare {p p' : Precedence} {a : Associativity} {symbols : List Symbol} :
      Declared p → a ≠ .nonassoc → p.declare a symbols = (p', .ok ()) → Declared p'

/-- Every group has a number below the next one and one associativity, which is left or right. -/
structure Regular (p : Precedence) : Prop where
  group_lt : ∀ x b, p.bindings.get? x = some b → b.group < p.groups
  assoc : ∀ x b, p.bindings.get? x = some b → b.associativity ≠ .nonassoc
  same : ∀ x y b b', p.bindings.get? x = some b → p.bindings.get? y = some b' →
    b.group = b'.group → b.associativity = b'.associativity

/-! ### Declarations -/

theorem get?_of_bindAll (h : bindAll b symbols m = (m', none)) (hx : m'.get? x = some b') :
    b' = b ∨ m.get? x = some b' := by
  induction symbols generalizing m with
  | nil =>
    cases h
    exact .inr hx
  | cons s symbols ih =>
    rw [bindAll] at h
    split at h
    · cases h
    · rcases ih h with hb | hm
      · exact .inl hb
      · rw [OrdMap.get?_insert] at hm
        split at hm
        · exact .inl (Option.some.inj hm).symm
        · exact .inr hm

theorem Regular.declare (hp : p.Regular) (ha : a ≠ .nonassoc)
    (h : p.declare a symbols = (p', .ok ())) : p'.Regular := by
  have hbind : bindAll ⟨a, p.groups⟩ symbols p.bindings = (p'.bindings, none) ∧
      p'.groups = p.groups + 1 := by
    unfold Precedence.declare at h
    split at h
    · rename_i m hm
      cases h
      exact ⟨hm, rfl⟩
    · cases h
  have cases_of : ∀ x b, p'.bindings.get? x = some b →
      b = ⟨a, p.groups⟩ ∨ p.bindings.get? x = some b := fun x b hx => get?_of_bindAll hbind.1 hx
  refine ⟨fun x b hx => ?_, fun x b hx => ?_, fun x y b b' hx hy hgroup => ?_⟩
  · rw [hbind.2]
    rcases cases_of x b hx with rfl | hx
    · exact Nat.lt_succ_self _
    · exact Nat.lt_succ_of_lt (hp.group_lt x b hx)
  · rcases cases_of x b hx with rfl | hx
    · exact ha
    · exact hp.assoc x b hx
  · rcases cases_of x b hx with rfl | hx <;> rcases cases_of y b' hy with rfl | hy
    · rfl
    · exact absurd hgroup (Nat.ne_of_gt (hp.group_lt y b' hy))
    · exact absurd hgroup (Nat.ne_of_lt (hp.group_lt x b hx))
    · exact hp.same x y b b' hx hy hgroup

theorem Declared.regular (h : p.Declared) : p.Regular := by
  induction h with
  | empty => exact ⟨by simp, by simp, by simp⟩
  | declare _ ha h ih => exact ih.declare ha h

/-! ### Verdicts -/

theorem verdict_reduce_iff :
    p.verdict x y = .ok .reduce ↔ ∃ b b', p.bindings.get? x = some b ∧
      p.bindings.get? y = some b' ∧
      (b.group < b'.group ∨ b.group = b'.group ∧ b.associativity = .left) := by
  unfold verdict
  cases hx : p.bindings.get? x with
  | none => simp
  | some b =>
    cases hy : p.bindings.get? y with
    | none => simp
    | some b' =>
      rcases Nat.lt_trichotomy b.group b'.group with hlt | heq | hgt
      · simp [Nat.ne_of_lt hlt, hlt]
      · cases ha : b.associativity <;> simp [heq, ha]
      · simp [Nat.ne_of_gt hgt, Nat.lt_asymm hgt]

theorem verdict_shift_iff :
    p.verdict x y = .ok .shift ↔ ∃ b b', p.bindings.get? x = some b ∧
      p.bindings.get? y = some b' ∧
      (b'.group < b.group ∨ b.group = b'.group ∧ b.associativity = .right) := by
  unfold verdict
  cases hx : p.bindings.get? x with
  | none => simp
  | some b =>
    cases hy : p.bindings.get? y with
    | none => simp
    | some b' =>
      rcases Nat.lt_trichotomy b.group b'.group with hlt | heq | hgt
      · simp [Nat.ne_of_lt hlt, hlt, Nat.lt_asymm hlt]
      · cases ha : b.associativity <;> simp [heq, ha]
      · simp [Nat.ne_of_gt hgt, hgt, Nat.lt_asymm hgt]

theorem Regular.decides (hp : p.Regular) (hx : p.binds x = true) (hy : p.binds y = true) :
    p.verdict x y = .ok .reduce ∨ p.verdict x y = .ok .shift := by
  obtain ⟨b, hx⟩ := Option.isSome_iff_exists.1 hx
  obtain ⟨b', hy⟩ := Option.isSome_iff_exists.1 hy
  rw [verdict_reduce_iff, verdict_shift_iff]
  rcases Nat.lt_trichotomy b.group b'.group with hlt | heq | hgt
  · exact .inl ⟨b, b', hx, hy, .inl hlt⟩
  · cases ha : b.associativity with
    | left => exact .inl ⟨b, b', hx, hy, .inr ⟨heq, ha⟩⟩
    | right => exact .inr ⟨b, b', hx, hy, .inr ⟨heq, ha⟩⟩
    | nonassoc => exact absurd ha (hp.assoc x b hx)
  · exact .inr ⟨b, b', hx, hy, .inl hgt⟩

/-! ### Verdicts with a common symbol -/

theorem reduce_trans (hxy : p.verdict x y = .ok .reduce) (hyz : p.verdict y z = .ok .reduce) :
    p.verdict x z = .ok .reduce := by
  obtain ⟨b₁, b₂, hx, hy, hxy⟩ := verdict_reduce_iff.1 hxy
  obtain ⟨b₂', b₃, hy', hz, hyz⟩ := verdict_reduce_iff.1 hyz
  cases hy.symm.trans hy'
  refine verdict_reduce_iff.2 ⟨b₁, b₃, hx, hz, ?_⟩
  rcases hxy with hlt | ⟨heq, ha⟩
  · omega
  · rcases hyz with hlt | ⟨heq', -⟩
    · omega
    · exact .inr ⟨heq.trans heq', ha⟩

theorem shift_trans (hxy : p.verdict x y = .ok .shift) (hyz : p.verdict y z = .ok .shift) :
    p.verdict x z = .ok .shift := by
  obtain ⟨b₁, b₂, hx, hy, hxy⟩ := verdict_shift_iff.1 hxy
  obtain ⟨b₂', b₃, hy', hz, hyz⟩ := verdict_shift_iff.1 hyz
  cases hy.symm.trans hy'
  refine verdict_shift_iff.2 ⟨b₁, b₃, hx, hz, ?_⟩
  rcases hxy with hlt | ⟨heq, ha⟩
  · omega
  · rcases hyz with hlt | ⟨heq', -⟩
    · omega
    · exact .inr ⟨heq.trans heq', ha⟩

/-- What is shifted over a symbol is reduced before whatever the symbol is reduced before. -/
theorem reduce_of_shift (hxy : p.verdict x y = .ok .shift) (hxz : p.verdict x z = .ok .reduce) :
    p.verdict y z = .ok .reduce := by
  obtain ⟨b₁, b₂, hx, hy, hxy⟩ := verdict_shift_iff.1 hxy
  obtain ⟨b₁', b₃, hx', hz, hxz⟩ := verdict_reduce_iff.1 hxz
  cases hx.symm.trans hx'
  refine verdict_reduce_iff.2 ⟨b₂, b₃, hy, hz, ?_⟩
  rcases hxy with hlt | ⟨heq, ha⟩
  · omega
  · rcases hxz with hlt | ⟨-, ha'⟩
    · omega
    · cases ha.symm.trans ha'

/-- What is reduced before a symbol is shifted over whatever the symbol is shifted over. -/
theorem Regular.shift_of_reduce (hp : p.Regular) (hxy : p.verdict x y = .ok .shift)
    (hzy : p.verdict z y = .ok .reduce) : p.verdict x z = .ok .shift := by
  obtain ⟨b₁, b₂, hx, hy, hxy⟩ := verdict_shift_iff.1 hxy
  obtain ⟨b₃, b₂', hz, hy', hzy⟩ := verdict_reduce_iff.1 hzy
  cases hy.symm.trans hy'
  refine verdict_shift_iff.2 ⟨b₁, b₃, hx, hz, ?_⟩
  rcases hxy with hlt | ⟨heq, ha⟩
  · omega
  · rcases hzy with hlt | ⟨heq', ha'⟩
    · omega
    · -- Then both belong to one group, and it is not both left and right.
      have hsame := hp.same x z b₁ b₃ hx hz (heq.trans heq'.symm)
      rw [ha, ha'] at hsame
      cases hsame

end TreeControl.Precedence
