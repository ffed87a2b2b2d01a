import Mathlib.Data.List.Forall2
import TreeControl.Grammar.Prediction
import TreeControl.Proofs.Grammar.Derivation

/-! # The predictions of a grammar are closed under its rules

A pass over the rules leaves every row as it was or makes it heavier (`Grows`), and the weight of a
table is bounded, so both loops end with a table that no rule changes: the bound on their passes is
large enough.  Such a table is closed (`Closed`): what the rules say about emptiness, first and
following symbols is in it.

From that, by induction on derivation trees: a tree without a sentence has a nullable root, the
first symbol of a sentence is a first symbol of the root, and what comes after a subtree can follow
its root (`Closed.after_subtree`). -/

namespace TreeControl

namespace OrdSet

variable {α : Type} [Ord α] [Std.TransOrd α]

theorem size_le_of_subset {s : OrdSet α} {l : List α} (h : ∀ x ∈ s, x ∈ l) :
    s.size ≤ l.length :=
  (nodup_toList s).length_le_of_subset h

theorem eq_or_size_lt {s t : OrdSet α} (h : ∀ x ∈ s, x ∈ t) : s = t ∨ s.size < t.size := by
  by_cases hback : ∀ x ∈ t, x ∈ s
  · exact .inl (ext fun x => ⟨h x, hback x⟩)
  · -- A member that is missing makes the smaller set longer without a repetition.
    right
    rw [not_forall] at hback
    obtain ⟨x, hx⟩ := hback
    rw [Classical.not_imp] at hx
    have hnodup : (x :: s.toList).Nodup := List.nodup_cons.2 ⟨hx.2, nodup_toList s⟩
    have hsub : x :: s.toList ⊆ t.toList := List.cons_subset.2 ⟨hx.1, h⟩
    exact hnodup.length_le_of_subset hsub

end OrdSet

namespace Prediction

variable {g : Grammar} {p q p' : Prediction} {r : Rule} {s x : Symbol}

/-! ### Tables that grow -/

/-- Every row is as it was or weighs more. -/
def Grows (w : Prospect → Nat) (p q : Prediction) : Prop :=
  List.Forall₂ (fun a b => a.1 = b.1 ∧ (a.2 = b.2 ∨ w a.2 < w b.2))
    p.prospects.entries q.prospects.entries

/-- The weight of all rows. -/
def weight (w : Prospect → Nat) (p : Prediction) : Nat :=
  p.prospects.entries.foldr (fun e n => w e.2 + n) 0

variable {w : Prospect → Nat}

theorem Grows.refl (w : Prospect → Nat) (p : Prediction) : Grows w p p :=
  List.forall₂_same.2 fun _ _ => ⟨rfl, .inl rfl⟩

theorem Grows.trans (h : Grows w p q) (h' : Grows w q p') : Grows w p p' := by
  unfold Grows at h h' ⊢
  generalize p.prospects.entries = as at h
  generalize q.prospects.entries = bs at h h'
  generalize p'.prospects.entries = cs at h'
  induction h generalizing cs with
  | nil => exact h'
  | cons hab _ ih =>
    cases h' with
    | cons hbc h' =>
      refine .cons ⟨hab.1.trans hbc.1, ?_⟩ (ih _ h')
      rcases hab.2 with e | hlt
      · rw [e]
        exact hbc.2
      · rcases hbc.2 with e | hlt'
        · rw [← e]
          exact .inr hlt
        · exact .inr (Nat.lt_trans hlt hlt')

theorem Grows.eq_or_weight_lt (h : Grows w p q) : p = q ∨ weight w p < weight w q := by
  have entries : p.prospects.entries = q.prospects.entries ∨ weight w p < weight w q := by
    unfold Grows at h
    unfold weight
    generalize p.prospects.entries = as at h
    generalize q.prospects.entries = bs at h
    induction h with
    | nil => exact .inl rfl
    | @cons a b as bs hab _ ih =>
      rw [List.foldr_cons, List.foldr_cons]
      rcases hab.2 with e | hlt
      · rw [Prod.ext hab.1 e]
        exact ih.imp (congrArg (b :: ·)) fun h => Nat.add_lt_add_left h _
      · right
        rcases ih with e | h
        · rw [e]
          exact Nat.add_lt_add_right hlt _
        · exact Nat.add_lt_add hlt h
  refine entries.imp_left fun e => ?_
  exact congrArg Prediction.mk (OrdMap.entries_injective e)

theorem Grows.antisymm (h : Grows w p q) (h' : Grows w q p) : p = q := by
  rcases h.eq_or_weight_lt with e | hlt
  · exact e
  · rcases h'.eq_or_weight_lt with e | hlt'
    · exact e.symm
    · omega

theorem grows_modify (p : Prediction) (k : Symbol) {f : Prospect → Prospect}
    (hf : ∀ row, row = f row ∨ w row < w (f row)) : Grows w p ⟨p.prospects.modify k f⟩ := by
  unfold Grows OrdMap.modify
  rw [List.forall₂_map_right_iff, List.forall₂_same]
  intro e _
  refine ⟨rfl, ?_⟩
  show e.2 = (if e.1 = k then f e.2 else e.2) ∨ w e.2 < w (if e.1 = k then f e.2 else e.2)
  split
  · exact hf e.2
  · exact .inl rfl

section Folds

variable {β : Type} {step : Prediction → β → Prediction}

theorem grows_foldl (hstep : ∀ p b, Grows w p (step p b)) (l : List β) (p : Prediction) :
    Grows w p (l.foldl step p) := by
  induction l generalizing p with
  | nil => exact .refl w p
  | cons b l ih => exact (hstep p b).trans (ih (step p b))

theorem step_eq_of_foldl_eq (hstep : ∀ p b, Grows w p (step p b)) {l : List β}
    (h : l.foldl step p = p) : ∀ b ∈ l, step p b = p := by
  induction l with
  | nil => exact fun b hb => absurd hb List.not_mem_nil
  | cons a l ih =>
    have back := grows_foldl hstep l (step p a)
    rw [← List.foldl_cons (f := step), h] at back
    have first : step p a = p := ((hstep p a).antisymm back).symm
    intro b hb
    rcases List.mem_cons.1 hb with rfl | hb
    · exact first
    · rw [List.foldl_cons, first] at h
      exact ih h b hb

end Folds

/-! ### Passes grow -/

/-- The weight of what a row says about emptiness and first symbols. -/
def firstWeight (row : Prospect) : Nat := row.nullable.toNat + row.first.size

/-- The weight of what a row says about following symbols. -/
def followWeight (row : Prospect) : Nat := row.follow.size

theorem grows_learnFirst (p : Prediction) (r : Rule) : Grows firstWeight p (p.learnFirst r) := by
  refine grows_modify p r.lhs fun row => ?_
  have hfirst : row.first = row.first ∪ p.first r.rhs ∨
      row.first.size < (row.first ∪ p.first r.rhs).size :=
    OrdSet.eq_or_size_lt fun x hx => OrdSet.mem_union.2 (.inl hx)
  have hnull : row.nullable = (row.nullable || p.allNullable r.rhs) ∨
      row.nullable.toNat < (row.nullable || p.allNullable r.rhs).toNat := by
    cases row.nullable <;> cases p.allNullable r.rhs <;> simp
  unfold firstWeight
  obtain ⟨nullable, first, follow⟩ := row
  dsimp only at hfirst hnull ⊢
  rcases hnull with e | hlt
  · rw [← e]
    rcases hfirst with e' | hlt'
    · rw [← e']
      exact .inl rfl
    · exact .inr (by omega)
  · right
    rcases hfirst with e' | hlt'
    · rw [← e']
      omega
    · omega

theorem grows_gainFollow (p : Prediction) (s : Symbol) (gained : OrdSet Symbol) :
    Grows followWeight p (p.gainFollow s gained) := by
  refine grows_modify p s fun row => ?_
  have hfollow : row.follow = row.follow ∪ gained ∨
      row.follow.size < (row.follow ∪ gained).size :=
    OrdSet.eq_or_size_lt fun x hx => OrdSet.mem_union.2 (.inl hx)
  unfold followWeight
  obtain ⟨nullable, first, follow⟩ := row
  dsimp only at hfollow ⊢
  rcases hfollow with e | hlt
  · rw [← e]
    exact .inl rfl
  · exact .inr hlt

theorem grows_learnFollow (g : Grammar) (lhs : Symbol) (rhs : List Symbol) (p : Prediction) :
    Grows followWeight p (learnFollow g lhs rhs p) := by
  induction rhs generalizing p with
  | nil => exact .refl _ p
  | cons s rest ih =>
    unfold learnFollow
    refine Grows.trans ?_ (ih _)
    split
    · exact grows_gainFollow p s _
    · exact .refl _ p

/-- If a right side teaches nothing, neither does any symbol of it. -/
theorem gainFollow_eq_of_learnFollow_eq {lhs : Symbol} {rhs before rest : List Symbol}
    (h : learnFollow g lhs rhs p = p) (hrhs : rhs = before ++ s :: rest)
    (hs : s ∈ g.nonterminals) : p.gainFollow s (p.after lhs rest) = p := by
  induction before generalizing rhs with
  | nil =>
    subst hrhs
    rw [List.nil_append, learnFollow, if_pos (Grammar.isNonterminal_iff.2 hs)] at h
    have back := grows_learnFollow g lhs rest (p.gainFollow s (p.after lhs rest))
    rw [h] at back
    exact ((grows_gainFollow p s _).antisymm back).symm
  | cons y before ih =>
    subst hrhs
    rw [List.cons_append, learnFollow] at h
    have back := grows_learnFollow g lhs (before ++ s :: rest)
      (if g.isNonterminal y then p.gainFollow y (p.after lhs (before ++ s :: rest)) else p)
    rw [h] at back
    have first : (if g.isNonterminal y then p.gainFollow y (p.after lhs (before ++ s :: rest))
        else p) = p := by
      split at back
      · rename_i hy
        rw [if_pos hy]
        exact ((grows_gainFollow p y _).antisymm back).symm
      · rename_i hy
        rw [if_neg hy]
    rw [first] at h
    exact ih h rfl

/-! ### Passes stay bounded -/

/-- A table has a row for every declared symbol and not more rows than that; first symbols are
terminals, and so are following ones apart from the blank symbol. -/
structure Bounded (g : Grammar) (p : Prediction) : Prop where
  covers : ∀ s, s ∈ g.terminals ∨ s ∈ g.nonterminals → (p.prospects.get? s).isSome = true
  rows_le : p.prospects.entries.length ≤ g.terminals.size + g.nonterminals.size
  first_mem : ∀ e ∈ p.prospects.entries, ∀ x ∈ e.2.first, x ∈ g.terminals
  follow_mem : ∀ e ∈ p.prospects.entries, ∀ x ∈ e.2.follow, x = .blank ∨ x ∈ g.terminals

theorem prospect_cases (p : Prediction) (s : Symbol) :
    p.prospect s = {} ∨ (s, p.prospect s) ∈ p.prospects.entries := by
  unfold prospect
  cases h : p.prospects.get? s with
  | none => exact .inl rfl
  | some row => exact .inr (OrdMap.mem_entries_of_get? h)

theorem Bounded.mem_first_prospect (h : Bounded g p) (hx : x ∈ (p.prospect s).first) :
    x ∈ g.terminals := by
  rcases prospect_cases p s with e | he
  · rw [e] at hx
    exact absurd hx (OrdSet.not_mem_empty x)
  · exact h.first_mem _ he x hx

theorem Bounded.mem_first (h : Bounded g p) {ss : List Symbol} (hx : x ∈ p.first ss) :
    x ∈ g.terminals := by
  induction ss with
  | nil => exact absurd hx (OrdSet.not_mem_empty x)
  | cons s ss ih =>
    unfold first at hx
    split at hx
    · rcases OrdSet.mem_union.1 hx with hx | hx
      · exact h.mem_first_prospect hx
      · exact ih hx
    · exact h.mem_first_prospect hx

theorem Bounded.mem_follow (h : Bounded g p) (hx : x ∈ p.follow s) :
    x = .blank ∨ x ∈ g.terminals := by
  unfold follow at hx
  rcases prospect_cases p s with e | he
  · rw [e] at hx
    exact absurd hx (OrdSet.not_mem_empty x)
  · exact h.follow_mem _ he x hx

theorem Bounded.mem_after (h : Bounded g p) {lhs : Symbol} {rest : List Symbol}
    (hx : x ∈ p.after lhs rest) : x = .blank ∨ x ∈ g.terminals := by
  unfold after at hx
  split at hx
  · rcases OrdSet.mem_union.1 hx with hx | hx
    · exact .inr (h.mem_first hx)
    · exact h.mem_follow hx
  · exact .inr (h.mem_first hx)

theorem Bounded.modify (h : Bounded g p) {k : Symbol} {f : Prospect → Prospect}
    (hfirst : ∀ row, ∀ x ∈ (f row).first, x ∈ row.first ∨ x ∈ g.terminals)
    (hfollow : ∀ row, ∀ x ∈ (f row).follow, x ∈ row.follow ∨ x = .blank ∨ x ∈ g.terminals) :
    Bounded g ⟨p.prospects.modify k f⟩ := by
  refine ⟨fun s hs => ?_, ?_, fun e he x hx => ?_, fun e he x hx => ?_⟩
  · rw [OrdMap.get?_modify]
    split
    · rw [Option.isSome_map]
      exact h.covers s hs
    · exact h.covers s hs
  · have hlen : (p.prospects.modify k f).entries.length = p.prospects.entries.length :=
      List.length_map _
    rw [hlen]
    exact h.rows_le
  · obtain ⟨a, ha, rfl⟩ := List.mem_map.1 he
    dsimp only at hx
    split at hx
    · exact (hfirst a.2 x hx).elim (h.first_mem a ha x) id
    · exact h.first_mem a ha x hx
  · obtain ⟨a, ha, rfl⟩ := List.mem_map.1 he
    dsimp only at hx
    split at hx
    · exact (hfollow a.2 x hx).elim (h.follow_mem a ha x) id
    · exact h.follow_mem a ha x hx

theorem Bounded.learnFirst (h : Bounded g p) (r : Rule) : Bounded g (p.learnFirst r) := by
  refine h.modify (fun row x hx => ?_) fun row x hx => .inl hx
  exact (OrdSet.mem_union.1 hx).imp_right h.mem_first

theorem Bounded.passFirst (h : Bounded g p) : Bounded g (p.passFirst g) :=
  List.foldlRecOn g.rules _ h fun _ hq r _ => hq.learnFirst r

theorem Bounded.gainFollow (h : Bounded g p) {gained : OrdSet Symbol}
    (hg : ∀ x ∈ gained, x = .blank ∨ x ∈ g.terminals) : Bounded g (p.gainFollow s gained) := by
  refine h.modify (fun row x hx => .inl hx) fun row x hx => ?_
  exact (OrdSet.mem_union.1 hx).imp_right (hg x)

theorem Bounded.learnFollow (h : Bounded g p) (lhs : Symbol) (rhs : List Symbol) :
    Bounded g (Prediction.learnFollow g lhs rhs p) := by
  induction rhs generalizing p with
  | nil => exact h
  | cons s rest ih =>
    unfold Prediction.learnFollow
    refine ih ?_
    split
    · exact h.gainFollow fun x hx => h.mem_after hx
    · exact h

theorem Bounded.passFollow (h : Bounded g p) : Bounded g (p.passFollow g) :=
  List.foldlRecOn g.rules _ h fun _ hq r _ => hq.learnFollow r.lhs r.rhs

theorem Bounded.endAfterStart (h : Bounded g p) : Bounded g (p.endAfterStart g) := by
  unfold Prediction.endAfterStart
  split
  · exact h
  · exact h.gainFollow fun x hx => .inl (OrdSet.mem_singleton.1 hx)

theorem bounded_initial (g : Grammar) : Bounded g (initial g) := by
  refine ⟨fun s hs => ?_, ?_, fun e he x hx => ?_, fun e he x hx => ?_⟩
  · rw [initial, OrdMap.get?_ofKeys, if_pos (OrdSet.mem_union.2 hs)]
    rfl
  · have hlen : (initial g).prospects.entries.length = (g.terminals ∪ g.nonterminals).size :=
      List.length_map _
    rw [hlen]
    unfold OrdSet.size
    rw [← List.length_append]
    refine OrdSet.size_le_of_subset fun x hx => ?_
    exact List.mem_append.2 (OrdSet.mem_union.1 hx)
  · obtain ⟨s, -, rfl⟩ := List.mem_map.1 he
    dsimp only at hx
    split at hx
    · rename_i hs
      rw [OrdSet.mem_singleton.1 hx]
      exact Grammar.isTerminal_iff.1 hs
    · exact absurd hx (OrdSet.not_mem_empty x)
  · obtain ⟨s, -, rfl⟩ := List.mem_map.1 he
    dsimp only at hx
    split at hx
    · exact absurd hx (OrdSet.not_mem_empty x)
    · exact absurd hx (OrdSet.not_mem_empty x)

/-- First symbols are terminals, and so are following ones apart from the blank symbol. -/
theorem bounded_predict (g : Grammar) : Bounded g g.predict.value := by
  have firsts : Bounded g (saturate (passFirst g) g.predictionBound (initial g)).1 :=
    saturate_keeps (fun _ hq => hq.passFirst) (bounded_initial g)
  exact saturate_keeps (fun _ hq => hq.passFollow) firsts.endAfterStart

/-! ### The loops end -/

theorem Bounded.weight_le (h : Bounded g p)
    (hw : ∀ e ∈ p.prospects.entries, w e.2 ≤ g.terminals.size + 1) :
    weight w p ≤ (g.terminals.size + g.nonterminals.size) * (g.terminals.size + 1) := by
  have hrows : ∀ l : List (Symbol × Prospect), (∀ e ∈ l, w e.2 ≤ g.terminals.size + 1) →
      l.foldr (fun e n => w e.2 + n) 0 ≤ l.length * (g.terminals.size + 1) := by
    intro l hl
    induction l with
    | nil => exact Nat.zero_le _
    | cons e l ih =>
      obtain ⟨he, hl⟩ := List.forall_mem_cons.1 hl
      have := ih hl
      rw [List.foldr_cons, List.length_cons, Nat.succ_mul]
      omega
  exact Nat.le_trans (hrows _ hw) (Nat.mul_le_mul_right _ h.rows_le)

theorem Bounded.firstWeight_le (h : Bounded g p) :
    weight firstWeight p ≤
      (g.terminals.size + g.nonterminals.size) * (g.terminals.size + 1) := by
  refine h.weight_le fun e he => ?_
  have hfirst := OrdSet.size_le_of_subset (h.first_mem e he)
  have hnull : e.2.nullable.toNat ≤ 1 := Bool.toNat_le _
  unfold firstWeight
  unfold OrdSet.size at hfirst ⊢
  omega

theorem Bounded.followWeight_le (h : Bounded g p) :
    weight followWeight p ≤
      (g.terminals.size + g.nonterminals.size) * (g.terminals.size + 1) := by
  refine h.weight_le fun e he => ?_
  refine OrdSet.size_le_of_subset (l := .blank :: g.terminals.toList) fun x hx => ?_
  exact List.mem_cons.2 (h.follow_mem e he x hx)

/-- A pass that grows and stays bounded in weight changes nothing more after the passes that the
bound allows. -/
theorem saturated_of_grows {pass : Prediction → Prediction} (h : Bounded g p)
    (keep : ∀ q, Bounded g q → Bounded g (pass q)) (grows : ∀ q, Grows w q (pass q))
    (limit : ∀ q, Bounded g q →
      weight w q ≤ (g.terminals.size + g.nonterminals.size) * (g.terminals.size + 1)) :
    pass (saturate pass g.predictionBound p).1 = (saturate pass g.predictionBound p).1 := by
  have heavier : ∀ q, Bounded g q → pass q ≠ q → weight w q < weight w (pass q) := by
    intro q _ hne
    exact (grows q).eq_or_weight_lt.resolve_left (Ne.symm hne)
  refine saturate_fixed keep heavier limit h ?_
  unfold Grammar.predictionBound
  omega

theorem passFirst_saturated (h : Bounded g p) :
    passFirst g (saturate (passFirst g) g.predictionBound p).1 =
      (saturate (passFirst g) g.predictionBound p).1 :=
  saturated_of_grows h (fun _ hq => hq.passFirst) (grows_foldl grows_learnFirst g.rules)
    fun _ hq => hq.firstWeight_le

theorem passFollow_saturated (h : Bounded g p) :
    passFollow g (saturate (passFollow g) g.predictionBound p).1 =
      (saturate (passFollow g) g.predictionBound p).1 :=
  saturated_of_grows h (fun _ hq => hq.passFollow)
    (grows_foldl (fun q r => grows_learnFollow g r.lhs r.rhs q) g.rules)
    fun _ hq => hq.followWeight_le

/-! ### Closed tables -/

/-- Nothing that the rules say is missing from a table. -/
structure Closed (g : Grammar) (p : Prediction) : Prop where
  terminal_first : ∀ s ∈ g.terminals, s ∈ (p.prospect s).first
  rule_nullable : ∀ r ∈ g.rules, p.allNullable r.rhs = true → p.nullable r.lhs = true
  rule_first : ∀ r ∈ g.rules, ∀ x ∈ p.first r.rhs, x ∈ (p.prospect r.lhs).first
  rule_follow : ∀ r ∈ g.rules, ∀ before s rest, r.rhs = before ++ s :: rest →
    s ∈ g.nonterminals → ∀ x ∈ p.after r.lhs rest, x ∈ p.follow s
  start_follow : ∀ s, g.start = some s → .blank ∈ p.follow s

theorem prospect_modify_cases (p : Prediction) (k s : Symbol) (f : Prospect → Prospect) :
    Prediction.prospect ⟨p.prospects.modify k f⟩ s = p.prospect s ∨
      Prediction.prospect ⟨p.prospects.modify k f⟩ s = f (p.prospect s) := by
  unfold prospect
  rw [OrdMap.get?_modify]
  split
  · cases p.prospects.get? s with
    | none => exact .inl rfl
    | some row => exact .inr rfl
  · exact .inl rfl

theorem Bounded.prospect_modify (h : Bounded g p) (hs : s ∈ g.terminals ∨ s ∈ g.nonterminals)
    (f : Prospect → Prospect) :
    Prediction.prospect ⟨p.prospects.modify s f⟩ s = f (p.prospect s) := by
  obtain ⟨row, hrow⟩ := Option.isSome_iff_exists.1 (h.covers s hs)
  unfold prospect
  rw [OrdMap.get?_modify, if_pos rfl, hrow]
  rfl

/-- The tables agree about emptiness and first symbols. -/
def SameFirst (p q : Prediction) : Prop :=
  ∀ s, (q.prospect s).nullable = (p.prospect s).nullable ∧
    (q.prospect s).first = (p.prospect s).first

theorem SameFirst.trans (h : SameFirst p q) (h' : SameFirst q p') : SameFirst p p' :=
  fun s => ⟨(h' s).1.trans (h s).1, (h' s).2.trans (h s).2⟩

theorem sameFirst_gainFollow (p : Prediction) (s : Symbol) (gained : OrdSet Symbol) :
    SameFirst p (p.gainFollow s gained) := by
  intro x
  unfold gainFollow
  rcases prospect_modify_cases p s x fun row => { row with follow := row.follow ∪ gained } with
    e | e
  · rw [e]
    exact ⟨rfl, rfl⟩
  · rw [e]
    exact ⟨rfl, rfl⟩

theorem sameFirst_learnFollow (g : Grammar) (lhs : Symbol) (rhs : List Symbol) (p : Prediction) :
    SameFirst p (learnFollow g lhs rhs p) := by
  induction rhs generalizing p with
  | nil => exact fun s => ⟨rfl, rfl⟩
  | cons s rest ih =>
    unfold learnFollow
    refine SameFirst.trans ?_ (ih _)
    split
    · exact sameFirst_gainFollow p s _
    · exact fun s => ⟨rfl, rfl⟩

theorem SameFirst.nullable_eq (h : SameFirst p q) : q.nullable = p.nullable :=
  funext fun s => (h s).1

theorem SameFirst.first_eq (h : SameFirst p q) (ss : List Symbol) : q.first ss = p.first ss := by
  induction ss with
  | nil => rfl
  | cons s ss ih => rw [first, first, ih, h.nullable_eq, (h s).2]

theorem terminal_first_learnFirst (r : Rule) (h : ∀ s ∈ g.terminals, s ∈ (p.prospect s).first) :
    ∀ s ∈ g.terminals, s ∈ ((p.learnFirst r).prospect s).first := by
  intro s hs
  unfold learnFirst
  rcases prospect_modify_cases p r.lhs s fun row =>
    { row with
      nullable := row.nullable || p.allNullable r.rhs
      first := row.first ∪ p.first r.rhs } with e | e
  · rw [e]
    exact h s hs
  · rw [e]
    exact OrdSet.mem_union.2 (.inl (h s hs))

theorem mem_follow_gainFollow {gained : OrdSet Symbol} {y : Symbol} (h : x ∈ p.follow s) :
    x ∈ (p.gainFollow y gained).follow s := by
  unfold follow gainFollow at *
  rcases prospect_modify_cases p y s fun row => { row with follow := row.follow ∪ gained } with
    e | e
  · rw [e]
    exact h
  · rw [e]
    exact OrdSet.mem_union.2 (.inl h)

theorem mem_follow_learnFollow {lhs : Symbol} {rhs : List Symbol} (h : x ∈ p.follow s) :
    x ∈ (learnFollow g lhs rhs p).follow s := by
  induction rhs generalizing p with
  | nil => exact h
  | cons y rest ih =>
    unfold learnFollow
    refine ih ?_
    split
    · exact mem_follow_gainFollow h
    · exact h

/-- What the first loop ends with. -/
theorem exists_firsts (g : Grammar) (hg : g.WellFormed) :
    ∃ p, (saturate (passFirst g) g.predictionBound (initial g)).1 = p ∧ Bounded g p ∧
      (∀ s ∈ g.terminals, s ∈ (p.prospect s).first) ∧
      (∀ r ∈ g.rules, p.allNullable r.rhs = true → p.nullable r.lhs = true) ∧
      ∀ r ∈ g.rules, ∀ x ∈ p.first r.rhs, x ∈ (p.prospect r.lhs).first := by
  have hb : Bounded g (saturate (passFirst g) g.predictionBound (initial g)).1 :=
    saturate_keeps (fun q hq => hq.passFirst) (bounded_initial g)
  refine ⟨_, rfl, hb, ?_, ?_⟩
  · refine saturate_keeps (P := fun p : Prediction => ∀ s ∈ g.terminals, s ∈ (p.prospect s).first)
      (fun q hq => ?_) ?_
    · refine List.foldlRecOn
        (motive := fun p : Prediction => ∀ s ∈ g.terminals, s ∈ (p.prospect s).first)
        g.rules _ hq fun q hq r _ => ?_
      exact terminal_first_learnFirst r hq
    · intro s hs
      rw [prospect, initial, OrdMap.get?_ofKeys, if_pos (OrdSet.mem_union.2 (.inl hs)),
        if_pos (Grammar.isTerminal_iff.2 hs)]
      exact OrdSet.mem_singleton.2 rfl
  · have fixed := step_eq_of_foldl_eq grows_learnFirst (passFirst_saturated (bounded_initial g))
    generalize (saturate (passFirst g) g.predictionBound (initial g)).1 = p at hb fixed
    -- A rule that changes nothing leaves the row of its left side as it is.
    have row : ∀ r ∈ g.rules, p.prospect r.lhs =
        { p.prospect r.lhs with
          nullable := (p.prospect r.lhs).nullable || p.allNullable r.rhs
          first := (p.prospect r.lhs).first ∪ p.first r.rhs } := by
      intro r hr
      conv_lhs => rw [← fixed r hr]
      exact hb.prospect_modify (.inr (hg.lhs_mem r hr)) _
    constructor
    · intro r hr hnull
      have := congrArg Prospect.nullable (row r hr)
      simpa [nullable, hnull] using this
    · intro r hr x hx
      rw [congrArg Prospect.first (row r hr)]
      exact OrdSet.mem_union.2 (.inr hx)

theorem closed_predict (g : Grammar) (hg : g.WellFormed) : Closed g g.predict.value := by
  obtain ⟨p, hp, hb, hterm, hnull, hfirst⟩ := exists_firsts g hg
  have hvalue : g.predict.value =
      (saturate (passFollow g) g.predictionBound (p.endAfterStart g)).1 := by
    rw [← hp]
    rfl
  have hb' := bounded_predict g
  have same : SameFirst p g.predict.value := by
    rw [hvalue]
    refine saturate_keeps (P := SameFirst p) (fun q hq => ?_) ?_
    · exact List.foldlRecOn g.rules _ hq fun q hq r _ =>
        hq.trans (sameFirst_learnFollow g r.lhs r.rhs q)
    · unfold endAfterStart
      split
      · exact fun s => ⟨rfl, rfl⟩
      · exact sameFirst_gainFollow p _ _
  have fixed : passFollow g g.predict.value = g.predict.value := by
    rw [hvalue]
    exact passFollow_saturated hb.endAfterStart
  refine ⟨fun s hs => ?_, fun r hr h => ?_, fun r hr x hx => ?_, ?_, fun s hs => ?_⟩
  · rw [(same s).2]
    exact hterm s hs
  · unfold allNullable at h
    rw [same.nullable_eq] at h ⊢
    exact hnull r hr h
  · rw [same.first_eq] at hx
    rw [(same r.lhs).2]
    exact hfirst r hr x hx
  · intro r hr before s rest hrhs hs x hx
    have step := fun (q : Prediction) (r : Rule) => grows_learnFollow g r.lhs r.rhs q
    have hstep := step_eq_of_foldl_eq step fixed r hr
    have hgain := gainFollow_eq_of_learnFollow_eq hstep hrhs hs
    rw [← hgain, follow, gainFollow, hb'.prospect_modify (.inr hs)]
    exact OrdSet.mem_union.2 (.inr hx)
  · rw [hvalue]
    refine saturate_keeps (P := fun q : Prediction => Symbol.blank ∈ q.follow s) (fun q hq => ?_) ?_
    · refine List.foldlRecOn (motive := fun q : Prediction => Symbol.blank ∈ q.follow s)
        g.rules _ hq fun q hq r _ => ?_
      exact mem_follow_learnFollow hq
    · rw [endAfterStart, hs]
      dsimp only
      rw [follow, gainFollow, hb.prospect_modify (.inr (hg.start_mem s hs))]
      exact OrdSet.mem_union.2 (.inr (OrdSet.mem_singleton.2 rfl))

/-! ### Derivation trees -/

mutual

/-- The root of a tree without a sentence is nullable, and the sentence of a tree begins with a
first symbol of the root. -/
theorem Closed.begins (h : Closed g p) : (t : Tree) → g.Derives t →
    (g.yield t = [] → p.nullable t.symbol = true) ∧
      ∀ x v, g.yield t = x :: v → x ∈ (p.prospect t.symbol).first
  | .node id s ts, ht => by
    by_cases hs : s ∈ g.terminals
    · rw [Grammar.derives_leaf_iff hs] at ht
      subst ht
      rw [Grammar.yield_leaf hs]
      refine ⟨fun e => absurd e (by simp), fun x v e => ?_⟩
      cases e
      exact h.terminal_first s hs
    · rw [Grammar.derives_rule_iff hs] at ht
      rw [Grammar.yield_node hs]
      obtain ⟨hempty, hhead⟩ := h.beginsAll ts ht.2
      exact ⟨fun e => h.rule_nullable _ ht.1 (hempty e),
        fun x v e => h.rule_first _ ht.1 x (hhead x v e)⟩

theorem Closed.beginsAll (h : Closed g p) : (ts : List Tree) → (∀ t ∈ ts, g.Derives t) →
    (g.yieldAll ts = [] → p.allNullable (ts.map Tree.symbol) = true) ∧
      ∀ x v, g.yieldAll ts = x :: v → x ∈ p.first (ts.map Tree.symbol)
  | [], _ => ⟨fun _ => rfl, fun x v e => nomatch e⟩
  | t :: ts, hts => by
    obtain ⟨ht, hts⟩ := List.forall_mem_cons.1 hts
    obtain ⟨hempty, hhead⟩ := h.begins t ht
    obtain ⟨hemptyAll, hheadAll⟩ := h.beginsAll ts hts
    rw [Grammar.yieldAll_cons, List.map_cons]
    constructor
    · intro e
      obtain ⟨e, eAll⟩ := List.append_eq_nil_iff.1 e
      rw [allNullable, List.all_cons, Bool.and_eq_true]
      exact ⟨hempty e, hemptyAll eAll⟩
    · intro x v e
      rw [first]
      cases hy : g.yield t with
      | nil =>
        rw [hy, List.nil_append] at e
        rw [if_pos (hempty hy)]
        exact OrdSet.mem_union.2 (.inr (hheadAll x v e))
      | cons y u =>
        rw [hy, List.cons_append, List.cons.injEq] at e
        have hx := hhead y u hy
        rw [e.1] at hx
        split
        · exact OrdSet.mem_union.2 (.inl hx)
        · exact hx

end

/-- On the right side of a rule, what comes after the subtree of a nonterminal can follow it. -/
theorem Closed.after_subtree (h : Closed g p) (hr : r ∈ g.rules) {before : List Symbol}
    {ts : List Tree} (hrhs : r.rhs = before ++ s :: ts.map Tree.symbol)
    (hs : s ∈ g.nonterminals) (hts : ∀ t ∈ ts, g.Derives t) {v : List Symbol}
    (hv : v.headD .blank ∈ p.follow r.lhs) :
    (g.yieldAll ts ++ v).headD .blank ∈ p.follow s := by
  refine h.rule_follow r hr before s _ hrhs hs _ ?_
  obtain ⟨hempty, hhead⟩ := h.beginsAll ts hts
  unfold after
  cases hy : g.yieldAll ts with
  | nil =>
    rw [if_pos (hempty hy), List.nil_append]
    exact OrdSet.mem_union.2 (.inr hv)
  | cons x u =>
    have hx := hhead x u hy
    rw [List.cons_append, List.headD_cons]
    split
    · exact OrdSet.mem_union.2 (.inl hx)
    · exact hx

end Prediction

end TreeControl
