import TreeControl.Proofs.Demo
import TreeControl.Proofs.Grammar.Forms
import TreeControl.Proofs.Grammar.Prediction

/-! # Predictions are exact

What a table says of a symbol is supported if forms bear it out: a nullable symbol generates the empty
form, a first symbol begins something generated, and a following symbol comes after it in something
generated (`Grammar.CanFollow`).  Every rule that a pass learns from keeps a table supported, so the
predictions of a grammar say nothing that is not generated (`supported_predict`).

The other direction is by induction on the steps of a form: a table that is closed under the rules is
closed under rewriting, so it misses nothing that is generated.  Together, `predict_exact`. -/

namespace TreeControl

namespace Grammar

/-- A symbol can come after another: a terminal in a form that some nonterminal generates, the end of
the input in one that the start symbol generates. -/
def CanFollow (g : Grammar) (s x : Symbol) : Prop :=
  (x ∈ g.terminals ∧ ∃ u ∈ g.nonterminals, ∃ before after,
    g.Generates [u] (before ++ s :: x :: after)) ∨
  (x = .blank ∧ ∃ start, g.start = some start ∧ ∃ before, g.Generates [start] (before ++ [s]))

variable {g : Grammar} {r : Rule} {s x : Symbol} {before rest : List Symbol}

/-- What begins the rest of a right side can come after the symbol in front of it. -/
theorem canFollow_of_begins (hg : g.WellFormed) (hr : r ∈ g.rules)
    (hrhs : r.rhs = before ++ s :: rest) (hx : x ∈ g.terminals) {after : List Symbol}
    (hrest : g.Generates rest (x :: after)) : g.CanFollow s x := by
  refine .inl ⟨hx, r.lhs, hg.lhs_mem r hr, before, after, ?_⟩
  have hrule := generates_rule hr
  rw [hrhs] at hrule
  exact hrule.trans (Generates.append (.refl before) (.cons s hrest))

/-- If the rest of a right side can vanish, what comes after the left side can come after the symbol
in front of the rest. -/
theorem CanFollow.of_rule (h : g.CanFollow r.lhs x) (hr : r ∈ g.rules)
    (hrhs : r.rhs = before ++ s :: rest) (hrest : g.Generates rest []) : g.CanFollow s x := by
  -- In any context the left side is replaced by the part of the right side up to the symbol.
  have replaced : ∀ b a, g.Generates (b ++ r.lhs :: a) (b ++ before ++ s :: a) := by
    intro b a
    have hrule := (generates_rule hr).within b a
    have hvanish := hrest.within (b ++ before ++ [s]) a
    rw [hrhs] at hrule
    simp only [List.append_assoc, List.cons_append, List.nil_append] at hrule hvanish ⊢
    exact hrule.trans hvanish
  rcases h with ⟨hx, u, hu, b, a, hgen⟩ | ⟨rfl, start, hstart, b, hgen⟩
  · exact .inl ⟨hx, u, hu, b ++ before, a, hgen.trans (replaced b (x :: a))⟩
  · exact .inr ⟨rfl, start, hstart, b ++ before, hgen.trans (replaced b [])⟩

theorem CanFollow.declared (h : g.CanFollow s x) (hg : g.WellFormed) :
    s ∈ g.terminals ∨ s ∈ g.nonterminals := by
  rcases h with ⟨-, u, hu, b, a, hgen⟩ | ⟨-, start, hstart, b, hgen⟩
  · exact hg.declared_of_generates (by simpa using .inr hu) hgen s (by simp)
  · have hn := hg.start_mem start hstart
    exact hg.declared_of_generates (by simpa using .inr hn) hgen s (by simp)

end Grammar

namespace Prediction

variable {g : Grammar} {p : Prediction} {r : Rule} {s x u : Symbol} {v w ss : List Symbol}

/-! ### Sequences -/

theorem allNullable_append :
    p.allNullable (v ++ w) = true ↔ p.allNullable v = true ∧ p.allNullable w = true := by
  rw [allNullable, List.all_append, Bool.and_eq_true]
  exact Iff.rfl

theorem allNullable_cons :
    p.allNullable (s :: v) = true ↔ p.nullable s = true ∧ p.allNullable v = true := by
  rw [allNullable, List.all_cons, Bool.and_eq_true]
  exact Iff.rfl

theorem mem_first_cons :
    x ∈ p.first (s :: v) ↔
      x ∈ (p.prospect s).first ∨ p.nullable s = true ∧ x ∈ p.first v := by
  rw [first]
  split
  · rename_i hs
    simp [hs]
  · rename_i hs
    simp [hs]

theorem mem_first_append :
    x ∈ p.first (v ++ w) ↔ x ∈ p.first v ∨ p.allNullable v = true ∧ x ∈ p.first w := by
  induction v with
  | nil => simp [first, allNullable]
  | cons s v ih =>
    rw [List.cons_append, mem_first_cons, mem_first_cons, ih, allNullable_cons, and_or_left,
      and_assoc, or_assoc]

theorem mem_after :
    x ∈ p.after u w ↔ x ∈ p.first w ∨ p.allNullable w = true ∧ x ∈ p.follow u := by
  rw [after]
  split
  · rename_i hw
    simp [hw]
  · rename_i hw
    simp [hw]

theorem mem_after_append :
    x ∈ p.after u (v ++ w) ↔ x ∈ p.first v ∨ p.allNullable v = true ∧ x ∈ p.after u w := by
  rw [mem_after, mem_after, mem_first_append, allNullable_append, and_or_left, and_assoc, or_assoc]

/-! ### Tables say only what is generated -/

/-- What a row says of a symbol is generated. -/
structure RowSupported (g : Grammar) (s : Symbol) (row : Prospect) : Prop where
  nullable : row.nullable = true → g.Generates [s] []
  first : ∀ x ∈ row.first, ∃ rest, g.Generates [s] (x :: rest)
  follow : ∀ x ∈ row.follow, g.CanFollow s x

/-- What the rows of a bounded table say is generated. -/
structure Supported (g : Grammar) (p : Prediction) : Prop where
  bounded : Bounded g p
  rows : ∀ s, RowSupported g s (p.prospect s)

theorem rowSupported_empty (g : Grammar) (s : Symbol) : RowSupported g s {} := by
  refine ⟨fun h => (by cases h), fun x hx => ?_, fun x hx => ?_⟩
  · exact absurd hx (OrdSet.not_mem_empty x)
  · exact absurd hx (OrdSet.not_mem_empty x)

theorem Supported.generates_nil (h : Supported g p) (hss : p.allNullable ss = true) :
    g.Generates ss [] := by
  induction ss with
  | nil => exact .refl []
  | cons s ss ih =>
    obtain ⟨hs, hss⟩ := allNullable_cons.1 hss
    exact Grammar.Generates.append ((h.rows s).nullable hs) (ih hss)

theorem Supported.exists_generates (h : Supported g p) (hx : x ∈ p.first ss) :
    ∃ rest, g.Generates ss (x :: rest) := by
  induction ss with
  | nil => exact absurd hx (OrdSet.not_mem_empty x)
  | cons s ss ih =>
    rcases mem_first_cons.1 hx with hx | ⟨hs, hx⟩
    · obtain ⟨rest, hgen⟩ := (h.rows s).first x hx
      exact ⟨rest ++ ss, Grammar.Generates.append hgen (.refl ss)⟩
    · obtain ⟨rest, hgen⟩ := ih hx
      exact ⟨rest, Grammar.Generates.append ((h.rows s).nullable hs) hgen⟩

/-- Only the row that is replaced needs to be looked at. -/
theorem Supported.modify (h : Supported g p) {f : Prospect → Prospect}
    (hb : Bounded g ⟨p.prospects.modify s f⟩) (hf : RowSupported g s (f (p.prospect s))) :
    Supported g ⟨p.prospects.modify s f⟩ := by
  refine ⟨hb, fun x => ?_⟩
  by_cases hx : x = s
  · subst hx
    rcases prospect_modify_cases p x x f with e | e
    · rw [e]
      exact h.rows x
    · rw [e]
      exact hf
  · have e : Prediction.prospect ⟨p.prospects.modify s f⟩ x = p.prospect x := by
      rw [prospect, OrdMap.get?_modify, if_neg hx]
      rfl
    rw [e]
    exact h.rows x

theorem Supported.learnFirst (h : Supported g p) (hr : r ∈ g.rules) :
    Supported g (p.learnFirst r) := by
  have hrule := Grammar.generates_rule hr
  refine h.modify (h.bounded.learnFirst r) ⟨fun hnull => ?_, fun x hx => ?_, (h.rows r.lhs).follow⟩
  · rcases Bool.or_eq_true_iff.1 hnull with hnull | hnull
    · exact (h.rows r.lhs).nullable hnull
    · exact hrule.trans (h.generates_nil hnull)
  · rcases OrdSet.mem_union.1 hx with hx | hx
    · exact (h.rows r.lhs).first x hx
    · obtain ⟨rest, hgen⟩ := h.exists_generates hx
      exact ⟨rest, hrule.trans hgen⟩

theorem Supported.passFirst (h : Supported g p) : Supported g (p.passFirst g) :=
  List.foldlRecOn g.rules _ h fun _ hq _ hr => hq.learnFirst hr

theorem Supported.gainFollow (h : Supported g p) {gained : OrdSet Symbol}
    (hb : Bounded g (p.gainFollow s gained)) (hgained : ∀ x ∈ gained, g.CanFollow s x) :
    Supported g (p.gainFollow s gained) := by
  refine h.modify hb ⟨(h.rows s).nullable, (h.rows s).first, fun x hx => ?_⟩
  exact (OrdSet.mem_union.1 hx).elim ((h.rows s).follow x) (hgained x)

theorem Supported.learnFollow (h : Supported g p) (hg : g.WellFormed) (hr : r ∈ g.rules)
    (before : List Symbol) {rhs : List Symbol} (hrhs : r.rhs = before ++ rhs) :
    Supported g (Prediction.learnFollow g r.lhs rhs p) := by
  induction rhs generalizing p before with
  | nil => exact h
  | cons s rest ih =>
    rw [Prediction.learnFollow]
    refine ih ?_ (before ++ [s]) (by simpa using hrhs)
    split
    · refine h.gainFollow (h.bounded.gainFollow fun x hx => h.bounded.mem_after hx) fun x hx => ?_
      rcases mem_after.1 hx with hx | ⟨hnull, hx⟩
      · obtain ⟨after, hgen⟩ := h.exists_generates hx
        exact Grammar.canFollow_of_begins hg hr hrhs (h.bounded.mem_first hx) hgen
      · exact ((h.rows r.lhs).follow x hx).of_rule hr hrhs (h.generates_nil hnull)
    · exact h

theorem Supported.passFollow (h : Supported g p) (hg : g.WellFormed) :
    Supported g (p.passFollow g) :=
  List.foldlRecOn g.rules _ h fun _ hq _ hr => hq.learnFollow hg hr [] rfl

theorem supported_initial (g : Grammar) : Supported g (initial g) := by
  refine ⟨bounded_initial g, fun s => ?_⟩
  rw [prospect, initial, OrdMap.get?_ofKeys]
  split
  · rw [Option.getD_some]
    split
    · refine ⟨fun h => (by cases h), fun x hx => ⟨[], ?_⟩, fun x hx => ?_⟩
      · rw [OrdSet.mem_singleton.1 hx]
        exact .refl [s]
      · exact absurd hx (OrdSet.not_mem_empty x)
    · exact rowSupported_empty g s
  · exact rowSupported_empty g s

theorem Supported.endAfterStart (h : Supported g p) : Supported g (p.endAfterStart g) := by
  have hb := h.bounded.endAfterStart
  unfold Prediction.endAfterStart at hb ⊢
  cases hs : g.start with
  | none => exact h
  | some start =>
    rw [hs] at hb
    refine h.gainFollow hb fun x hx => ?_
    exact .inr ⟨OrdSet.mem_singleton.1 hx, start, hs, [], .refl [start]⟩

theorem supported_predict (hg : g.WellFormed) : Supported g g.predict.value := by
  have firsts : Supported g (saturate (passFirst g) g.predictionBound (initial g)).1 :=
    saturate_keeps (fun _ hq => hq.passFirst) (supported_initial g)
  exact saturate_keeps (fun _ hq => hq.passFollow hg) firsts.endAfterStart

/-! ### Closed tables miss nothing -/

theorem Closed.allNullable_of_rewrites (h : Closed g p) (hstep : g.Rewrites v w)
    (hw : p.allNullable w = true) : p.allNullable v = true := by
  obtain ⟨before, after, hr⟩ := hstep
  obtain ⟨hw, hafter⟩ := allNullable_append.1 hw
  obtain ⟨hbefore, hrhs⟩ := allNullable_append.1 hw
  exact allNullable_append.2
    ⟨hbefore, allNullable_cons.2 ⟨h.rule_nullable _ hr hrhs, hafter⟩⟩

theorem Closed.mem_first_of_rewrites (h : Closed g p) (hstep : g.Rewrites v w)
    (hx : x ∈ p.first w) : x ∈ p.first v := by
  obtain ⟨before, after, hr⟩ := hstep
  rw [List.append_assoc, mem_first_append] at hx
  refine mem_first_append.2 (hx.imp_right fun hx => ⟨hx.1, mem_first_cons.2 ?_⟩)
  rcases mem_first_append.1 hx.2 with hx | ⟨hnull, hx⟩
  · exact .inl (h.rule_first _ hr x hx)
  · exact .inr ⟨h.rule_nullable _ hr hnull, hx⟩

theorem Closed.mem_after_of_rewrites (h : Closed g p) (hstep : g.Rewrites v w)
    (hx : x ∈ p.after u w) : x ∈ p.after u v := by
  rw [mem_after] at hx ⊢
  exact hx.imp (h.mem_first_of_rewrites hstep) fun hx =>
    ⟨h.allNullable_of_rewrites hstep hx.1, hx.2⟩

theorem Closed.allNullable_of_generates (h : Closed g p) (hgen : g.Generates ss []) :
    p.allNullable ss = true := by
  induction hgen using Relation.ReflTransGen.head_induction_on with
  | refl => rfl
  | head hstep _ ih => exact h.allNullable_of_rewrites hstep ih

theorem Closed.mem_first_of_generates (h : Closed g p) (hx : x ∈ g.terminals)
    (hgen : g.Generates ss (x :: w)) : x ∈ p.first ss := by
  induction hgen using Relation.ReflTransGen.head_induction_on with
  | refl => exact mem_first_cons.2 (.inl (h.terminal_first x hx))
  | head hstep _ ih => exact h.mem_first_of_rewrites hstep ih

/-- In a form that a symbol generates, what can come after a nonterminal, be it from the rest of the
form or from behind it, is among the symbols that follow the nonterminal. -/
theorem Closed.mem_follow_of_generates (h : Closed g p) (hg : g.WellFormed)
    (hgen : g.Generates [u] w) {before rest : List Symbol} (hw : w = before ++ s :: rest)
    (hs : s ∈ g.nonterminals) (hx : x ∈ p.after u rest) : x ∈ p.follow s := by
  induction hgen generalizing before s rest with
  | refl =>
    have hlen := congrArg List.length hw
    rw [List.length_singleton, List.length_append, List.length_cons] at hlen
    have hbefore : before = [] := List.eq_nil_of_length_eq_zero (by omega)
    have hrest : rest = [] := List.eq_nil_of_length_eq_zero (by omega)
    subst hbefore hrest
    cases hw
    simpa [mem_after, first, allNullable] using hx
  | tail _ hstep ih =>
    obtain @⟨r, b, a, hr⟩ := hstep
    rcases append_eq_append_cons_cases hw with ⟨mid, -, rfl⟩ | ⟨mid, hleft, rfl⟩
    · -- The nonterminal stands behind the symbol that was replaced.
      have hplace : b ++ r.lhs :: (mid ++ s :: rest) = (b ++ r.lhs :: mid) ++ s :: rest := by simp
      exact ih hplace hs hx
    · rcases append_eq_append_cons_cases hleft with ⟨mid', -, hrhs⟩ | ⟨mid', rfl, rfl⟩
      · -- It stands on the right side that was put there.
        refine h.rule_follow r hr mid' s mid hrhs hs x (mem_after.2 ?_)
        refine (mem_after_append.1 hx).imp_right fun hx => ⟨hx.1, ?_⟩
        exact ih rfl (hg.lhs_mem r hr) hx.2
      · -- It stands in front of the symbol that was replaced.
        have hrest : g.Rewrites (mid' ++ r.lhs :: a) (mid' ++ r.rhs ++ a) := .rule mid' a hr
        exact ih (by rw [List.append_assoc, List.cons_append]) hs
          (h.mem_after_of_rewrites hrest hx)

/-! ### Exact predictions -/

theorem allNullable_predict_iff (hg : g.WellFormed) :
    g.predict.value.allNullable ss = true ↔ g.Generates ss [] :=
  ⟨(supported_predict hg).generates_nil, (closed_predict g hg).allNullable_of_generates⟩

theorem nullable_predict_iff (hg : g.WellFormed) :
    g.predict.value.nullable s = true ↔ g.Generates [s] [] := by
  rw [← allNullable_predict_iff hg, allNullable_cons]
  simp [allNullable]

theorem mem_first_predict_iff (hg : g.WellFormed) :
    x ∈ g.predict.value.first ss ↔ x ∈ g.terminals ∧ ∃ rest, g.Generates ss (x :: rest) := by
  constructor
  · exact fun hx => ⟨(bounded_predict g).mem_first hx, (supported_predict hg).exists_generates hx⟩
  · rintro ⟨hx, rest, hgen⟩
    exact (closed_predict g hg).mem_first_of_generates hx hgen

theorem mem_follow_predict_iff (hg : g.WellFormed) (hs : s ∈ g.nonterminals) :
    x ∈ g.predict.value.follow s ↔ g.CanFollow s x := by
  have closed := closed_predict g hg
  constructor
  · exact ((supported_predict hg).rows s).follow x
  · rintro (⟨hx, u, hu, before, after, hgen⟩ | ⟨rfl, start, hstart, before, hgen⟩)
    · refine closed.mem_follow_of_generates hg hgen rfl hs (mem_after.2 (.inl ?_))
      exact mem_first_cons.2 (.inl (closed.terminal_first x hx))
    · refine closed.mem_follow_of_generates hg hgen rfl hs (mem_after.2 (.inr ⟨rfl, ?_⟩))
      exact closed.start_follow start hstart

/-- A symbol, or a list of them, is predicted to vanish exactly if it generates the empty form; its
first symbols are exactly the terminals that begin what it generates; and the symbols that follow a
nonterminal are exactly the terminals that come after it in what some nonterminal generates, and the
end of the input if it can come last in what the start symbol generates.  An undeclared symbol
generates itself alone, and nothing begins or follows it. -/
theorem predict_exact (hg : g.Built) :
    (∀ s, g.predict.value.nullable s = true ↔ g.Generates [s] []) ∧
    (∀ ss, g.predict.value.allNullable ss = true ↔ g.Generates ss []) ∧
    (∀ ss x, x ∈ g.predict.value.first ss ↔
      x ∈ g.terminals ∧ ∃ rest, g.Generates ss (x :: rest)) ∧
    (∀ s ∈ g.nonterminals, ∀ x, x ∈ g.predict.value.follow s ↔ g.CanFollow s x) ∧
    ∀ s, ¬ s ∈ g.terminals → ¬ s ∈ g.nonterminals →
      (∀ w, g.Generates [s] w ↔ w = [s]) ∧ g.predict.value.first [s] = ∅ ∧
        g.predict.value.follow s = ∅ := by
  have hg := hg.wellFormed
  refine ⟨fun s => nullable_predict_iff hg, fun ss => allNullable_predict_iff hg,
    fun ss x => mem_first_predict_iff hg, fun s hs x => mem_follow_predict_iff hg hs,
    fun s ht hn => ?_⟩
  have alone : ∀ w, g.Generates [s] w ↔ w = [s] := by
    intro w
    constructor
    · refine Grammar.eq_of_generates fun x hx r hr e => hn ?_
      rw [← List.mem_singleton.1 hx, ← e]
      exact hg.lhs_mem r hr
    · rintro rfl
      exact .refl [s]
  refine ⟨alone, OrdSet.ext fun x => ?_, OrdSet.ext fun x => ?_⟩
  · simp only [OrdSet.not_mem_empty, iff_false, mem_first_predict_iff hg, alone]
    rintro ⟨hx, rest, e⟩
    cases e
    exact ht hx
  · simp only [OrdSet.not_mem_empty, iff_false]
    intro hx
    exact (((supported_predict hg).rows s).follow x hx).declared hg |>.elim ht hn

/-- In the demonstration grammar `S` can vanish, `b` begins `S b` but nothing that `S` generates, and
what follows `S` is `b` and the end of the input. -/
theorem predict_exact_demo :
    ∃ g, Demo.grammar = .ok g ∧ g.Built ∧ g.Generates [⟨"S"⟩] [] ∧
      (∃ rest, g.Generates [⟨"S"⟩, ⟨"b"⟩] (⟨"b"⟩ :: rest)) ∧
      (¬ ∃ rest, g.Generates [⟨"S"⟩] (⟨"b"⟩ :: rest)) ∧
      (∀ x, g.CanFollow ⟨"S"⟩ x ↔ x = ⟨"b"⟩ ∨ x = .blank) ∧
      ∀ w, g.Generates [⟨"c"⟩] w ↔ w = [⟨"c"⟩] := by
  have hg := Demo.grammar_eq
  have hbuilt := Demo.built_grammar hg
  have hnull : (Demo.grammar.toOption.getD {}).predict.value.nullable ⟨"S"⟩ = true := by
    decide +kernel
  have hb : (⟨"b"⟩ : Symbol) ∈ (Demo.grammar.toOption.getD {}).terminals := by decide +kernel
  have hfirst : (⟨"b"⟩ : Symbol) ∈
      (Demo.grammar.toOption.getD {}).predict.value.first [⟨"S"⟩, ⟨"b"⟩] := by decide +kernel
  have hfirst' : ¬ (⟨"b"⟩ : Symbol) ∈
      (Demo.grammar.toOption.getD {}).predict.value.first [⟨"S"⟩] := by decide +kernel
  have hfollow : (Demo.grammar.toOption.getD {}).predict.value.follow ⟨"S"⟩ =
      .ofList [⟨"b"⟩, .blank] := by decide +kernel
  have hs : (⟨"S"⟩ : Symbol) ∈ (Demo.grammar.toOption.getD {}).nonterminals := by decide +kernel
  have hc : ¬ (⟨"c"⟩ : Symbol) ∈ (Demo.grammar.toOption.getD {}).terminals ∧
      ¬ (⟨"c"⟩ : Symbol) ∈ (Demo.grammar.toOption.getD {}).nonterminals := by decide +kernel
  obtain ⟨nullable, -, first, follow, undeclared⟩ := predict_exact hbuilt
  refine ⟨_, hg, hbuilt, (nullable _).1 hnull, ((first _ _).1 hfirst).2, fun hgen => ?_,
    fun x => ?_, (undeclared _ hc.1 hc.2).1⟩
  · exact hfirst' ((first _ _).2 ⟨hb, hgen⟩)
  · rw [← follow _ hs, hfollow]
    simp

end Prediction

end TreeControl
