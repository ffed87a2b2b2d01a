import Mathlib.Logic.Relation
import TreeControl.Proofs.Grammar.Derivation

/-! # Sentential forms

A form is a list of symbols.  It is rewritten by replacing one symbol by the right side of a rule for
it, and it generates what any number of such steps lead to.  Terminals and undeclared symbols have no
rule and stay as they are.

Forms and derivation trees agree: a form generates a list of terminals exactly if that is the sentence
of derived trees whose roots are the form (`generates_iff_exists_trees`).  Under the new start symbol
an old form generates what it did before (`Augments.generates_old`), and the new start symbol what the
old one generated (`Augments.generates_top_iff`). -/

namespace TreeControl

theorem append_eq_append_cons_cases {α : Type} {as bs before rest : List α} {x : α}
    (h : as ++ bs = before ++ x :: rest) :
    (∃ mid, before = as ++ mid ∧ bs = mid ++ x :: rest) ∨
      ∃ mid, as = before ++ x :: mid ∧ rest = mid ++ bs := by
  rcases List.append_eq_append_iff.1 h with h | ⟨mid, rfl, hmid⟩
  · exact .inl h
  · cases mid with
    | nil => exact .inl ⟨[], by simp, hmid.symm⟩
    | cons y mid =>
      rw [List.cons_append, List.cons.injEq] at hmid
      exact .inr ⟨mid, by rw [hmid.1], hmid.2⟩

namespace Grammar

variable {g G : Grammar} {r : Rule} {s top start : Symbol} {u v v' w w' : List Symbol}

/-- One symbol of a form is replaced by the right side of a rule for it. -/
inductive Rewrites (g : Grammar) : List Symbol → List Symbol → Prop
  | rule {r : Rule} (before after : List Symbol) : r ∈ g.rules →
      Rewrites g (before ++ r.lhs :: after) (before ++ r.rhs ++ after)

/-- A form leads to another by any number of rules. -/
def Generates (g : Grammar) : List Symbol → List Symbol → Prop :=
  Relation.ReflTransGen g.Rewrites

/-- A list of terminals that the start symbol generates. -/
def Sentence (g : Grammar) (w : List Symbol) : Prop :=
  (∀ x ∈ w, x ∈ g.terminals) ∧ ∃ s, g.start = some s ∧ g.Generates [s] w

/-- Every nonterminal generates a list of terminals. -/
def Productive (g : Grammar) : Prop :=
  ∀ s ∈ g.nonterminals, ∃ w, (∀ x ∈ w, x ∈ g.terminals) ∧ g.Generates [s] w

/-! ### Parts of a form -/

theorem Generates.refl (v : List Symbol) : g.Generates v v := Relation.ReflTransGen.refl

theorem Generates.trans (h : g.Generates u v) (h' : g.Generates v w) : g.Generates u w :=
  Relation.ReflTransGen.trans h h'

theorem Rewrites.within (h : g.Rewrites v w) (before after : List Symbol) :
    g.Rewrites (before ++ v ++ after) (before ++ w ++ after) := by
  obtain ⟨b, a, hr⟩ := h
  have := Rewrites.rule (before ++ b) (a ++ after) hr
  simpa only [List.append_assoc, List.cons_append] using this

theorem Generates.within (h : g.Generates v w) (before after : List Symbol) :
    g.Generates (before ++ v ++ after) (before ++ w ++ after) := by
  induction h with
  | refl => exact .refl _
  | tail _ hstep ih => exact Relation.ReflTransGen.tail ih (hstep.within before after)

theorem Generates.append (h : g.Generates v v') (h' : g.Generates w w') :
    g.Generates (v ++ w) (v' ++ w') := by
  have left : g.Generates (v ++ w) (v' ++ w) := by simpa using h.within [] w
  have right : g.Generates (v' ++ w) (v' ++ w') := by simpa using h'.within v' []
  exact left.trans right

theorem Generates.cons (s : Symbol) (h : g.Generates v w) : g.Generates (s :: v) (s :: w) :=
  Generates.append (.refl [s]) h

theorem generates_rule (hr : r ∈ g.rules) : g.Generates [r.lhs] r.rhs := by
  refine Relation.ReflTransGen.single ?_
  simpa using Rewrites.rule [] [] hr

theorem eq_of_generates (hv : ∀ x ∈ v, ∀ r ∈ g.rules, r.lhs ≠ x) (h : g.Generates v w) : w = v := by
  induction h with
  | refl => rfl
  | tail _ hstep ih =>
    subst ih
    obtain ⟨before, after, hr⟩ := hstep
    exact absurd rfl (hv _ (by simp) _ hr)

theorem WellFormed.declared_of_generates (hg : g.WellFormed)
    (hv : ∀ x ∈ v, x ∈ g.terminals ∨ x ∈ g.nonterminals) (h : g.Generates v w) :
    ∀ x ∈ w, x ∈ g.terminals ∨ x ∈ g.nonterminals := by
  induction h with
  | refl => exact hv
  | tail _ hstep ih =>
    obtain ⟨before, after, hr⟩ := hstep
    intro x hx
    rcases List.mem_append.1 hx with hx | hx
    · rcases List.mem_append.1 hx with hx | hx
      · exact ih x (List.mem_append_left _ hx)
      · exact hg.rhs_mem _ hr x hx
    · exact ih x (List.mem_append_right _ (List.mem_cons_of_mem _ hx))

theorem Productive.generates (h : g.Productive)
    (hv : ∀ x ∈ v, x ∈ g.terminals ∨ x ∈ g.nonterminals) :
    ∃ w, (∀ x ∈ w, x ∈ g.terminals) ∧ g.Generates v w := by
  induction v with
  | nil => exact ⟨[], by simp, .refl []⟩
  | cons s v ih =>
    obtain ⟨hs, hv⟩ := List.forall_mem_cons.1 hv
    obtain ⟨w, hw, hgen⟩ := ih hv
    obtain ⟨w', hw', hgen'⟩ : ∃ w', (∀ x ∈ w', x ∈ g.terminals) ∧ g.Generates [s] w' := by
      rcases hs with hs | hs
      · exact ⟨[s], by simpa using hs, .refl [s]⟩
      · exact h s hs
    refine ⟨w' ++ w, fun x hx => ?_, Generates.append hgen' hgen⟩
    exact (List.mem_append.1 hx).elim (hw' x) (hw x)

/-! ### Forms and trees -/

mutual

/-- The root of a derived tree generates its sentence. -/
theorem Derives.generates : (t : Tree) → g.Derives t → g.Generates [t.symbol] (g.yield t)
  | .node id s ts, ht => by
    by_cases hs : s ∈ g.terminals
    · rw [derives_leaf_iff hs] at ht
      subst ht
      rw [yield_leaf hs]
      exact .refl [s]
    · obtain ⟨hrule, hts⟩ := (derives_rule_iff hs).1 ht
      rw [yield_node hs]
      exact (generates_rule hrule).trans (Derives.generatesAll ts hts)

theorem Derives.generatesAll : (ts : List Tree) → (∀ t ∈ ts, g.Derives t) →
    g.Generates (ts.map Tree.symbol) (g.yieldAll ts)
  | [], _ => .refl []
  | t :: ts, hts => by
    obtain ⟨ht, hts⟩ := List.forall_mem_cons.1 hts
    rw [yieldAll_cons]
    exact Generates.append (Derives.generates t ht) (Derives.generatesAll ts hts)

end

theorem exists_leaves (hw : ∀ x ∈ w, x ∈ g.terminals) :
    ∃ ts : List Tree, ts.map Tree.symbol = w ∧ (∀ t ∈ ts, g.Derives t) ∧ g.yieldAll ts = w := by
  induction w with
  | nil => exact ⟨[], rfl, by simp, rfl⟩
  | cons x w ih =>
    obtain ⟨hx, hw⟩ := List.forall_mem_cons.1 hw
    obtain ⟨ts, hsymbols, hderives, hyield⟩ := ih hw
    refine ⟨.node 0 x [] :: ts, ?_, ?_, ?_⟩
    · rw [List.map_cons, hsymbols]
      rfl
    · exact List.forall_mem_cons.2 ⟨(derives_leaf_iff hx).2 rfl, hderives⟩
    · rw [yieldAll_cons, yield_leaf hx, hyield]
      rfl

/-- If a rewritten form is the list of roots of derived trees, so was the form before: the trees of
the right side become the children of a new node. -/
theorem Rewrites.exists_trees (hg : g.WellFormed) (h : g.Rewrites v v') {ts : List Tree}
    (hsymbols : ts.map Tree.symbol = v') (hts : ∀ t ∈ ts, g.Derives t) :
    ∃ us : List Tree, us.map Tree.symbol = v ∧ (∀ t ∈ us, g.Derives t) ∧
      g.yieldAll us = g.yieldAll ts := by
  obtain @⟨r, before, after, hr⟩ := h
  obtain ⟨ls, as, rfl, hls, has⟩ := List.map_eq_append_iff.1 hsymbols
  obtain ⟨bs, cs, rfl, hbs, hcs⟩ := List.map_eq_append_iff.1 hls
  have hlhs : ¬ r.lhs ∈ g.terminals := fun ht => hg.apart r.lhs ht (hg.lhs_mem r hr)
  have hnode : g.Derives (.node 0 r.lhs cs) := by
    rw [derives_rule_iff hlhs, hcs]
    refine ⟨hr, fun t ht => hts t ?_⟩
    exact List.mem_append_left _ (List.mem_append_right _ ht)
  refine ⟨bs ++ .node 0 r.lhs cs :: as, ?_, fun t ht => ?_, ?_⟩
  · rw [List.map_append, List.map_cons, hbs, has]
    rfl
  · rcases List.mem_append.1 ht with ht | ht
    · exact hts t (List.mem_append_left _ (List.mem_append_left _ ht))
    · rcases List.mem_cons.1 ht with rfl | ht
      · exact hnode
      · exact hts t (List.mem_append_right _ ht)
  · rw [yieldAll_append, yieldAll_append, yieldAll_append, yieldAll_cons, yield_node hlhs,
      List.append_assoc]

/-- A form generates a list of terminals exactly if it is the list of roots of derived trees with
that sentence. -/
theorem generates_iff_exists_trees (hg : g.WellFormed) (hw : ∀ x ∈ w, x ∈ g.terminals) :
    g.Generates v w ↔
      ∃ ts : List Tree, ts.map Tree.symbol = v ∧ (∀ t ∈ ts, g.Derives t) ∧ g.yieldAll ts = w := by
  constructor
  · intro h
    induction h using Relation.ReflTransGen.head_induction_on with
    | refl => exact exists_leaves hw
    | head hstep _ ih =>
      obtain ⟨ts, hsymbols, hderives, hyield⟩ := ih
      obtain ⟨us, hsymbols', hderives', hyield'⟩ := hstep.exists_trees hg hsymbols hderives
      exact ⟨us, hsymbols', hderives', hyield'.trans hyield⟩
  · rintro ⟨ts, rfl, hts, rfl⟩
    exact Derives.generatesAll ts hts

theorem sentence_iff_exists_tree (hg : g.WellFormed) :
    g.Sentence w ↔ ∃ t, g.Derives t ∧ g.start = some t.symbol ∧ g.yield t = w := by
  constructor
  · rintro ⟨hw, s, hs, hgen⟩
    obtain ⟨ts, hsymbols, hderives, hyield⟩ := (generates_iff_exists_trees hg hw).1 hgen
    obtain ⟨t, rfl, rfl⟩ := List.map_eq_singleton_iff.1 hsymbols
    refine ⟨t, hderives t (List.mem_singleton.2 rfl), hs, ?_⟩
    rwa [yieldAll, List.flatMap_singleton] at hyield
  · rintro ⟨t, ht, hs, rfl⟩
    exact ⟨fun x hx => mem_terminals_of_mem_yield hx, t.symbol, hs, Derives.generates t ht⟩

/-! ### A new start symbol -/

/-- What old symbols generate under the new start symbol they generated before. -/
theorem Augments.generates_old (h : G.Augments g top start) (hg : g.WellFormed)
    (hv : ∀ x ∈ v, x ∈ g.terminals ∨ x ∈ g.nonterminals) (hgen : G.Generates v w) :
    g.Generates v w := by
  induction hgen with
  | refl => exact .refl v
  | tail _ hstep ih =>
    obtain ⟨before, after, hr⟩ := hstep
    rw [h.rules_eq] at hr
    rcases List.mem_cons.1 hr with rfl | hr
    · have hdeclared := hg.declared_of_generates hv ih top (by simp)
      exact absurd hdeclared (not_or.2 h.top_not_mem)
    · exact Relation.ReflTransGen.tail ih (.rule before after hr)

theorem Augments.generates (h : G.Augments g top start) (hgen : g.Generates v w) :
    G.Generates v w := by
  refine Relation.ReflTransGen.mono ?_ v w hgen
  rintro _ _ ⟨before, after, hr⟩
  refine .rule before after ?_
  rw [h.rules_eq]
  exact List.mem_cons_of_mem _ hr

/-- The new start symbol has one rule only. -/
theorem Augments.eq_start_of_rewrites (h : G.Augments g top start) (hg : g.WellFormed)
    (hstep : G.Rewrites [top] w) : w = [start] := by
  generalize hv : [top] = v at hstep
  obtain ⟨before, after, hr⟩ := hstep
  obtain ⟨rfl, hlhs, rfl⟩ : before = [] ∧ _ ∧ after = [] := by
    simpa [List.singleton_eq_append_iff] using hv
  rw [h.rules_eq] at hr
  rcases List.mem_cons.1 hr with rfl | hr
  · rfl
  · exact absurd (hlhs ▸ hg.lhs_mem _ hr) h.top_not_mem.2

/-- Beyond itself the new start symbol generates what the old one generated. -/
theorem Augments.generates_top_iff (h : G.Augments g top start) (hg : g.WellFormed) :
    G.Generates [top] w ↔ w = [top] ∨ g.Generates [start] w := by
  have hstart : ∀ x ∈ [start], x ∈ g.terminals ∨ x ∈ g.nonterminals := by
    simpa using Or.inr (hg.start_mem start h.start_eq)
  constructor
  · intro hgen
    obtain rfl | ⟨v, hstep, hrest⟩ := hgen.cases_head
    · exact .inl rfl
    · rw [h.eq_start_of_rewrites hg hstep] at hrest
      exact .inr (h.generates_old hg hstart hrest)
  · rintro (rfl | hgen)
    · exact .refl [top]
    · have hfirst : G.Generates [top] [start] :=
        generates_rule (List.mem_of_getElem? h.rule_zero)
      exact hfirst.trans (h.generates hgen)

end Grammar

end TreeControl
