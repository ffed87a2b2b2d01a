import TreeControl.Grammar.Basic
import TreeControl.Proofs.Attempt

/-! # Grammars that can be built

`g.Built` says that `g` comes from the empty grammar by declarations that succeed.  Every such
grammar is well-formed (`Built.wellFormed`): a symbol is a terminal or a nonterminal but not both,
no symbol is blank, and rules and start symbol use declared symbols only.

`Augments` describes the grammar under a new start symbol: rule 0 leads to the old start symbol, the
other rules are those of the old grammar, and the new symbol occurs in none of them. -/

namespace TreeControl.Grammar

/-- The grammars that declarations make, beginning with the empty one. -/
inductive Built : Grammar → Prop
  | empty : Built {}
  | declareTerminal {g h : Grammar} {s : Symbol} : Built g → g.declareTerminal s = .ok h → Built h
  | declareNonterminal {g h : Grammar} {s : Symbol} :
      Built g → g.declareNonterminal s = .ok h → Built h
  | addRule {g h : Grammar} {r : Rule} : Built g → g.addRule r = .ok h → Built h
  | setStart {g h : Grammar} {s : Symbol} : Built g → g.setStart s = .ok h → Built h

/-- Terminals and nonterminals are apart and have names; rules and start symbol are declared. -/
structure WellFormed (g : Grammar) : Prop where
  apart : ∀ s ∈ g.terminals, ¬ s ∈ g.nonterminals
  named : ¬ Symbol.blank ∈ g.terminals ∧ ¬ Symbol.blank ∈ g.nonterminals
  lhs_mem : ∀ r ∈ g.rules, r.lhs ∈ g.nonterminals
  rhs_mem : ∀ r ∈ g.rules, ∀ s ∈ r.rhs, s ∈ g.terminals ∨ s ∈ g.nonterminals
  start_mem : ∀ s, g.start = some s → s ∈ g.nonterminals

/-- `G` is `g` under the new start symbol `top`, whose only rule leads to `start`. -/
structure Augments (G g : Grammar) (top start : Symbol) : Prop where
  start_eq : g.start = some start
  terminals_eq : G.terminals = g.terminals
  mem_nonterminals : ∀ s, s ∈ G.nonterminals ↔ s = top ∨ s ∈ g.nonterminals
  rules_eq : G.rules = ⟨top, [start]⟩ :: g.rules
  top_eq : G.start = some top
  top_not_mem : ¬ top ∈ g.terminals ∧ ¬ top ∈ g.nonterminals
  top_ne_blank : top ≠ .blank

variable {g G : Grammar} {s top start : Symbol} {r : Rule}

@[simp] theorem isTerminal_iff : g.isTerminal s = true ↔ s ∈ g.terminals := by
  simp [isTerminal]

@[simp] theorem isNonterminal_iff : g.isNonterminal s = true ↔ s ∈ g.nonterminals := by
  simp [isNonterminal]

@[simp] theorem declares_iff : g.declares s = true ↔ s ∈ g.terminals ∨ s ∈ g.nonterminals := by
  simp [declares]

/-! ### What declarations give -/

theorem checkNew_eq_ok_iff {u : Unit} :
    g.checkNew s = .ok u ↔ s ≠ .blank ∧ ¬ s ∈ g.terminals ∧ ¬ s ∈ g.nonterminals := by
  unfold checkNew
  split
  · rename_i h
    simp [Symbol.isBlank_iff.1 h]
  · rename_i hb
    have hb : s ≠ .blank := fun e => hb (Symbol.isBlank_iff.2 e)
    split
    · rename_i h
      rw [declares_iff] at h
      simp only [reduceCtorEq, false_iff]
      rintro ⟨-, ht, hn⟩
      exact h.elim ht hn
    · rename_i h
      rw [declares_iff, not_or] at h
      simp [hb, h]

theorem declareTerminal_eq_ok_iff :
    g.declareTerminal s = .ok G ↔ (s ≠ .blank ∧ ¬ s ∈ g.terminals ∧ ¬ s ∈ g.nonterminals) ∧
      G = { g with terminals := g.terminals.insert s } := by
  unfold declareTerminal
  simp only [bind_eq_ok_iff, checkNew_eq_ok_iff, pure_eq_ok_iff, exists_const]
  exact and_congr_right fun _ => eq_comm

theorem declareNonterminal_eq_ok_iff :
    g.declareNonterminal s = .ok G ↔ (s ≠ .blank ∧ ¬ s ∈ g.terminals ∧ ¬ s ∈ g.nonterminals) ∧
      G = { g with nonterminals := g.nonterminals.insert s } := by
  unfold declareNonterminal
  simp only [bind_eq_ok_iff, checkNew_eq_ok_iff, pure_eq_ok_iff, exists_const]
  exact and_congr_right fun _ => eq_comm

theorem addRule_cases (h : g.addRule r = .ok G) :
    r.lhs ∈ g.nonterminals ∧ (∀ s ∈ r.rhs, s ∈ g.terminals ∨ s ∈ g.nonterminals) ∧
      G = { g with rules := g.rules ++ [r] } := by
  unfold addRule at h
  split at h
  · cases h
  · split at h
    · cases h
    · rename_i hlhs
      split at h
      · cases h
      · rename_i hrhs
        cases h
        refine ⟨by simpa using hlhs, fun s hs => ?_, rfl⟩
        simpa using List.find?_eq_none.1 hrhs s hs

theorem setStart_cases (h : g.setStart s = .ok G) :
    s ∈ g.nonterminals ∧ G = { g with start := some s } := by
  unfold setStart at h
  split at h
  · rename_i hs
    cases h
    exact ⟨isNonterminal_iff.1 hs, rfl⟩
  · cases h

/-! ### Well-formed grammars -/

theorem WellFormed.declareTerminal (hg : g.WellFormed) (h : g.declareTerminal s = .ok G) :
    G.WellFormed := by
  obtain ⟨⟨hb, ht, hn⟩, rfl⟩ := declareTerminal_eq_ok_iff.1 h
  refine ⟨fun x hx => ?_, ⟨?_, hg.named.2⟩, hg.lhs_mem, fun r hr x hx => ?_, hg.start_mem⟩
  · rcases OrdSet.mem_insert.1 hx with rfl | hx
    · exact hn
    · exact hg.apart x hx
  · rw [OrdSet.mem_insert, not_or]
    exact ⟨Ne.symm hb, hg.named.1⟩
  · exact (hg.rhs_mem r hr x hx).imp_left fun hx => OrdSet.mem_insert.2 (.inr hx)

theorem WellFormed.declareNonterminal (hg : g.WellFormed)
    (h : g.declareNonterminal s = .ok G) : G.WellFormed := by
  obtain ⟨⟨hb, ht, hn⟩, rfl⟩ := declareNonterminal_eq_ok_iff.1 h
  have grow : ∀ x ∈ g.nonterminals, x ∈ g.nonterminals.insert s :=
    fun x hx => OrdSet.mem_insert.2 (.inr hx)
  refine ⟨fun x hx hxs => ?_, ⟨hg.named.1, ?_⟩, fun r hr => grow _ (hg.lhs_mem r hr),
    fun r hr x hx => (hg.rhs_mem r hr x hx).imp_right (grow x), fun x hx => grow x (hg.start_mem x hx)⟩
  · rcases OrdSet.mem_insert.1 hxs with rfl | hxs
    · exact ht hx
    · exact hg.apart x hx hxs
  · rw [OrdSet.mem_insert, not_or]
    exact ⟨Ne.symm hb, hg.named.2⟩

theorem WellFormed.addRule (hg : g.WellFormed) (h : g.addRule r = .ok G) : G.WellFormed := by
  obtain ⟨hlhs, hrhs, rfl⟩ := addRule_cases h
  refine ⟨hg.apart, hg.named, fun q hq => ?_, fun q hq => ?_, hg.start_mem⟩
  · rcases List.mem_append.1 hq with hq | hq
    · exact hg.lhs_mem q hq
    · rw [List.mem_singleton.1 hq]
      exact hlhs
  · rcases List.mem_append.1 hq with hq | hq
    · exact hg.rhs_mem q hq
    · rw [List.mem_singleton.1 hq]
      exact hrhs

theorem WellFormed.setStart (hg : g.WellFormed) (h : g.setStart s = .ok G) : G.WellFormed := by
  obtain ⟨hs, rfl⟩ := setStart_cases h
  refine ⟨hg.apart, hg.named, hg.lhs_mem, hg.rhs_mem, fun x hx => ?_⟩
  cases hx
  exact hs

/-- A grammar made by declarations is well-formed. -/
theorem Built.wellFormed (h : g.Built) : g.WellFormed := by
  induction h with
  | empty => exact ⟨by simp, by simp, by simp, by simp, by simp⟩
  | declareTerminal _ h ih => exact ih.declareTerminal h
  | declareNonterminal _ h ih => exact ih.declareNonterminal h
  | addRule _ h ih => exact ih.addRule h
  | setStart _ h ih => exact ih.setStart h

/-! ### A new start symbol -/

theorem mem_names_iff {name : String} :
    name ∈ g.names ↔ (⟨name⟩ : Symbol) ∈ g.terminals ∨ (⟨name⟩ : Symbol) ∈ g.nonterminals := by
  unfold names
  rw [List.mem_map]
  constructor
  · rintro ⟨s, hs, rfl⟩
    exact List.mem_append.1 hs
  · intro h
    exact ⟨⟨name⟩, List.mem_append.2 h, rfl⟩

theorem starred_not_mem (g : Grammar) (s : Symbol) :
    ¬ g.starred s ∈ g.terminals ∧ ¬ g.starred s ∈ g.nonterminals := by
  have unused := unusedName_not_mem '*' g.names (s.name.push '*')
  rwa [mem_names_iff, not_or] at unused

theorem le_length_lengthen (mark : Char) (taken : List String) (rounds : Nat) (name : String) :
    name.length ≤ (lengthen mark taken rounds name).length := by
  induction rounds generalizing name with
  | zero => exact Nat.le_refl _
  | succ rounds ih =>
    unfold lengthen
    split
    · have := ih (name.push mark)
      rw [String.length_push] at this
      omega
    · exact Nat.le_refl _

theorem starred_ne_blank (g : Grammar) (s : Symbol) : g.starred s ≠ .blank := by
  intro h
  have hlen := le_length_lengthen '*' g.names g.names.length (s.name.push '*')
  have hname : lengthen '*' g.names g.names.length (s.name.push '*') = "" :=
    congrArg Symbol.name h
  rw [hname, String.length_push, String.length_empty] at hlen
  omega

theorem exists_augments (h : g.start = some s) :
    ∃ G, g.augment = .ok G ∧ G.Augments g (g.starred s) s := by
  unfold augment
  rw [h]
  exact ⟨_, rfl, h, rfl, fun x => OrdSet.mem_insert, rfl, rfl, starred_not_mem g s,
    starred_ne_blank g s⟩

theorem augments_of_augment (h : g.augment = .ok G) : ∃ top start, G.Augments g top start := by
  cases hs : g.start with
  | none =>
    unfold augment at h
    rw [hs] at h
    cases h
  | some s =>
    obtain ⟨G', hG', haugments⟩ := exists_augments hs
    rw [hG'] at h
    cases h
    exact ⟨g.starred s, s, haugments⟩

namespace Augments

theorem rule_zero (h : G.Augments g top start) : G.rules[0]? = some ⟨top, [start]⟩ := by
  rw [h.rules_eq]
  rfl

theorem rule_succ (h : G.Augments g top start) (i : Nat) : G.rules[i + 1]? = g.rules[i]? := by
  rw [h.rules_eq, List.getElem?_cons_succ]

theorem exists_getElem? (h : G.Augments g top start) {n : Nat} (hn : n ≠ 0)
    (hr : G.rules[n]? = some r) : ∃ k, n = k + 1 ∧ g.rules[k]? = some r := by
  obtain ⟨k, rfl⟩ := Nat.exists_eq_succ_of_ne_zero hn
  exact ⟨k, rfl, (h.rule_succ k).symm.trans hr⟩

theorem mem_rules_of_ne_zero (h : G.Augments g top start) {i : Nat} (hi : i ≠ 0)
    (hr : G.rules[i]? = some r) : r ∈ g.rules := by
  obtain ⟨k, -, hr⟩ := h.exists_getElem? hi hr
  exact List.mem_of_getElem? hr

theorem declared_of_mem_rhs (h : G.Augments g top start) (hg : g.WellFormed) (hr : r ∈ G.rules) :
    ∀ x ∈ r.rhs, x ∈ g.terminals ∨ x ∈ g.nonterminals := by
  rw [h.rules_eq] at hr
  obtain rfl | hr := List.mem_cons.1 hr
  · simpa using Or.inr (hg.start_mem start h.start_eq)
  · exact hg.rhs_mem r hr

theorem top_not_mem_rhs (h : G.Augments g top start) (hg : g.WellFormed) (hr : r ∈ G.rules) :
    ¬ top ∈ r.rhs :=
  fun htop => absurd (h.declared_of_mem_rhs hg hr top htop) (not_or.2 h.top_not_mem)

theorem wellFormed (h : G.Augments g top start) (hg : g.WellFormed) : G.WellFormed := by
  have old : ∀ s ∈ g.nonterminals, s ∈ G.nonterminals :=
    fun s hs => (h.mem_nonterminals s).2 (.inr hs)
  have new : top ∈ G.nonterminals := (h.mem_nonterminals top).2 (.inl rfl)
  refine ⟨fun s hs hn => ?_, ⟨?_, fun hn => ?_⟩, fun r hr => ?_, fun r hr s hs => ?_,
    fun s hs => ?_⟩
  · rw [h.terminals_eq] at hs
    rcases (h.mem_nonterminals s).1 hn with rfl | hn
    · exact h.top_not_mem.1 hs
    · exact hg.apart s hs hn
  · rw [h.terminals_eq]
    exact hg.named.1
  · rcases (h.mem_nonterminals _).1 hn with e | hn
    · exact h.top_ne_blank e.symm
    · exact hg.named.2 hn
  · rw [h.rules_eq] at hr
    rcases List.mem_cons.1 hr with rfl | hr
    · exact new
    · exact old _ (hg.lhs_mem r hr)
  · rw [h.rules_eq] at hr
    rw [h.terminals_eq]
    rcases List.mem_cons.1 hr with rfl | hr
    · rw [List.mem_singleton.1 hs]
      exact .inr (old _ (hg.start_mem start h.start_eq))
    · exact (hg.rhs_mem r hr s hs).imp_right (old s)
  · rw [h.top_eq] at hs
    cases hs
    exact new

end Augments

end TreeControl.Grammar
