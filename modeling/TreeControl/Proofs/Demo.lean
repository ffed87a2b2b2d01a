import TreeControl.Demo
import TreeControl.Proofs.Attempt
import TreeControl.Proofs.Automaton.Built
import TreeControl.Proofs.Grammar.Built

/-! # The demonstration program is built by the operations

The grammar of the demonstration comes from the empty grammar by declarations, and its level
automaton from the empty automaton by the operations on automata, so what holds of every grammar and
every automaton that can be built holds of them.  No declaration or operation fails, and the grammar
has no conflicts.

A second grammar, `choice`, has a shift and two reductions in one cell, and a level automaton that
leaves one of the reductions.  A third, `arithmetic`, is ambiguous and comes with a precedence
table. -/

namespace TreeControl.Demo

theorem built_grammar {g : Grammar} (h : grammar = .ok g) : g.Built := by
  unfold grammar at h
  simp only [bind_eq_ok_iff] at h
  obtain ⟨g₁, h₁, g₂, h₂, g₃, h₃, g₄, h₄, g₅, h₅, h⟩ := h
  have hg₁ : g₁.Built := Grammar.Built.empty.declareNonterminal h₁
  have hg₃ : g₃.Built := (hg₁.declareTerminal h₂).declareTerminal h₃
  exact ((hg₃.addRule h₄).addRule h₅).setStart h

theorem built_levels {A : Automaton} (h : levels = .ok A) : A.Built := by
  unfold levels at h
  simp only [bind_eq_ok_iff] at h
  obtain ⟨A₁, h₁, A₂, h₂, A₃, h₃, A₄, h₄, A₅, h₅, A₆, h₆, h⟩ := h
  have hA₁ : A₁.Built := .addEdge (.addStates _ (.addSymbols _ .empty)) h₁
  have hA₄ : A₄.Built := ((hA₁.addEdge h₂).addEdge h₃).addEdge h₄
  exact ((hA₄.setStart h₅).setAccepting h₆).setAccepting h

theorem grammar_eq : grammar = .ok (grammar.toOption.getD {}) := by decide +kernel

theorem levels_eq : levels = .ok (levels.toOption.getD {}) := by decide +kernel

theorem prepare_levels_eq : (levels.toOption.getD {}).prepare.outcome =
    .ok ((levels.toOption.getD {}).prepare.outcome.toOption.getD {}) := by decide +kernel

theorem exists_table : ∃ t, (Table.build (grammar.toOption.getD {}) {}).outcome = .ok t := by
  have hsome : (Table.build (grammar.toOption.getD {}) {}).outcome.toOption.isSome = true := by
    decide +kernel
  obtain ⟨t, ht⟩ := Option.isSome_iff_exists.1 hsome
  exact ⟨t, toOption_eq_some_iff.1 ht⟩

/-! ### A grammar with conflicts -/

/-- The grammar `S -> A x | B x | x x` with `A -> x` and `B -> x`. -/
def choice : Except Grammar.Error Grammar := do
  let g ← Grammar.declareNonterminal {} ⟨"S"⟩
  let g ← g.declareNonterminal ⟨"A"⟩
  let g ← g.declareNonterminal ⟨"B"⟩
  let g ← g.declareTerminal ⟨"x"⟩
  let g ← g.addRule ⟨⟨"S"⟩, [⟨"A"⟩, ⟨"x"⟩]⟩
  let g ← g.addRule ⟨⟨"S"⟩, [⟨"B"⟩, ⟨"x"⟩]⟩
  let g ← g.addRule ⟨⟨"S"⟩, [⟨"x"⟩, ⟨"x"⟩]⟩
  let g ← g.addRule ⟨⟨"A"⟩, [⟨"x"⟩]⟩
  let g ← g.addRule ⟨⟨"B"⟩, [⟨"x"⟩]⟩
  g.setStart ⟨"S"⟩

/-- The automaton of the levels `S`, `A x`, `x x` and `x`. -/
def choiceLevels : Except Automaton.Error Automaton := do
  let A := [⟨"S"⟩, ⟨"A"⟩, ⟨"B"⟩, ⟨"x"⟩].foldl Automaton.addSymbol {}
  let A := ["q0", "q1", "q2", "q3"].foldl Automaton.addState A
  let A ← A.addEdge "q0" ⟨"S"⟩ "q1"
  let A ← A.addEdge "q0" ⟨"A"⟩ "q2"
  let A ← A.addEdge "q0" ⟨"x"⟩ "q3"
  let A ← A.addEdge "q2" ⟨"x"⟩ "q1"
  let A ← A.addEdge "q3" ⟨"x"⟩ "q1"
  let A ← A.setStart "q0"
  let A ← A.setAccepting "q1"
  A.setAccepting "q3"

theorem built_choice {g : Grammar} (h : choice = .ok g) : g.Built := by
  unfold choice at h
  simp only [bind_eq_ok_iff] at h
  obtain ⟨g₁, h₁, g₂, h₂, g₃, h₃, g₄, h₄, g₅, h₅, g₆, h₆, g₇, h₇, g₈, h₈, g₉, h₉, h⟩ := h
  have hg₁ : g₁.Built := Grammar.Built.empty.declareNonterminal h₁
  have hg₄ : g₄.Built := ((hg₁.declareNonterminal h₂).declareNonterminal h₃).declareTerminal h₄
  have hg₇ : g₇.Built := ((hg₄.addRule h₅).addRule h₆).addRule h₇
  exact ((hg₇.addRule h₈).addRule h₉).setStart h

theorem built_choiceLevels {A : Automaton} (h : choiceLevels = .ok A) : A.Built := by
  unfold choiceLevels at h
  simp only [bind_eq_ok_iff] at h
  obtain ⟨A₁, h₁, A₂, h₂, A₃, h₃, A₄, h₄, A₅, h₅, A₆, h₆, A₇, h₇, h⟩ := h
  have hA₁ : A₁.Built := .addEdge (.addStates _ (.addSymbols _ .empty)) h₁
  have hA₅ : A₅.Built := (((hA₁.addEdge h₂).addEdge h₃).addEdge h₄).addEdge h₅
  exact ((hA₅.setStart h₆).setAccepting h₇).setAccepting h

theorem choice_eq : choice = .ok (choice.toOption.getD {}) := by decide +kernel

theorem choiceLevels_eq : choiceLevels = .ok (choiceLevels.toOption.getD {}) := by
  decide +kernel

/-! ### A grammar with operators -/

/-- The grammar `E -> E ^ E | E - E | n`. -/
def arithmetic : Except Grammar.Error Grammar := do
  let g ← Grammar.declareNonterminal {} ⟨"E"⟩
  let g ← g.declareTerminal ⟨"n"⟩
  let g ← g.declareTerminal ⟨"^"⟩
  let g ← g.declareTerminal ⟨"-"⟩
  let g ← g.addRule ⟨⟨"E"⟩, [⟨"E"⟩, ⟨"^"⟩, ⟨"E"⟩]⟩
  let g ← g.addRule ⟨⟨"E"⟩, [⟨"E"⟩, ⟨"-"⟩, ⟨"E"⟩]⟩
  let g ← g.addRule ⟨⟨"E"⟩, [⟨"n"⟩]⟩
  g.setStart ⟨"E"⟩

/-- Powers bind tighter than differences and to the right, differences to the left. -/
def arithmeticPrecedence : Precedence :=
  ((Precedence.declare {} .right [⟨"^"⟩]).1.declare .left [⟨"-"⟩]).1

/-- The tree of a number. -/
def number : Tree := .node 0 ⟨"E"⟩ [.node 0 ⟨"n"⟩ []]

/-- The tree of an operation. -/
def operation (l : Tree) (o : String) (r : Tree) : Tree := .node 0 ⟨"E"⟩ [l, .node 0 ⟨o⟩ [], r]

theorem built_arithmetic {g : Grammar} (h : arithmetic = .ok g) : g.Built := by
  unfold arithmetic at h
  simp only [bind_eq_ok_iff] at h
  obtain ⟨g₁, h₁, g₂, h₂, g₃, h₃, g₄, h₄, g₅, h₅, g₆, h₆, g₇, h₇, h⟩ := h
  have hg₁ : g₁.Built := Grammar.Built.empty.declareNonterminal h₁
  have hg₄ : g₄.Built := ((hg₁.declareTerminal h₂).declareTerminal h₃).declareTerminal h₄
  exact (((hg₄.addRule h₅).addRule h₆).addRule h₇).setStart h

theorem arithmetic_eq : arithmetic = .ok (arithmetic.toOption.getD {}) := by decide +kernel

end TreeControl.Demo
