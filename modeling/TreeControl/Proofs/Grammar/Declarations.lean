import TreeControl.Proofs.Grammar.Forms
import TreeControl.Proofs.Loops

/-! # Declarations that succeed and fail

A grammar is changed by declarations, and a declaration that fails half-way would leave behind what it
has changed until then (`Edit`).  None does: each checks everything that it can fail at before it
changes anything, so a declaration that succeeds gives the larger grammar and one that fails leaves
the grammar as it was (`run_perform`).  Failures therefore lead to no further grammars
(`reachable_iff_built`), and every grammar that is reached is well-formed.

Rules are only appended, so the number that is given back for a rule (`getElem?_of_run_rule`) is its
number in every later grammar (`rules_prefix_foldl`).  The new start symbol is found by adding stars
until the symbol is not declared (`ends_addStar`).  All of this together, with the grammar under the
new start symbol: `Reachable.wellFormed_augment`. -/

namespace TreeControl.Grammar

/-- A declaration with its arguments. -/
inductive Declaration where
  | terminal (s : Symbol)
  | nonterminal (s : Symbol)
  | rule (r : Rule)
  | start (s : Symbol)

/-- What is given back for a declaration that succeeds. -/
inductive Answer where
  /-- The symbol that was declared. -/
  | symbol (s : Symbol)
  /-- The number of a rule. -/
  | number (i : Nat)
  /-- Nothing more than that the start symbol was chosen. -/
  | done
  deriving DecidableEq, Repr

/-- A change of a grammar.  What was changed before a failure stays changed. -/
abbrev Edit := EStateM Error Grammar

/-- Carries out a declaration, one check and one change after the other. -/
def Declaration.perform : Declaration → Edit Answer
  | .terminal s => do
    let g : Grammar ← get
    MonadExcept.ofExcept (g.checkNew s)
    modify fun g => { g with terminals := g.terminals.insert s }
    return .symbol s
  | .nonterminal s => do
    let g : Grammar ← get
    MonadExcept.ofExcept (g.checkNew s)
    modify fun g => { g with nonterminals := g.nonterminals.insert s }
    return .symbol s
  | .rule r => do
    let g : Grammar ← get
    if g.isTerminal r.lhs then throw (.terminalOnLeft r.lhs)
    if !g.isNonterminal r.lhs then throw (.unknownSymbol r.lhs)
    if let some s := r.rhs.find? (!g.declares ·) then throw (.unknownSymbol s)
    modify fun g => { g with rules := g.rules ++ [r] }
    return .number ((← get).rules.length - 1)
  | .start s => do
    let g : Grammar ← get
    if !g.isNonterminal s then throw (.startNotNonterminal s)
    modify fun g => { g with start := some s }
    return .done

/-- The grammar after a declaration, whether it succeeds or not. -/
def after (g : Grammar) (d : Declaration) : Grammar :=
  match d.perform.run g with
  | .ok _ G => G
  | .error _ G => G

/-- The grammars that declarations lead to, whether they succeed or not, beginning with the empty
one. -/
inductive Reachable : Grammar → Prop
  | empty : Reachable {}
  | call {g : Grammar} (d : Declaration) : Reachable g → Reachable (g.after d)

/-- The larger grammar that a declaration makes, or what is wrong with it. -/
def declare (g : Grammar) : Declaration → Except Error Grammar
  | .terminal s => g.declareTerminal s
  | .nonterminal s => g.declareNonterminal s
  | .rule r => g.addRule r
  | .start s => g.setStart s

/-- What a declaration gives back if it succeeds. -/
def answer (g : Grammar) : Declaration → Answer
  | .terminal s => .symbol s
  | .nonterminal s => .symbol s
  | .rule _ => .number g.rules.length
  | .start _ => .done

variable {g G : Grammar} {d : Declaration} {e : Error} {r : Rule} {i : Nat}

/-! ### What a declaration does -/

/-- Carried out step by step, a declaration gives what is wrong with it and the grammar as it was, or
its answer and the larger grammar. -/
theorem run_perform (g : Grammar) (d : Declaration) :
    d.perform.run g =
      match g.declare d with
      | .ok G => .ok (g.answer d) G
      | .error e => .error e g := by
  cases d with
  | terminal s =>
    simp only [Declaration.perform, declare, declareTerminal, EStateM.run_bind, EStateM.run_get]
    cases g.checkNew s with
    | error e => rfl
    | ok u => rfl
  | nonterminal s =>
    simp only [Declaration.perform, declare, declareNonterminal, EStateM.run_bind, EStateM.run_get]
    cases g.checkNew s with
    | error e => rfl
    | ok u => rfl
  | rule r =>
    simp only [Declaration.perform, declare, addRule, EStateM.run_bind, EStateM.run_get]
    cases g.isTerminal r.lhs with
    | true => rfl
    | false =>
      cases g.isNonterminal r.lhs with
      | false => rfl
      | true =>
        cases r.rhs.find? (!g.declares ·) with
        | some s => rfl
        | none =>
          -- The number that is given back is computed from the longer list of rules.
          have hnumber : (g.rules ++ [r]).length - 1 = g.rules.length := by simp
          show EStateM.Result.ok (Answer.number ((g.rules ++ [r]).length - 1)) _ = _
          rw [hnumber]
          rfl
  | start s =>
    simp only [Declaration.perform, declare, setStart, EStateM.run_bind, EStateM.run_get]
    cases g.isNonterminal s with
    | false => rfl
    | true => rfl

theorem after_cases (g : Grammar) (d : Declaration) :
    g.after d = g ∨ g.declare d = .ok (g.after d) := by
  unfold after
  rw [run_perform]
  cases g.declare d with
  | ok G => exact .inr rfl
  | error e => exact .inl rfl

theorem after_of_ok (h : g.declare d = .ok G) : g.after d = G := by
  unfold after
  rw [run_perform, h]

theorem eq_of_run_error (h : d.perform.run g = .error e G) : g.declare d = .error e ∧ G = g := by
  rw [run_perform] at h
  split at h
  · cases h
  · rename_i hd
    cases h
    exact ⟨hd, rfl⟩

/-! ### The grammars that are reached -/

theorem Built.declare (hg : g.Built) (h : g.declare d = .ok G) : G.Built := by
  cases d with
  | terminal s => exact hg.declareTerminal h
  | nonterminal s => exact hg.declareNonterminal h
  | rule r => exact hg.addRule h
  | start s => exact hg.setStart h

theorem Built.after (hg : g.Built) (d : Declaration) : (g.after d).Built := by
  obtain h | h := after_cases g d
  · rw [h]
    exact hg
  · exact hg.declare h

theorem Reachable.of_declare (hg : g.Reachable) (h : g.declare d = .ok G) : G.Reachable := by
  rw [← after_of_ok h]
  exact hg.call d

theorem Reachable.foldl (hg : g.Reachable) (ds : List Declaration) : (ds.foldl after g).Reachable := by
  induction ds generalizing g with
  | nil => exact hg
  | cons d ds ih => exact ih (hg.call d)

/-- The grammars that declarations lead to are those that successful declarations make. -/
theorem reachable_iff_built : g.Reachable ↔ g.Built := by
  constructor
  · intro h
    induction h with
    | empty => exact .empty
    | call d _ ih => exact ih.after d
  · intro h
    induction h with
    | empty => exact .empty
    | declareTerminal _ h ih => exact ih.of_declare (d := .terminal _) h
    | declareNonterminal _ h ih => exact ih.of_declare (d := .nonterminal _) h
    | addRule _ h ih => exact ih.of_declare (d := .rule _) h
    | setStart _ h ih => exact ih.of_declare (d := .start _) h

/-! ### Numbers of rules -/

theorem rules_prefix_of_declare (h : g.declare d = .ok G) : g.rules <+: G.rules := by
  cases d with
  | terminal s =>
    obtain ⟨-, rfl⟩ := declareTerminal_eq_ok_iff.1 h
    exact List.prefix_rfl
  | nonterminal s =>
    obtain ⟨-, rfl⟩ := declareNonterminal_eq_ok_iff.1 h
    exact List.prefix_rfl
  | rule r =>
    obtain ⟨-, -, rfl⟩ := addRule_cases h
    exact List.prefix_append g.rules [r]
  | start s =>
    obtain ⟨-, rfl⟩ := setStart_cases h
    exact List.prefix_rfl

theorem rules_prefix_after (g : Grammar) (d : Declaration) : g.rules <+: (g.after d).rules := by
  obtain h | h := after_cases g d
  · exact ⟨[], by rw [h, List.append_nil]⟩
  · exact rules_prefix_of_declare h

theorem rules_prefix_foldl (g : Grammar) (ds : List Declaration) :
    g.rules <+: (ds.foldl after g).rules := by
  induction ds generalizing g with
  | nil => exact List.prefix_rfl
  | cons d ds ih => exact (rules_prefix_after g d).trans (ih (g.after d))

theorem getElem?_of_run_rule {a : Answer} (h : (Declaration.rule r).perform.run g = .ok a G) :
    ∃ i, a = .number i ∧ G.rules[i]? = some r := by
  rw [run_perform] at h
  split at h
  · rename_i G' hG'
    cases h
    obtain ⟨-, -, rfl⟩ := addRule_cases hG'
    exact ⟨g.rules.length, rfl, List.getElem?_concat_length⟩
  · cases h

/-! ### The search for a new start symbol -/

/-- One turn of the search: a symbol that is declared gets another star. -/
def addStar (g : Grammar) (s : Symbol) : Option Symbol :=
  if g.declares s then some ⟨s.name.push '*'⟩ else none

theorem ends_addStar (g : Grammar) (s : Symbol) :
    Ends g.addStar ⟨s.name.push '*'⟩ (g.starred s) := by
  refine Ends.map (f := Symbol.mk) (fun name => ?_) (ends_unusedName '*' g.names (s.name.push '*'))
  unfold addStar extend
  by_cases h : name ∈ g.names
  · have hdeclares : g.declares ⟨name⟩ = true := declares_iff.2 (mem_names_iff.1 h)
    rw [if_pos h, if_pos hdeclares]
    rfl
  · have hdeclares : ¬ g.declares ⟨name⟩ = true := fun hd => h (mem_names_iff.2 (declares_iff.1 hd))
    rw [if_neg h, if_neg hdeclares]
    rfl

/-! ### What every grammar keeps -/

/-- Whatever declarations were made, with success or without: the next one that fails changes nothing;
the grammar is well-formed; the number that is given back for a rule is its number, and no later
declaration changes it.  If there is a start symbol, the search for a new one ends, and the grammar
under it has the same terminals, as rule 0 the one from the new start symbol to the old one, and then
the old rules.  The new start symbol is not declared in the old grammar and is on no right side, and
it generates the same forms, apart from itself, as the old one did. -/
theorem Reachable.wellFormed_augment (hg : g.Reachable) :
    (∀ (d : Declaration) e G, d.perform.run g = .error e G → g.declare d = .error e ∧ G = g) ∧
    g.WellFormed ∧
    (∀ r a G, (Declaration.rule r).perform.run g = .ok a G →
      ∃ i, a = .number i ∧ G.rules[i]? = some r) ∧
    (∀ (ds : List Declaration) (i : Nat) r, g.rules[i]? = some r →
      (ds.foldl after g).rules[i]? = some r) ∧
    ∀ start, g.start = some start → ∃ top G,
      Ends g.addStar ⟨start.name.push '*'⟩ top ∧ g.augment = .ok G ∧
      G.terminals = g.terminals ∧ (∀ s, s ∈ G.nonterminals ↔ s = top ∨ s ∈ g.nonterminals) ∧
      G.rules[0]? = some ⟨top, [start]⟩ ∧ (∀ i, G.rules[i + 1]? = g.rules[i]?) ∧
      G.start = some top ∧ g.declares top = false ∧ (∀ r ∈ G.rules, ¬ top ∈ r.rhs) ∧
      ∀ w, w ≠ [top] → (G.Generates [top] w ↔ g.Generates [start] w) := by
  have hwf : g.WellFormed := (reachable_iff_built.1 hg).wellFormed
  refine ⟨fun d e G h => eq_of_run_error h, hwf, fun r a G h => getElem?_of_run_rule h,
    fun ds i r hr => ?_, fun start hstart => ?_⟩
  · obtain ⟨later, hlater⟩ := rules_prefix_foldl g ds
    have hlt : i < g.rules.length := (List.getElem?_eq_some_iff.1 hr).1
    rw [← hlater, List.getElem?_append_left hlt, hr]
  · obtain ⟨G, hG, h⟩ := exists_augments hstart
    have hnew : ¬ g.declares (g.starred start) = true := by
      rw [declares_iff, not_or]
      exact h.top_not_mem
    refine ⟨g.starred start, G, ends_addStar g start, hG, h.terminals_eq, h.mem_nonterminals,
      h.rule_zero, h.rule_succ, h.top_eq, Bool.eq_false_iff.2 hnew,
      fun r hr => h.top_not_mem_rhs hwf hr, fun w hw => ?_⟩
    rw [h.generates_top_iff hwf]
    exact or_iff_right hw

/-- Declarations for the grammar `S -> S* a`.  Those that come too early or repeat a symbol, and those
without a name or with a terminal on the left, fail. -/
def starredDeclarations : List Declaration :=
  [.nonterminal ⟨"S"⟩, .terminal ⟨"S"⟩, .terminal ⟨""⟩, .nonterminal ⟨"S*"⟩, .start ⟨"a"⟩,
    .rule ⟨⟨"S"⟩, [⟨"S*"⟩, ⟨"a"⟩]⟩, .terminal ⟨"a"⟩, .rule ⟨⟨"a"⟩, []⟩,
    .rule ⟨⟨"S"⟩, [⟨"S*"⟩, ⟨"a"⟩]⟩, .start ⟨"S"⟩]

/-- Where `S*` is declared, the new start symbol for `S` is `S**`, and it generates `S* a`.  The rule
`S -> S* a`, which was declared with success after failures, keeps the number 0, and has the number 1
under the new start symbol. -/
theorem Reachable.wellFormed_augment_starred :
    ∃ g G : Grammar, g.Reachable ∧ g.start = some ⟨"S"⟩ ∧ g.WellFormed ∧
      (∀ ds : List Declaration, (ds.foldl after g).rules[0]? = some ⟨⟨"S"⟩, [⟨"S*"⟩, ⟨"a"⟩]⟩) ∧
      Ends g.addStar ⟨"S*"⟩ ⟨"S**"⟩ ∧ g.augment = .ok G ∧
      G.rules[1]? = some ⟨⟨"S"⟩, [⟨"S*"⟩, ⟨"a"⟩]⟩ ∧
      (∀ r ∈ G.rules, ¬ (⟨"S**"⟩ : Symbol) ∈ r.rhs) ∧
      G.Generates [⟨"S**"⟩] [⟨"S*"⟩, ⟨"a"⟩] := by
  have hg : (starredDeclarations.foldl after {}).Reachable := Reachable.empty.foldl _
  have hstart : (starredDeclarations.foldl after {}).start = some ⟨"S"⟩ := by decide +kernel
  have hrule : (starredDeclarations.foldl after {}).rules[0]? =
      some ⟨⟨"S"⟩, [⟨"S*"⟩, ⟨"a"⟩]⟩ := by decide +kernel
  have hstarred : (starredDeclarations.foldl after {}).starred ⟨"S"⟩ = ⟨"S**"⟩ := by decide +kernel
  obtain ⟨-, hwf, -, hkeep, haugment⟩ := hg.wellFormed_augment
  obtain ⟨top, G, hends, hG, -, -, -, hsucc, -, -, hrhs, hgen⟩ := haugment _ hstart
  obtain rfl : top = ⟨"S**"⟩ := (hends.unique (ends_addStar _ _)).trans hstarred
  refine ⟨_, G, hg, hstart, hwf, fun ds => hkeep ds 0 _ hrule, hends, hG,
    (hsucc 0).trans hrule, hrhs, ?_⟩
  exact (hgen _ (by simp)).2 (generates_rule (List.mem_of_getElem? hrule))

end TreeControl.Grammar
