import TreeControl.Proofs.Grammar.Exact
import TreeControl.Proofs.Grammar.Operators
import TreeControl.Proofs.Parser.Refusal

/-! # Parsing by precedence

The table of an operator grammar keeps conflicts between a shift and a reduction only
(`Grammar.Operators.not_forbids`), and a reduction competes with a shift only where two operators
meet: one on the stack below the topmost operand (`OperatorTable.reduce_cases`), one as the
lookahead.  Precedence then compares just these two.

For an ordered expression the verdicts are those that its construction needs.  The induction is on
the expression (`OperatorTable.follows_of_expression`); what it carries is that the operator of the
expression is shifted over the operator pending on the stack and reduced before the operator that
comes next.  Since every sentence has one ordered expression, this is what the parser returns:
`parse_operators`. -/

namespace TreeControl

/-! ### Conflicts left to precedence -/

/-- In a table without conflicts between reductions, a conflict is between a shift and one
reduction. -/
theorem Entry.Permitted.conflict_cases {policy : Policy} {c : Cell}
    (h : (Entry.act c).Permitted policy) (hrr : policy.allowReduceReduce = false)
    (hc : c.isConflict = true) : ∃ q n, c.shift = some q ∧ c.reduces.toList = [n] := by
  have same : ∀ n k, n ∈ c.reduces.toList → k ∈ c.reduces.toList → n = k := by
    intro n k hn hk
    exact (h.reduceReduce n k hn hk).resolve_right (by simp [hrr])
  have hnodup := OrdSet.nodup_toList c.reduces
  cases hlist : c.reduces.toList with
  | nil =>
    simp [Cell.isConflict, Cell.isShiftReduce, Cell.isReduceReduce, OrdSet.isEmpty, OrdSet.size,
      hlist] at hc
  | cons n rest =>
    have hrest : rest = [] := by
      refine List.eq_nil_iff_forall_not_mem.2 fun k hk => ?_
      rw [hlist] at same hnodup
      cases same n k List.mem_cons_self (List.mem_cons_of_mem _ hk)
      exact (List.nodup_cons.1 hnodup).1 hk
    subst hrest
    cases hs : c.shift with
    | some q => exact ⟨q, n, rfl, rfl⟩
    | none =>
      simp [Cell.isConflict, Cell.isShiftReduce, Cell.isReduceReduce, OrdSet.size, hlist, hs] at hc

/-- What a verdict decides between a shift and a reduction. -/
def Verdict.decision (q n : Nat) : Verdict → Decision
  | .shift => .shift q
  | .reduce => .reduce n none

namespace DecisionPoint

variable {x : DecisionPoint} {p : Precedence} {s : Symbol} {v : Verdict} {q n : Nat} {c : Cell}

/-- Without a level automaton precedence settles a conflict between a shift and a reduction, in
either order of the resolvers. -/
theorem choose_of_verdict (order : ResolutionOrder) (hplain : x.forest.automaton = none)
    (hp : x.table.precedence = some p) (hlook : p.binds x.lookahead = true)
    (hnear : x.nearest? p = some s) (hv : p.verdict s x.lookahead = .ok v)
    (hc : c.isConflict = true) (hshift : c.shift = some q) (hreduces : c.reduces.toList = [n]) :
    (x.choose order c).outcome = .ok (v.decision q n) := by
  have hsaid : x.Says (.ok v) := ⟨p, s, hp, hlook, nearest?_eq_some_iff.1 hnear, hv⟩
  have first : x.Prescribes c .precedenceFirst (.ok (v.decision q n)) := by
    cases v with
    | shift => exact .shift hshift (by simp [hreduces]) hsaid
    | reduce => exact .reduce (by simp [hshift]) hreduces hsaid
  cases order with
  | precedenceFirst => exact first.choose_eq hc
  | levelsFirst => exact (Prescribes.plain hplain first).choose_eq hc

end DecisionPoint

/-! ### States of an operator grammar -/

theorem Parser.exists_frame {frames : List Frame} {s : Symbol} {ss : List Symbol}
    (h : frames.map Frame.symbol = s :: ss) :
    ∃ q rest, frames = ⟨s, q⟩ :: rest ∧ rest.map Frame.symbol = ss := by
  obtain ⟨⟨s', q⟩, rest, rfl, hs, hrest⟩ := List.map_eq_cons_iff.1 h
  exact ⟨q, rest, by rw [← hs], hrest⟩

theorem Parser.exists_path_of_walk {G : Grammar} {w : List Symbol} {q : Nat}
    (h : G.walk? 0 w = some q) : ∃ frames, Path G frames ∧ topState frames = q := by
  induction w using List.reverseRecOn generalizing q with
  | nil =>
    cases h
    exact ⟨bottom, .bottom, rfl⟩
  | append_singleton w s ih =>
    rw [Grammar.walk?_append, Option.bind_eq_some_iff] at h
    obtain ⟨q₁, hwalk, h⟩ := h
    obtain ⟨q₂, hmove, hq₂⟩ := Grammar.walk?_cons_eq_some_iff.1 h
    cases hq₂
    obtain ⟨frames, hpath, rfl⟩ := ih hwalk
    exact ⟨⟨s, q⟩ :: frames, hpath.push hmove, rfl⟩

namespace Grammar

variable {g G : Grammar} {top start : Symbol} {r : Rule} {q : Nat} {i : Item}

/-- Under the new start symbol a rule keeps a number, which is not that of the new rule. -/
theorem Augments.exists_rule (hG : G.Augments g top start) (hr : r ∈ g.rules) :
    ∃ n, n ≠ 0 ∧ G.rules[n]? = some r := by
  obtain ⟨n, hn⟩ := List.mem_iff_getElem?.1 hr
  refine ⟨n + 1, Nat.succ_ne_zero n, ?_⟩
  rw [hG.rules_eq, List.getElem?_cons_succ]
  exact hn

theorem Augments.exists_path (hG : G.Augments g top start) (hi : G.Holds q i) :
    ∃ frames, Parser.Path G frames ∧ Parser.topState frames = q := by
  obtain ⟨I, hI, -⟩ := holds_iff.1 hi
  obtain ⟨w, hwalk⟩ := hG.exists_walk_of_getElem? hI
  exact Parser.exists_path_of_walk hwalk

end Grammar

namespace Grammar.Operators

variable {g G : Grammar} {E atom o x top : Symbol} {ops : OrdSet Symbol} {frames rest : List Frame}
  {r r' : Rule} {q q' n k : Nat} {p : Precedence} {e : BuildError}

theorem atom_ne (h : g.Operators E atom ops) : atom ≠ E :=
  fun e => h.not_terminal (e ▸ h.atom_mem)

theorem op_ne (h : g.Operators E atom ops) (ho : o ∈ ops) : o ≠ E :=
  fun e => h.not_terminal (e ▸ h.ops_mem o ho)

theorem rule_cases (h : g.Operators E atom ops) (hG : G.Augments g top E) (hn : n ≠ 0)
    (hr : G.rules[n]? = some r) : r = ⟨E, [atom]⟩ ∨ ∃ o ∈ ops, r = ⟨E, [E, o, E]⟩ :=
  (h.mem_rules r).1 (hG.mem_rules_of_ne_zero hn hr)

theorem eq_of_rule_eq (h : g.Operators E atom ops) (hG : G.Augments g top E) (hn : n ≠ 0)
    (hk : k ≠ 0) (hr : G.rules[n]? = some r) (hr' : G.rules[k]? = some r) : n = k := by
  obtain ⟨n, rfl⟩ := Nat.exists_eq_succ_of_ne_zero hn
  obtain ⟨k, rfl⟩ := Nat.exists_eq_succ_of_ne_zero hk
  rw [hG.rules_eq, List.getElem?_cons_succ] at hr hr'
  have hlt := (List.getElem?_eq_some_iff.1 hr).1
  rw [(List.getElem?_inj hlt h.nodup).1 (hr.trans hr'.symm)]

/-- A rule is completed on top of a stack only if an atom stands there, or an operator between two
operands. -/
theorem completed_cases (h : g.Operators E atom ops) (hG : G.Augments g top E)
    (hpath : Parser.Path G frames) (hn : n ≠ 0) (hr : G.rules[n]? = some r)
    (hi : G.Holds (Parser.topState frames) ⟨n, r.rhs.length⟩) :
    (r = ⟨E, [atom]⟩ ∧ ∃ q rest, frames = ⟨atom, q⟩ :: rest) ∨
      ∃ o ∈ ops, r = ⟨E, [E, o, E]⟩ ∧ ∃ q₁ q₂ q₃ f rest,
        frames = ⟨E, q₁⟩ :: ⟨o, q₂⟩ :: ⟨E, q₃⟩ :: f :: rest := by
  obtain ⟨popped, rest, rfl, hpop, hrest, -⟩ := hpath.pop hG hr hi
  rw [List.take_length] at hpop
  obtain ⟨f, rest, rfl⟩ := List.exists_cons_of_ne_nil hrest.ne_nil
  rcases h.rule_cases hG hn hr with rfl | ⟨o, ho, rfl⟩
  · obtain ⟨q, popped, rfl, -⟩ := Parser.exists_frame hpop
    exact .inl ⟨rfl, q, _, rfl⟩
  · obtain ⟨q₁, popped, rfl, hpop₁⟩ := Parser.exists_frame hpop
    obtain ⟨q₂, popped, rfl, hpop₂⟩ := Parser.exists_frame hpop₁
    obtain ⟨q₃, popped, rfl, hpop₃⟩ := Parser.exists_frame hpop₂
    cases List.map_eq_nil_iff.1 hpop₃
    exact .inr ⟨o, ho, rfl, q₁, q₂, q₃, f, rest, rfl⟩

theorem not_moves_of_atom (h : g.Operators E atom ops) (hG : G.Augments g top E)
    (hatom : G.Moves q atom q') : ¬ G.Moves q' x k := by
  intro hmoves
  obtain ⟨i, hi, hexp⟩ := exists_expected_of_moves hmoves
  obtain ⟨j, hj, hatom, hchain⟩ := hG.exists_chain_of_moves hatom hi
  have hdone : G.expected? j.advance = none := by
    obtain ⟨r, hr, hs⟩ := expected?_eq_some_iff.1 hatom
    have hmem := List.mem_of_getElem? hs
    by_cases hzero : j.rule = 0
    · rw [hzero, hG.rule_zero] at hr
      cases hr
      exact absurd (List.mem_singleton.1 hmem) h.atom_ne
    · rcases h.rule_cases hG hzero hr with rfl | ⟨o, ho, rfl⟩
      · simp [expected?, Item.advance, hr]
      · simp only [List.mem_cons, List.not_mem_nil, or_false] at hmem
        rcases hmem with e | e | e
        · exact absurd e h.atom_ne
        · exact absurd (e ▸ ho) h.atom_not_mem
        · exact absurd e h.atom_ne
  rcases Relation.ReflTransGen.cases_head hchain with rfl | ⟨j', hj', -⟩
  · rw [hdone] at hexp
    cases hexp
  · obtain ⟨r, -, hexp', -⟩ := mem_predicted_iff.1 hj'
    rw [hdone] at hexp'
    cases hexp'

theorem eq_of_completed (h : g.Operators E atom ops) (hG : G.Augments g top E)
    (hpath : Parser.Path G frames) (hn : n ≠ 0) (hr : G.rules[n]? = some r)
    (hi : G.Holds (Parser.topState frames) ⟨n, r.rhs.length⟩) (hk : k ≠ 0)
    (hr' : G.rules[k]? = some r') (hi' : G.Holds (Parser.topState frames) ⟨k, r'.rhs.length⟩) :
    n = k := by
  have hrules : r = r' := by
    rcases h.completed_cases hG hpath hn hr hi with
      ⟨rfl, q, rest, e⟩ | ⟨o, -, rfl, q₁, q₂, q₃, f, rest, e⟩
    · rcases h.completed_cases hG hpath hk hr' hi' with
        ⟨rfl, -⟩ | ⟨o', -, rfl, q₁', q₂', q₃', f', rest', e'⟩
      · rfl
      · cases e.symm.trans e'
        exact absurd rfl h.atom_ne
    · rcases h.completed_cases hG hpath hk hr' hi' with
        ⟨rfl, q', rest', e'⟩ | ⟨o', -, rfl, q₁', q₂', q₃', f', rest', e'⟩
      · cases e.symm.trans e'
        exact absurd rfl h.atom_ne
      · cases e.symm.trans e'
        rfl
  subst hrules
  exact h.eq_of_rule_eq hG hn hk hr hr'

/-- Where rule 0 is completed, no other rule is: only one symbol is on the stack, and it is `E`. -/
theorem not_completed_of_accept (h : g.Operators E atom ops) (hG : G.Augments g top E)
    (hpath : Parser.Path G frames) (haccept : G.Holds (Parser.topState frames) ⟨0, 1⟩)
    (hn : n ≠ 0) (hr : G.rules[n]? = some r) :
    ¬ G.Holds (Parser.topState frames) ⟨n, r.rhs.length⟩ := by
  intro hi
  have hlen := hpath.length_of_accept hG h.wellFormed haccept
  rcases h.completed_cases hG hpath hn hr hi with
    ⟨-, q, rest, rfl⟩ | ⟨o, -, -, q₁, q₂, q₃, f, rest, rfl⟩
  · obtain ⟨popped, rest', e, hpop, -, -⟩ := hpath.pop hG hG.rule_zero haccept
    obtain ⟨q', popped, rfl, -⟩ := Parser.exists_frame hpop
    cases e
    exact h.atom_ne rfl
  · simp at hlen

/-- The candidates of an operator grammar conflict only where a shift meets a reduction. -/
theorem not_forbids (h : g.Operators E atom ops) (hG : G.Augments g top E) {policy : Policy}
    (hallow : policy.allowShiftReduce = true) : ¬ G.Forbids policy q x e := by
  intro hforbids
  cases hforbids with
  | accept haccept hreduces =>
    obtain ⟨hn, r, hr, hi, -⟩ := hreduces
    obtain ⟨frames, hpath, rfl⟩ := hG.exists_path hi
    exact h.not_completed_of_accept hG hpath haccept.2 hn hr hi
  | shiftReduce hforbid _ _ => simp [hallow] at hforbid
  | reduceReduce _ hne hreduces hreduces' =>
    obtain ⟨hn, r, hr, hi, -⟩ := hreduces
    obtain ⟨hk, r', hr', hi', -⟩ := hreduces'
    obtain ⟨frames, hpath, rfl⟩ := hG.exists_path hi
    exact hne (h.eq_of_completed hG hpath hn hr hi hk hr' hi')

theorem exists_table (h : g.Operators E atom ops) (p : Precedence) :
    ∃ t, (Table.build g { precedence := some p }).outcome = .ok t := by
  obtain ⟨G, hG, haugments⟩ := exists_augments h.start_eq
  cases hbuild : (Table.build g { precedence := some p }).outcome with
  | ok t => exact ⟨t, rfl⟩
  | error e =>
    obtain ⟨q, x, hforbids⟩ :=
      Table.forbids_of_build h.built hG (fun A hA => by cases hA) hbuild
    exact absurd hforbids (h.not_forbids haugments rfl)

end Grammar.Operators

namespace Parser

variable {σ : Type} [TokenSource σ] {g : Grammar} {t : Table} {p : Precedence} {c c' : Config σ}
  {source : σ} {E atom o x : Symbol} {ops : OrdSet Symbol} {u : Tree} {w : List Symbol}
  {frames rest : List Frame} {r : Rule} {i : Item} {q n : Nat} {a : Action}
  {order : ResolutionOrder} {acts : List Action}

theorem Follows.trans {s : Setting} {c₁ : Config σ} {acts' : List Action}
    (h : Follows s c acts c₁) (h' : Follows s c₁ acts' c') : Follows s c (acts ++ acts') c' := by
  induction h with
  | nil c => exact h'
  | cons hstep _ ih => exact .cons hstep (ih h')

theorem Follows.parse_eq {s : Setting} {tree : Tree} {steps : Nat} (h : Follows s c acts c')
    (hbegin : begin s.table source = .ok c) (hfin : c'.Finishes s.table tree)
    (hsteps : acts.length < steps) : (parse s steps source).value = some (.ok tree) := by
  obtain ⟨k, rfl⟩ : ∃ k, steps = acts.length + (k + 1) := ⟨steps - acts.length - 1, by omega⟩
  rw [parse, hbegin]
  exact (run_of_follows h).trans (run_succ_of_finished hfin.step_eq)

/-- The verdict that an action carries out. -/
def Action.verdict : Action → Verdict
  | .shift => .shift
  | .reduce _ => .reduce

/-- The parser performs a step if precedence decides for it wherever there is a choice. -/
theorem Takes.performs_of_verdict (h : Takes t c a c')
    (hbuild : (Table.build g { precedence := some p }).outcome = .ok t) (hc : Plain c)
    (hverdict : ∀ q n, Entry.Offers (t.entry? c.state c.lookahead) (.shift q) →
      Entry.Offers (t.entry? c.state c.lookahead) (.reduce n) →
      p.binds c.lookahead = true ∧ ∃ s, (c.decisionPoint t).nearest? p = some s ∧
        p.verdict s c.lookahead = .ok a.verdict) :
    Performs ⟨t, order⟩ c a c' := by
  obtain ⟨-, -, -, -, hprec, -⟩ := Table.build_outcome_iff.1 hbuild
  obtain ⟨cell, he, hcand⟩ := h.exists_cell
  have h : Takes (Setting.mk t order).table c a c' := h
  cases hcell : cell.isConflict with
  | false => exact h.performs_of_not_conflict he hcell
  | true =>
    obtain ⟨q, n, hq, hn⟩ :=
      (Table.permitted_of_build hbuild he).conflict_cases rfl hcell
    have hmem : ∀ k, k ∈ cell.reduces ↔ k = n := by
      intro k
      show k ∈ cell.reduces.toList ↔ k = n
      rw [hn, List.mem_singleton]
    have hshift : Entry.Offers (t.entry? c.state c.lookahead) (.shift q) := by
      rw [he]
      exact hq
    have hreduce : Entry.Offers (t.entry? c.state c.lookahead) (.reduce n) := by
      rw [he]
      exact (hmem n).2 rfl
    obtain ⟨hlook, s, hnear, hv⟩ := hverdict q n hshift hreduce
    have ha : (a.verdict.decision q n).action = a := by
      rcases hcand with ⟨rfl, -⟩ | ⟨k, hk, rfl⟩
      · rfl
      · rw [(hmem k).1 hk]
        rfl
    exact h.performs he
      (DecisionPoint.choose_of_verdict order hc.forest hprec hlook hnear hv hcell hq hn) ha

/-! ### Operands on the stack -/

/-- An operand is due: nothing is on the stack, or an operator is on top of it. -/
inductive Due (ops : OrdSet Symbol) : List Frame → Option Symbol → Prop
  | first : Due ops bottom none
  | behind {o : Symbol} {q : Nat} {rest : List Frame} : o ∈ ops →
      Due ops (⟨o, q⟩ :: rest) (some o)

theorem Due.eq_some {pending : Option Symbol} {f : Frame} (h : Due ops frames pending)
    (hframes : frames = ⟨o, q⟩ :: f :: rest) : pending = some o := by
  cases h with
  | first => simp [bottom] at hframes
  | behind _ =>
    cases hframes
    rfl

theorem Due.symbol_ne {pending : Option Symbol} (h : Due ops frames pending)
    (hg : g.Operators E atom ops) (hframes : frames = ⟨x, q⟩ :: rest) : x ≠ atom ∧ x ≠ E := by
  cases h with
  | first =>
    cases hframes
    exact ⟨fun e => hg.wellFormed.named.1 (e ▸ hg.atom_mem),
      fun e => hg.wellFormed.named.2 (e ▸ hg.nonterminal)⟩
  | behind ho =>
    cases hframes
    exact ⟨fun e => hg.atom_not_mem (e ▸ ho), hg.op_ne ho⟩

/-- The table of an operator grammar with a precedence table that binds the operators. -/
structure OperatorTable (g : Grammar) (p : Precedence) (t : Table) (E atom : Symbol)
    (ops : OrdSet Symbol) : Prop where
  grammar : g.Operators E atom ops
  regular : p.Regular
  binds : ∀ o ∈ ops, p.binds o = true
  unbound : p.binds E = false
  build : (Table.build g { precedence := some p }).outcome = .ok t

/-- A configuration in which an item expects an operand. -/
structure Expects (t : Table) (E : Symbol) (ops : OrdSet Symbol) (c : Config σ) (i : Item)
    (pending : Option Symbol) : Prop where
  plain : Plain c
  path : Path t.grammar c.frames
  due : Due ops c.frames pending
  holds : t.grammar.Holds c.state i
  expected : t.grammar.expected? i = some E

/-- Between two configurations an operand of a given shape was read. -/
structure Operand (t : Table) (E : Symbol) (c : Config σ) (i : Item) (shape : Tree)
    (w : List Symbol) (c' : Config σ) : Prop where
  plain : Plain c'
  frames : ∃ q, t.grammar.Moves c.state E q ∧ c'.frames = ⟨E, q⟩ :: c.frames
  holds : t.grammar.Holds c'.state i.advance
  trees : ∃ u, c'.forest.trees = c.forest.trees ++ [u] ∧ u.shape = shape
  ahead : Ahead c'.lookahead c'.source w

namespace OperatorTable

variable (h : OperatorTable g p t E atom ops)

include h

theorem augments : ∃ top, t.grammar.Augments g top E := by
  obtain ⟨top, start, hG⟩ := Table.augments_of_build h.build
  have hstart := hG.start_eq
  rw [h.grammar.start_eq, Option.some.injEq] at hstart
  exact ⟨top, hstart ▸ hG⟩

omit [TokenSource σ] in
theorem reduce_cases (hpath : Path t.grammar c.frames)
    (hoffer : Entry.Offers (t.entry? c.state c.lookahead) (.reduce n)) :
    (∃ q rest, c.frames = ⟨atom, q⟩ :: rest) ∨ ∃ o ∈ ops, ∃ q₁ q₂ q₃ f rest,
      c.frames = ⟨E, q₁⟩ :: ⟨o, q₂⟩ :: ⟨E, q₃⟩ :: f :: rest := by
  obtain ⟨top, hG⟩ := h.augments
  rw [Table.offers_entry?_iff h.build, Grammar.asks_reduce_iff hG] at hoffer
  obtain ⟨hn, r, hr, hi, -⟩ := hoffer
  rcases h.grammar.completed_cases hG hpath hn hr hi with ⟨-, hatom⟩ | ⟨o, ho, -, hop⟩
  · exact .inl hatom
  · exact .inr ⟨o, ho, hop⟩

theorem mem_follow (hw : ∀ x, w.head? = some x → x ∈ ops) :
    w.headD .blank ∈ t.grammar.predict.value.follow E := by
  obtain ⟨top, hG⟩ := h.augments
  have hwf := hG.wellFormed h.grammar.wellFormed
  have hE : E ∈ t.grammar.nonterminals := (hG.mem_nonterminals E).2 (.inr h.grammar.nonterminal)
  rw [Prediction.mem_follow_predict_iff hwf hE]
  cases w with
  | nil =>
    refine .inr ⟨rfl, top, hG.top_eq, [], ?_⟩
    exact Grammar.generates_rule (List.mem_of_getElem? hG.rule_zero)
  | cons x w =>
    have hx := hw x rfl
    refine .inl ⟨hG.terminals_eq ▸ h.grammar.ops_mem x hx, E, hE, [], [E], ?_⟩
    have hrule : (⟨E, [E, x, E]⟩ : Rule) ∈ t.grammar.rules := by
      rw [hG.rules_eq]
      exact List.mem_cons_of_mem _ ((h.grammar.mem_rules _).2 (.inr ⟨x, hx, rfl⟩))
    exact Grammar.generates_rule hrule

theorem nearest?_eq {q₁ q₂ : Nat} (ho : o ∈ ops)
    (hframes : c.frames = ⟨E, q₁⟩ :: ⟨o, q₂⟩ :: rest) :
    (c.decisionPoint t).nearest? p = some o := by
  show (c.frames.map Frame.symbol).find? p.binds = some o
  rw [hframes]
  simp [h.unbound, h.binds o ho]

/-! ### Reading an operand -/

variable {pending : Option Symbol}

omit [TokenSource σ] in
theorem holds_first (hc : Expects t E ops c i pending) (hr : t.grammar.rules[n]? = some r)
    (hlhs : r.lhs = E) : t.grammar.Holds c.state ⟨n, 0⟩ := by
  obtain ⟨top, hG⟩ := h.augments
  have hE : E ∈ t.grammar.nonterminals := (hG.mem_nonterminals E).2 (.inr h.grammar.nonterminal)
  refine hG.holds_predicted hc.holds (Grammar.mem_predicted_iff.2 ⟨r, hr, ?_, ?_, rfl⟩)
  · rw [hlhs]
    exact hc.expected
  · rw [hlhs]
    exact hE

/-- Behind a completed rule the parser reduces, and an operand has been read. -/
theorem exists_operand {c₁ : Config σ} {popped : List Frame} {us : List Tree}
    (hc : Expects t E ops c i pending) (hplain : Plain c₁) (hn : n ≠ 0)
    (hr : t.grammar.rules[n]? = some r) (hlhs : r.lhs = E)
    (hholds : t.grammar.Holds c₁.state ⟨n, r.rhs.length⟩) (hframes : c₁.frames = popped ++ c.frames)
    (hpop : popped.map Frame.symbol = r.rhs.reverse)
    (htrees : c₁.forest.trees = c.forest.trees ++ us) (hlen : us.length = r.rhs.length)
    (hahead : Ahead c₁.lookahead c₁.source w) (hnext : ∀ x, w.head? = some x → x ∈ ops) :
    ∃ c', Takes t c₁ (.reduce n) c' ∧ Operand t E c i (.node 0 E (us.map Tree.shape)) w c' := by
  obtain ⟨top, hG⟩ := h.augments
  subst hlhs
  obtain ⟨q, hmove, hadv⟩ := hG.exists_moves hc.holds hc.expected
  have hlhs := (hG.wellFormed h.grammar.wellFormed).lhs_mem r (List.mem_of_getElem? hr)
  have hfollow : c₁.lookahead ∈ t.grammar.predict.value.follow r.lhs := by
    rw [hahead.lookahead_eq]
    exact h.mem_follow hnext
  obtain ⟨c', id, hreduce, hplain', hframes', htrees', hlook, hsource⟩ :=
    step_of_completed h.build hplain hn hr hholds hfollow hframes hpop hc.plain.frames hmove hlhs
      htrees hlen
  refine ⟨c', hreduce, hplain', ⟨q, hmove, hframes'⟩, ?_, ⟨_, htrees', Tree.shape_node ..⟩, ?_⟩
  · unfold Config.state
    rw [hframes']
    exact hadv
  · rw [hlook, hsource]
    exact hahead

theorem follows_atom (hc : Expects t E ops c i pending)
    (hw : Ahead c.lookahead c.source (atom :: w)) (hterm : ∀ x ∈ w, x ∈ g.terminals)
    (hnext : ∀ x, w.head? = some x → x ∈ ops) :
    ∃ c' acts, Follows ⟨t, order⟩ c acts c' ∧
      Operand t E c i (.node 0 E [.node 0 atom []]) w c' := by
  obtain ⟨top, hG⟩ := h.augments
  have hwf := h.grammar.wellFormed
  obtain ⟨n, hn, hr⟩ := hG.exists_rule ((h.grammar.mem_rules _).2 (.inl rfl))
  obtain ⟨q₁, hmove, hadv⟩ := hG.exists_moves (h.holds_first hc hr rfl)
    (Grammar.expected?_eq_some_iff.2 ⟨_, hr, rfl⟩)
  obtain ⟨c₁, id, hshift, hplain, hframes, htrees, hahead⟩ :=
    step_of_terminal h.build hwf hc.plain hmove h.grammar.atom_mem hw hterm
  have hstate : c₁.state = q₁ := by
    unfold Config.state
    rw [hframes]
    rfl
  obtain ⟨c₂, hreduce, hoperand⟩ := h.exists_operand hc hplain hn hr rfl (hstate ▸ hadv)
    (show c₁.frames = [⟨atom, q₁⟩] ++ c.frames from hframes) rfl htrees rfl hahead hnext
  -- No reduction is offered where an operand is due.
  have hshift : Performs ⟨t, order⟩ c .shift c₁ := by
    refine hshift.performs_of_verdict h.build hc.plain fun _ _ _ hoffer => ?_
    rcases h.reduce_cases hc.path hoffer with ⟨q, rest, e⟩ | ⟨o, -, q, _, _, _, _, e⟩
    · exact absurd rfl (hc.due.symbol_ne h.grammar e).1
    · exact absurd rfl (hc.due.symbol_ne h.grammar e).2
  -- No shift is offered behind an atom.
  have hreduce : Performs ⟨t, order⟩ c₁ (.reduce n) c₂ := by
    refine hreduce.performs_of_verdict h.build hplain fun _ _ hoffer _ => ?_
    obtain ⟨hmoves, -⟩ := moves_of_shift h.build hwf hoffer
    rw [hstate] at hmoves
    exact absurd hmoves (h.grammar.not_moves_of_atom hG hmove)
  exact ⟨c₂, _, .cons hshift (.cons hreduce (.nil c₂)), hoperand⟩

/-- The operator behind its left operand is shifted if precedence prefers it to the pending one. -/
theorem exists_shift {c₁ : Config σ} {shape : Tree} (hc : Expects t E ops c ⟨n, 0⟩ pending)
    (hr : t.grammar.rules[n]? = some ⟨E, [E, o, E]⟩) (ho : o ∈ ops)
    (hleft : Operand t E c ⟨n, 0⟩ shape (o :: w) c₁) (hterm : ∀ x ∈ w, x ∈ g.terminals)
    (hpending : ∀ x, pending = some x → p.verdict x o = .ok .shift) :
    ∃ c₂ q id, Performs ⟨t, order⟩ c₁ .shift c₂ ∧ Expects t E ops c₂ ⟨n, 2⟩ (some o) ∧
      c₂.frames = ⟨o, q⟩ :: c₁.frames ∧
      c₂.forest.trees = c₁.forest.trees ++ [.node id o []] ∧
      Ahead c₂.lookahead c₂.source w := by
  obtain ⟨top, hG⟩ := h.augments
  obtain ⟨q₁, hmove₁, hframes₁⟩ := hleft.frames
  have hpath₁ : Path t.grammar c₁.frames := hframes₁ ▸ hc.path.push hmove₁
  obtain ⟨q₂, hmove₂, hadv⟩ := hG.exists_moves hleft.holds
    (Grammar.expected?_eq_some_iff.2 ⟨_, hr, rfl⟩)
  obtain ⟨c₂, id, hshift, hplain, hframes, htrees, hahead⟩ :=
    step_of_terminal h.build h.grammar.wellFormed hleft.plain hmove₂ (h.grammar.ops_mem o ho)
      hleft.ahead hterm
  have hlook : c₁.lookahead = o := hleft.ahead.1
  have hstate : c₂.state = q₂ := by
    unfold Config.state
    rw [hframes]
    rfl
  refine ⟨c₂, q₂, id, ?_, ⟨hplain, ?_, ?_, hstate ▸ hadv, ?_⟩, hframes, htrees, hahead⟩
  · refine hshift.performs_of_verdict h.build hleft.plain fun _ _ _ hreduce => ?_
    rcases h.reduce_cases hpath₁ hreduce with ⟨q, rest, e⟩ | ⟨o', ho', _, q', _, f, rest, e⟩
    · cases hframes₁.symm.trans e
      exact absurd rfl h.grammar.atom_ne
    · -- The operator below the left operand is the pending one.
      have hbelow := (List.cons.inj (hframes₁.symm.trans e)).2
      rw [hlook]
      exact ⟨h.binds o ho, o', h.nearest?_eq ho' e, hpending o' (hc.due.eq_some hbelow)⟩
  · rw [hframes]
    exact hpath₁.push hmove₂
  · rw [hframes]
    exact .behind ho
  · exact Grammar.expected?_eq_some_iff.2 ⟨_, hr, rfl⟩

/-- An operator between its operands is reduced if precedence prefers that to the next operator. -/
theorem exists_reduce {c₃ : Config σ} {q₁ q₂ q₃ : Nat} {us : List Tree}
    (hc : Expects t E ops c i pending) (hplain : Plain c₃) (hn : n ≠ 0)
    (hr : t.grammar.rules[n]? = some ⟨E, [E, o, E]⟩) (ho : o ∈ ops)
    (hholds : t.grammar.Holds c₃.state ⟨n, 3⟩)
    (hframes : c₃.frames = ⟨E, q₃⟩ :: ⟨o, q₂⟩ :: ⟨E, q₁⟩ :: c.frames)
    (htrees : c₃.forest.trees = c.forest.trees ++ us) (hlen : us.length = 3)
    (hahead : Ahead c₃.lookahead c₃.source w)
    (hnext : ∀ x, w.head? = some x → x ∈ ops ∧ p.verdict o x = .ok .reduce) :
    ∃ c', Performs ⟨t, order⟩ c₃ (.reduce n) c' ∧
      Operand t E c i (.node 0 E (us.map Tree.shape)) w c' := by
  obtain ⟨c', hreduce, hoperand⟩ := h.exists_operand hc hplain hn hr rfl hholds
    (show c₃.frames = [⟨E, q₃⟩, ⟨o, q₂⟩, ⟨E, q₁⟩] ++ c.frames from hframes) rfl htrees hlen hahead
    (fun x hx => (hnext x hx).1)
  refine ⟨c', hreduce.performs_of_verdict h.build hplain fun _ _ hoffer _ => ?_, hoperand⟩
  -- What could be shifted is not the end of the input, so it is the next operator.
  obtain ⟨-, hterm⟩ := moves_of_shift h.build h.grammar.wellFormed hoffer
  obtain ⟨w', rfl⟩ := hahead.eq_cons fun e => h.grammar.wellFormed.named.1 (e ▸ hterm)
  obtain ⟨hops, hverdict⟩ := hnext _ rfl
  exact ⟨h.binds _ hops, o, h.nearest?_eq ho hframes, hverdict⟩

/-- The parser reads an ordered expression as an operand if precedence shifts its operator over the
pending one and reduces it before the next one. -/
theorem follows_of_expression (hu : Expression E atom ops u) (hordered : u.Ordered p)
    (hc : Expects t E ops c i pending) (hw : Ahead c.lookahead c.source (g.yield u ++ w))
    (hterm : ∀ x ∈ w, x ∈ g.terminals)
    (hpending : ∀ o, pending = some o → ∀ x, u.operator? = some x → p.verdict o x = .ok .shift)
    (hnext : ∀ x, w.head? = some x → x ∈ ops ∧
      ∀ y, u.operator? = some y → p.verdict y x = .ok .reduce) :
    ∃ c' acts, Follows ⟨t, order⟩ c acts c' ∧ Operand t E c i u.shape w c' := by
  induction hu generalizing c i w pending with
  | atom id id' =>
    rw [h.grammar.yield_atom] at hw
    exact h.follows_atom hc hw hterm fun x hx => (hnext x hx).1
  | @operation l r o id id' hl ho hr ihl ihr =>
    obtain ⟨hlo, hro, hleft, hright⟩ := Tree.ordered_operation_iff.1 hordered
    rw [h.grammar.yield_operation ho, List.append_assoc, List.cons_append] at hw
    obtain ⟨top, hG⟩ := h.augments
    obtain ⟨n, hn, hrule⟩ := hG.exists_rule ((h.grammar.mem_rules _).2 (.inr ⟨o, ho, rfl⟩))
    have hterm' : ∀ x ∈ g.yield r ++ w, x ∈ g.terminals := by
      intro x hx
      rcases List.mem_append.1 hx with hx | hx
      · exact Grammar.mem_terminals_of_mem_yield hx
      · exact hterm x hx
    -- The left operand, between the pending operator and its own.
    have hfirst : Expects t E ops c ⟨n, 0⟩ pending :=
      ⟨hc.plain, hc.path, hc.due, h.holds_first hc hrule rfl,
        Grammar.expected?_eq_some_iff.2 ⟨_, hrule, rfl⟩⟩
    obtain ⟨c₁, acts₁, hfollows₁, hoperand₁⟩ := ihl hlo hfirst hw
      (List.forall_mem_cons.2 ⟨h.grammar.ops_mem o ho, hterm'⟩)
      (fun o' ho' x hx => h.regular.shift_of_reduce (hpending o' ho' o rfl) (hleft x hx))
      (fun x hx => by
        cases hx
        exact ⟨ho, hleft⟩)
    obtain ⟨c₂, q₂, id₂, hshift, hsecond, hframes₂, htrees₂, hahead₂⟩ :=
      h.exists_shift hfirst hrule ho hoperand₁ hterm' (fun x hx => hpending x hx o rfl)
    -- The right operand, between its own operator and the next.
    obtain ⟨c₃, acts₃, hfollows₃, hoperand₃⟩ := ihr hro hsecond hahead₂ hterm
      (fun o' ho' => Option.some.inj ho' ▸ hright)
      (fun x hx => ⟨(hnext x hx).1, fun y hy =>
        Precedence.reduce_of_shift (hright y hy) ((hnext x hx).2 o rfl)⟩)
    obtain ⟨q₁, -, hframes₁⟩ := hoperand₁.frames
    obtain ⟨q₃, -, hframes₃⟩ := hoperand₃.frames
    obtain ⟨l', htrees₁, hl'⟩ := hoperand₁.trees
    obtain ⟨r', htrees₃, hr'⟩ := hoperand₃.trees
    have htrees : c₃.forest.trees = c.forest.trees ++ [l', .node id₂ o [], r'] := by
      simp [htrees₃, htrees₂, htrees₁]
    obtain ⟨c', hreduce, hoperand⟩ :=
      h.exists_reduce hc hoperand₃.plain hn hrule ho hoperand₃.holds
        (by rw [hframes₃, hframes₂, hframes₁]) htrees rfl hoperand₃.ahead
        (fun x hx => ⟨(hnext x hx).1, (hnext x hx).2 o rfl⟩)
    refine ⟨c', _, hfollows₁.trans (.cons hshift (hfollows₃.trans (.cons hreduce (.nil c')))), ?_⟩
    rw [Tree.shape_node]
    simpa [hl', hr', Tree.shape_node] using hoperand

/-! ### Sentences -/

theorem parse_expression (hu : Expression E atom ops u) (hordered : u.Ordered p)
    (hsource : TokenSource.Supplies source (g.yield u)) :
    ∃ tree, tree.shape = u.shape ∧
      ∃ n, ∀ steps, n ≤ steps → (parse ⟨t, order⟩ steps source).value = some (.ok tree) := by
  obtain ⟨top, hG⟩ := h.augments
  have hterm : ∀ x ∈ g.yield u, x ∈ t.grammar.terminals := by
    rw [hG.terminals_eq]
    exact fun x hx => Grammar.mem_terminals_of_mem_yield hx
  obtain ⟨token, source', hbegin, hahead⟩ := exists_begin_ahead hsource hterm
  rw [Table.automaton_eq_none_of_build h.build rfl] at hbegin
  rw [← List.append_nil (g.yield u)] at hahead
  -- At the beginning the new start symbol expects its operand.
  have hexpects : Expects t E ops ⟨bottom, {}, source', token⟩ ⟨0, 0⟩ none :=
    ⟨⟨List.cons_ne_nil _ _, rfl⟩, .bottom, .first, Grammar.holds_first t.grammar,
      hG.expected?_first⟩
  obtain ⟨c, acts, hfollows, hoperand⟩ := h.follows_of_expression hu hordered hexpects hahead
    (by simp) (by simp) (by simp)
  obtain ⟨tree, htrees, hshape⟩ := hoperand.trees
  have hdone : t.grammar.expected? (Item.advance ⟨0, 0⟩) = none := by
    simp [Grammar.expected?, Item.advance, hG.rule_zero]
  have haccept : t.entry? c.state c.lookahead = some .accept := by
    rw [show c.lookahead = .blank from hoperand.ahead]
    exact Entry.offers_accept_iff.1
      ((Table.offers_entry?_iff h.build).2 (.accept hoperand.holds rfl hdone))
  have hfin : c.Finishes t tree := finishes_of_accept hoperand.plain.forest haccept htrees
  exact ⟨tree, hshape, acts.length + 1, fun steps hsteps => hfollows.parse_eq hbegin hfin hsteps⟩

end OperatorTable

/-- Let a grammar have the rules `E -> atom` and `E -> E op E` for some operators, and let a table
of left and right groups have a precedence for all the operators and none for `E`.  Then the parse
table can be built, and atoms with operators between them are parsed, in either order of the
resolvers, into the derivation that the precedence table orders; no derivation of the sentence with
another shape is ordered. -/
theorem parse_operators (hg : g.Operators E atom ops) (hp : p.Declared)
    (hbinds : ∀ o ∈ ops, p.binds o = true) (hE : p.binds E = false) :
    ∃ t, (Table.build g { precedence := some p }).outcome = .ok t ∧
      ∀ order operators, (∀ o ∈ operators, o ∈ ops) →
        ∀ source : σ, TokenSource.Supplies source (operatorSentence atom operators) →
          ∃ tree, (∃ n, ∀ steps, n ≤ steps →
              (parse ⟨t, order⟩ steps source).value = some (.ok tree)) ∧
            g.Derives tree ∧ g.start = some tree.symbol ∧
            g.yield tree = operatorSentence atom operators ∧ tree.Ordered p ∧
            ∀ v, g.Derives v → g.start = some v.symbol →
              g.yield v = operatorSentence atom operators → v.Ordered p →
              v.shape = tree.shape := by
  obtain ⟨t, hbuild⟩ := hg.exists_table p
  have htable : OperatorTable g p t E atom ops := ⟨hg, hp.regular, hbinds, hE, hbuild⟩
  refine ⟨t, hbuild, fun order operators hops source hsource => ?_⟩
  obtain ⟨u, hu, hordered, hyield⟩ := Expression.exists_ordered hg hp.regular hbinds hops
  obtain ⟨tree, hshape, hparse⟩ := htable.parse_expression hu hordered (hyield ▸ hsource)
  obtain ⟨htree, hyield', hordered'⟩ := hu.of_shape_eq hg hshape
  obtain ⟨hderives, hsymbol⟩ := hg.derives_iff.2 htree
  refine ⟨tree, hparse, hderives, hsymbol ▸ hg.start_eq, hyield'.trans hyield, hordered' hordered,
    fun v hv hstart hv' hvo => ?_⟩
  have hroot : v.symbol = E := Option.some.inj (hstart.symm.trans hg.start_eq)
  have hv : Expression E atom ops v := hg.derives_iff.1 ⟨hv, hroot⟩
  rw [hshape]
  exact hv.shape_eq hu hg hp.regular hvo hordered (hv'.trans hyield.symm)

/-- Powers are read to the right and below differences, and differences to the left. -/
theorem parse_operators_arithmetic :
    ∃ g t tree, Demo.arithmetic = .ok g ∧
      g.Operators ⟨"E"⟩ ⟨"n"⟩ (.ofList [⟨"^"⟩, ⟨"-"⟩]) ∧ Demo.arithmeticPrecedence.Declared ∧
      (Table.build g { precedence := some Demo.arithmeticPrecedence }).outcome = .ok t ∧
      (∃ n, ∀ steps, n ≤ steps →
        (parse t.setting steps (ListedTokens.mk [⟨"n"⟩, ⟨"-"⟩, ⟨"n"⟩, ⟨"^"⟩, ⟨"n"⟩, ⟨"^"⟩, ⟨"n"⟩,
          ⟨"-"⟩, ⟨"n"⟩] 0)).value = some (.ok tree)) ∧
      tree.shape = Demo.operation (Demo.operation Demo.number "-" (Demo.operation Demo.number "^"
        (Demo.operation Demo.number "^" Demo.number))) "-" Demo.number := by
  have hg := Demo.arithmetic_eq
  have hops := Demo.operators_arithmetic hg
  obtain ⟨t, hbuild, hparse⟩ := parse_operators (σ := ListedTokens) hops Demo.declared_arithmetic
    (by decide +kernel) (by decide +kernel)
  obtain ⟨tree, hn, -, -, -, -, hunique⟩ := hparse t.policy.order [⟨"-"⟩, ⟨"^"⟩, ⟨"^"⟩, ⟨"-"⟩]
    (by decide +kernel) (ListedTokens.mk _ 0) (supplies_listed 0 (by decide +kernel))
  refine ⟨_, t, tree, hg, hops, Demo.declared_arithmetic, hbuild, hn, ?_⟩
  exact (hunique _ (by decide +kernel) (by decide +kernel) (by decide +kernel)
    Demo.ordered_arithmetic).symm

end Parser

end TreeControl
