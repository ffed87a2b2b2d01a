import Mathlib.Data.Finset.Lattice.Prod
import Mathlib.Data.List.Infix
import TreeControl.Proofs.Parser.Refusal

/-! # Every parse comes to an end

Reductions consume no token and may enlarge the stack, so nothing in a configuration shrinks.  What
bounds them is that the parser never works in vain: the actions taken so far build the trees of the
forest (`Runs.exists_scripts`), the symbols on the stack begin some right side after another, and if
all nonterminals are productive the trees can be completed to a derivation under the start symbol
(`exists_completion`).  So every run begins the construction of a sentence (`Begins`), though
not of the input: the lookahead may be one that no sentence goes on with.

In a table without conflicts two sentences with the same tokens up to some place and the same token
behind it are parsed in the same way up to there.  A single one of them, parsed to its end, is
longer than what all the others begin with (`exists_bound`).  There are finitely many places in an
input and finitely many tokens to go on with, hence a bound for all runs and a result after that
many steps (`parse_terminates`). -/

namespace TreeControl

variable {g G : Grammar} {top start : Symbol} {r : Rule} {n : Nat}

namespace Parser

variable {σ : Type} [TokenSource σ] {t : Table} {m : Means} {s : Setting} {c c₀ c' c'' : Config σ}
  {source : σ} {a : Action} {acts as bs : List Action} {scripts : List (List Action)}
  {ts : List Tree} {w : List Symbol} {i j : Item} {steps k : Nat} {result : Except ParseError Tree}

/-! ### The actions taken so far -/

/-- A step adds its action to those that build the forest. -/
theorem Takes.exists_scripts (h : Takes t c a c') (hsound : Sound g t source c)
    (hbuild : (Table.build g m).outcome = .ok t) (hg : g.WellFormed)
    (hscripts : List.Forall₂ (Script g) c.forest.trees scripts) :
    ∃ scripts', List.Forall₂ (Script g) c'.forest.trees scripts' ∧
      scripts'.flatten = scripts.flatten ++ [a] := by
  cases h with
  | @shift q forest source token hoffer hforest hread =>
    obtain ⟨-, hterm⟩ := moves_of_shift hbuild hg hoffer
    obtain ⟨below, children, htrees, hlen, htrees'⟩ := Forest.trees_of_merge hforest
    have hnil : children = [] := List.eq_nil_of_length_eq_zero hlen
    rw [hnil, List.append_nil] at htrees
    rw [hnil, ← htrees] at htrees'
    refine ⟨scripts ++ [[.shift]], ?_, by simp⟩
    rw [htrees']
    exact List.rel_append hscripts (.cons (.leaf hterm) .nil)
  | @reduce n q r popped rest forest hoffer hr hframes hpop hrest hgoto hforest =>
    obtain ⟨top, start, hG⟩ := Table.augments_of_build hbuild
    rw [Table.offers_entry?_iff hbuild, Grammar.asks_reduce_iff hG] at hoffer
    obtain ⟨k, rfl, hrule⟩ := hG.exists_getElem? hoffer.1 hr
    obtain ⟨below, children, htrees, htrees', -, hchildren⟩ :=
      hsound.roots_of_merge hframes hpop hforest
    rw [htrees] at hscripts
    have hbelow := List.forall₂_take below.length hscripts
    have hmerged := List.forall₂_drop below.length hscripts
    rw [List.take_left] at hbelow
    rw [List.drop_left] at hmerged
    have hnode : Script g (.node c.forest.nextId r.lhs children)
        ((scripts.drop below.length).flatten ++ [.reduce (k + 1)]) := by
      refine .node ?_ hmerged
      rw [hrule, ← hchildren]
    refine ⟨scripts.take below.length ++ [(scripts.drop below.length).flatten ++ [.reduce (k + 1)]],
      ?_, ?_⟩
    · rw [htrees']
      exact List.rel_append hbelow (.cons hnode .nil)
    · rw [List.flatten_concat, ← List.append_assoc, ← List.flatten_append, List.take_append_drop]

theorem Runs.exists_scripts (h : Runs t c acts c') (hsound : Sound g t source c)
    (hbuild : (Table.build g m).outcome = .ok t) (hg : g.WellFormed)
    (hprep : ∀ D, t.automaton = some D → D.Prepared)
    (hscripts : List.Forall₂ (Script g) c.forest.trees scripts) :
    ∃ scripts', List.Forall₂ (Script g) c'.forest.trees scripts' ∧
      scripts'.flatten = scripts.flatten ++ acts := by
  induction h generalizing scripts with
  | nil c => exact ⟨scripts, hscripts, (List.append_nil _).symm⟩
  | cons hstep _ ih =>
    obtain ⟨scripts₁, hscripts₁, hflat₁⟩ := hstep.exists_scripts hsound hbuild hg hscripts
    have hsound₁ := hsound.step hbuild hg hprep (step_iff_exists_takes.2 ⟨_, hstep⟩)
    obtain ⟨scripts', hscripts', hflat⟩ := ih hsound₁ hscripts₁
    refine ⟨scripts', hscripts', ?_⟩
    rw [hflat, hflat₁, List.append_assoc]
    rfl

/-! ### Completing a derivation -/

theorem exists_scripts_of_productive (hg : g.WellFormed) (hproductive : g.Productive)
    (hw : ∀ x ∈ w, x ∈ g.terminals ∨ x ∈ g.nonterminals) :
    ∃ ts scripts, ts.map Tree.symbol = w ∧ List.Forall₂ (Script g) ts scripts := by
  obtain ⟨z, hz, hgen⟩ := hproductive.generates hw
  obtain ⟨ts, hsymbols, hderives, -⟩ := (Grammar.generates_iff_exists_trees hg hz).1 hgen
  obtain ⟨scripts, hscripts⟩ := exists_scripts ts hderives
  exact ⟨ts, scripts, hsymbols, hscripts⟩

/-- Trees over the symbols that lead from one item to another begin trees over what the first item
still expects, and the actions that build the former begin those that build the latter. -/
theorem exists_completion (hG : G.Augments g top start) (hg : g.WellFormed)
    (hproductive : g.Productive) (h : G.ItemRun i w j) (hr : G.rules[i.rule]? = some r)
    (hts : List.Forall₂ (Script g) ts scripts) (hw : ts.map Tree.symbol = w) :
    ∃ us scripts' rest z, us.map Tree.symbol = r.rhs.drop i.marker ∧
      List.Forall₂ (Script g) us scripts' ∧ scripts'.flatten = scripts.flatten ++ rest ∧
      g.yieldAll us = g.yieldAll ts ++ z := by
  induction h generalizing r ts scripts with
  | stop i =>
    obtain rfl := List.map_eq_nil_iff.1 hw
    cases hts
    have hdeclared := hG.declared_of_mem_rhs hg (List.mem_of_getElem? hr)
    obtain ⟨us, scripts', hsymbols, hscripts'⟩ := exists_scripts_of_productive hg hproductive
      fun x hx => hdeclared x (List.mem_of_mem_drop (i := i.marker) hx)
    exact ⟨us, scripts', scripts'.flatten, g.yieldAll us, hsymbols, hscripts', rfl, rfl⟩
  | @move n m r₀ x w j hr₀ hx _ ih =>
    cases hr₀.symm.trans hr
    obtain ⟨u, ts', rfl, rfl, hw'⟩ := List.map_eq_cons_iff.1 hw
    obtain ⟨script, scripts, hu, hts', rfl⟩ := List.forall₂_cons_left_iff.1 hts
    obtain ⟨us, scripts', rest, z, hsymbols, hscripts', hflat, hyield⟩ := ih hr₀ hts' hw'
    refine ⟨u :: us, script :: scripts', rest, z, ?_, .cons hu hscripts', ?_, ?_⟩
    · rw [List.map_cons, hsymbols, List.drop_eq_getElem?_toList_append (i := m), hx]
      rfl
    · rw [List.flatten_cons, hflat, List.flatten_cons, List.append_assoc]
    · rw [Grammar.yieldAll_cons, hyield, Grammar.yieldAll_cons, List.append_assoc]
  | @enter n m n' r₀ r' w j hr₀ hx _ hr' _ ih =>
    cases hr₀.symm.trans hr
    have hdeclared := hG.declared_of_mem_rhs hg (List.mem_of_getElem? hr₀)
    obtain ⟨us, scripts', rest, z, hsymbols, hscripts', hflat, hyield⟩ := ih hr' hts hw
    -- The rule that is entered is an old one, since its left side is on a right side.
    have hn' : n' ≠ 0 := by
      rintro rfl
      cases hG.rule_zero.symm.trans hr'
      exact hG.top_not_mem_rhs hg (List.mem_of_getElem? hr₀) (List.mem_of_getElem? hx)
    obtain ⟨k, rfl, hrule⟩ := hG.exists_getElem? hn' hr'
    obtain ⟨vs, scripts'', hsymbols', hscripts''⟩ := exists_scripts_of_productive hg hproductive
      fun x hx => hdeclared x (List.mem_of_mem_drop (i := m + 1) hx)
    have hnode : Script g (.node 0 r'.lhs us) (scripts'.flatten ++ [.reduce (k + 1)]) := by
      refine .node ?_ hscripts'
      rw [hrule, hsymbols]
      rfl
    have hlhs : ¬ r'.lhs ∈ g.terminals :=
      fun ht => hg.apart _ ht (hg.lhs_mem r' (List.mem_of_getElem? hrule))
    refine ⟨.node 0 r'.lhs us :: vs, _, rest ++ [.reduce (k + 1)] ++ scripts''.flatten,
      z ++ g.yieldAll vs, ?_, .cons hnode hscripts'', ?_, ?_⟩
    · rw [List.map_cons, hsymbols', List.drop_eq_getElem?_toList_append (i := m), hx]
      rfl
    · rw [List.flatten_cons, hflat]
      simp only [List.append_assoc]
    · rw [Grammar.yieldAll_cons, Grammar.yield_node hlhs, hyield, List.append_assoc]

/-! ### Sentences that are begun -/

/-- Actions that begin to build a derivation under the start symbol: they shift `u`, and its
sentence goes on with `x` or, if that is blank, ends. -/
def Begins (g : Grammar) (u : List Symbol) (x : Symbol) (acts : List Action) : Prop :=
  ∃ tree rest z, Script g tree (acts ++ rest) ∧ g.start = some tree.symbol ∧
    g.yield tree = u ++ z ∧ z.headD .blank = x ∧ u.length = acts.count .shift

/-- Whatever the parser has done with some tokens, it has begun a sentence that begins with them. -/
theorem Runs.begins (h : Runs t c₀ acts c) (hbegin : begin t source = .ok c₀)
    (hbuild : (Table.build g {}).outcome = .ok t) (hg : g.WellFormed)
    (hproductive : g.Productive) (hw : TokenSource.Supplies source w) :
    ∃ u v x, w = u ++ v ∧ (x = .blank ∨ x ∈ g.terminals) ∧ Begins g u x acts := by
  obtain ⟨top, start, hG⟩ := Table.augments_of_build hbuild
  have plain : ∀ D, t.automaton = some D → D.Prepared := by
    intro D hD
    rw [Table.automaton_eq_none_of_build hbuild rfl] at hD
    cases hD
  have hsound₀ : Sound g t source c₀ := sound_begin hbegin
  have hsound := hsound₀.steps hbuild hg plain (steps_iff_exists_runs.2 ⟨acts, h⟩)
  obtain ⟨token, source', hread, rfl⟩ := begin_eq_ok_iff.1 hbegin
  -- The tokens of the forest are those that were shifted.
  obtain ⟨u, v, rfl, hlen, hv⟩ := h.exists_ahead hbuild hg ((ahead_iff_of_readToken hread).2 hw)
  have hyield : g.yieldAll c.forest.trees = u :=
    List.append_cancel_right ((hsound.tokens v hv).unique hw)
  obtain ⟨scripts, hscripts, hflat⟩ := h.exists_scripts hsound₀ hbuild hg plain .nil
  obtain ⟨i, -, -, hrun⟩ := hsound.exists_itemRun hbuild
  obtain ⟨us, scripts', rest, z, hus, hscripts', hflat', hyield'⟩ :=
    exists_completion hG hg hproductive hrun hG.rule_zero hscripts rfl
  obtain ⟨tree, rfl, htree⟩ := List.map_eq_singleton_iff.1 hus
  obtain ⟨script, _, hscript, hnil, rfl⟩ := List.forall₂_cons_left_iff.1 hscripts'
  cases hnil
  have hscript' : script = acts ++ rest := by simpa [hflat] using hflat'
  rw [hyield, Grammar.yieldAll, List.flatMap_singleton] at hyield'
  refine ⟨u, v, z.headD .blank, rfl, ?_, tree, rest, z, hscript' ▸ hscript, ?_, hyield', rfl,
    hlen⟩
  · cases z with
    | nil => exact .inl rfl
    | cons x z => exact .inr (Grammar.mem_terminals_of_mem_yield (t := tree) (by simp [hyield']))
  · rw [hG.start_eq, htree]

/-! ### The bound -/

theorem Runs.of_append (h : Runs t c (as ++ bs) c'') : ∃ c', Runs t c as c' ∧ Runs t c' bs c'' := by
  induction as generalizing c with
  | nil => exact ⟨c, .nil c, h⟩
  | cons a as ih =>
    cases h with
    | cons hstep h =>
      obtain ⟨c', has, hbs⟩ := ih h
      exact ⟨c', .cons hstep has, hbs⟩

/-- Without conflicts no run is longer than one that cannot go on. -/
theorem Runs.length_le (h : Runs t c as c') (ht : Sole t) (hstuck : ∀ d, ¬ Step t c' d)
    (h' : Runs t c bs c'') : bs.length ≤ as.length := by
  induction h generalizing bs with
  | nil c =>
    cases h' with
    | nil => exact Nat.le_refl 0
    | cons hstep _ => exact absurd (step_iff_exists_takes.2 ⟨_, hstep⟩) (hstuck _)
  | cons hstep _ ih =>
    cases h' with
    | nil => exact Nat.zero_le _
    | cons hstep' h' =>
      cases ht.step_unique (step_iff_exists_takes.2 ⟨_, hstep⟩)
        (step_iff_exists_takes.2 ⟨_, hstep'⟩)
      exact Nat.succ_le_succ (ih hstuck h')

/-- A sentence bounds what all sentences with the same beginning begin with. -/
theorem exists_bound (hbuild : (Table.build g {}).outcome = .ok t) (hg : g.WellFormed)
    (u : List Symbol) (x : Symbol) : ∃ n, ∀ acts, Begins g u x acts → acts.length ≤ n := by
  by_cases h : ∃ acts, Begins g u x acts
  · obtain ⟨acts₀, tree₀, rest₀, z₀, hscript₀, hstart₀, hyield₀, hhead₀, -⟩ := h
    refine ⟨(acts₀ ++ rest₀).length, ?_⟩
    rintro acts ⟨tree, rest, z, hscript, hstart, hyield, hhead, hlen⟩
    have hsupply : ∀ v : Tree, TokenSource.Supplies (ListedTokens.mk (g.yield v) 0) (g.yield v) :=
      fun v => supplies_listed 0 fun y hy e =>
        hg.named.1 (e ▸ Grammar.mem_terminals_of_mem_yield hy)
    obtain ⟨token, source, c, _, hread, hruns, -, -, -, -⟩ :=
      exists_runs hbuild hg hscript hstart (hsupply tree)
    obtain ⟨token₀, source₀, c₀, u₀, hread₀, hruns₀, hplain₀, haccept₀, htrees₀, -⟩ :=
      exists_runs hbuild hg hscript₀ hstart₀ (hsupply tree₀)
    have hz := (ahead_iff_of_readToken hread).2 (hsupply tree)
    have hz₀ := (ahead_iff_of_readToken hread₀).2 (hsupply tree₀)
    rw [hyield] at hz
    rw [hyield₀] at hz₀
    -- The beginning of the one sentence is parsed like that of the other.
    have hhead' : z₀.headD .blank = z.headD .blank := hhead₀.trans hhead.symm
    have htoken : token₀ = token :=
      hz₀.lookahead_eq.trans ((headD_append_congr u hhead').trans hz.lookahead_eq.symm)
    obtain ⟨top, start, hG⟩ := Table.augments_of_build hbuild
    have hterm : ∀ y ∈ u ++ z₀, y ∈ t.grammar.terminals := by
      rw [hG.terminals_eq, ← hyield₀]
      exact fun y hy => Grammar.mem_terminals_of_mem_yield hy
    obtain ⟨c₁, hacts, -⟩ := hruns.of_append
    obtain ⟨d, hacts₀, -⟩ := hacts.exists_mirror (d := ⟨_, _, source₀, token₀⟩)
      ⟨rfl, rfl, htoken⟩ hz hz₀ hlen hhead' hterm
    have hfin : c₀.Finishes t u₀ := finishes_of_accept hplain₀ haccept₀ htrees₀
    exact hruns₀.length_le (sole_of_build hbuild) (fun d => hfin.not_step) hacts₀
  · exact ⟨0, fun acts hacts => absurd ⟨acts, hacts⟩ h⟩

theorem exists_bound_of_supplies (hbuild : (Table.build g {}).outcome = .ok t) (hg : g.WellFormed)
    (hproductive : g.Productive) (hw : TokenSource.Supplies source w) :
    ∃ n, ∀ c acts c', begin t source = .ok c → Runs t c acts c' → acts.length ≤ n := by
  choose bound hbound using exists_bound hbuild hg
  let places := w.inits.toFinset ×ˢ (Symbol.blank :: g.terminals.toList).toFinset
  refine ⟨places.sup fun p => bound p.1 p.2, fun c acts c' hbegin hruns => ?_⟩
  obtain ⟨u, v, x, rfl, hx, hacts⟩ := hruns.begins hbegin hbuild hg hproductive hw
  have hmem : (u, x) ∈ places := by
    refine Finset.mem_product.2 ⟨?_, ?_⟩
    · simp
    · exact List.mem_toFinset.2 (List.mem_cons.2 hx)
  exact (hbound u x acts hacts).trans (Finset.le_sup (f := fun p => bound p.1 p.2) hmem)

/-! ### Enough steps -/

theorem exists_follows_of_none (h : (run s steps c).value = none) :
    ∃ acts c', Follows s c acts c' ∧ acts.length = steps := by
  induction steps generalizing c with
  | zero => exact ⟨[], c, .nil c, rfl⟩
  | succ steps ih =>
    rw [run, Traced.value_bind] at h
    cases hstep : (step s c).run.value with
    | error e =>
      rw [hstep] at h
      cases h
    | ok progress =>
      rw [hstep] at h
      cases progress with
      | finished tree => cases h
      | going c₁ =>
        obtain ⟨a, ha⟩ := exists_performs hstep
        obtain ⟨acts, c', hfollows, hlen⟩ := ih h
        exact ⟨a :: acts, c', .cons ha hfollows, by rw [List.length_cons, hlen]⟩

theorem run_of_le (h : (run s steps c).value = some result) (hle : steps ≤ k) :
    (run s k c).value = some result := by
  induction steps generalizing c k with
  | zero => cases h
  | succ steps ih =>
    obtain ⟨k, rfl⟩ : ∃ k', k = k' + 1 := ⟨k - 1, by omega⟩
    rw [run, Traced.value_bind] at h ⊢
    cases hstep : (step s c).run.value with
    | error e =>
      rw [hstep] at h
      exact h
    | ok progress =>
      rw [hstep] at h
      cases progress with
      | finished tree => exact h
      | going c₁ => exact ih h (by omega)

theorem exists_result_of_bound {n : Nat} (hbound : ∀ c₀ acts c, begin s.table source = .ok c₀ →
    Runs s.table c₀ acts c → acts.length ≤ n) :
    ∃ result, ∀ steps, n + 1 ≤ steps → (parse s steps source).value = some result := by
  unfold parse
  cases hbegin : begin s.table source with
  | error e => exact ⟨.error e, fun steps _ => rfl⟩
  | ok c =>
    cases hrun : (run s (n + 1) c).value with
    | none =>
      obtain ⟨acts, c', hfollows, hlen⟩ := exists_follows_of_none hrun
      have := hbound c acts c' hbegin hfollows.runs
      omega
    | some result => exact ⟨result, fun steps hsteps => run_of_le hrun hsteps⟩

/-- Let every nonterminal generate terminals and let the table have no conflicts.  Then a parse of
any tokens, terminals or not, ends: there is a number of steps after which the result is there and
stays the same, and the parser never performs more actions than that. -/
theorem parse_terminates (order : ResolutionOrder) (hg : g.Built) (hproductive : g.Productive)
    (hbuild : (Table.build g {}).outcome = .ok t) (hsource : TokenSource.Supplies source w) :
    ∃ n, (∃ result, ∀ steps, n ≤ steps →
        (parse ⟨t, order⟩ steps source).value = some result) ∧
      ∀ c acts c', begin t source = .ok c → Follows ⟨t, order⟩ c acts c' → acts.length < n := by
  obtain ⟨n, hn⟩ := exists_bound_of_supplies hbuild hg.wellFormed hproductive hsource
  refine ⟨n + 1, ?_, fun c acts c' hbegin h => Nat.lt_succ_of_le (hn c acts c' hbegin h.runs)⟩
  exact exists_result_of_bound (s := ⟨t, order⟩) hn

/-- In the demonstration grammar an empty `S` can be reduced wherever one is expected; tokens that
are no terminals end the parse like others. -/
theorem parse_terminates_demo :
    ∃ g t, Demo.grammar = .ok g ∧ (Table.build g {}).outcome = .ok t ∧ g.Productive ∧
      ∃ n, (∃ result, ∀ steps, n ≤ steps → (parse ⟨t, .levelsFirst⟩ steps
          (ListedTokens.mk [⟨"a"⟩, ⟨"b"⟩, ⟨"?"⟩, .blank, ⟨"b"⟩] 0)).value = some result) ∧
        ∀ c acts c', begin t (ListedTokens.mk [⟨"a"⟩, ⟨"b"⟩, ⟨"?"⟩, .blank, ⟨"b"⟩] 0) = .ok c →
          Follows ⟨t, .levelsFirst⟩ c acts c' → acts.length < n := by
  have hg := Demo.grammar_eq
  obtain ⟨t, ht⟩ := Demo.exists_table
  have hsource : TokenSource.Supplies (ListedTokens.mk [⟨"a"⟩, ⟨"b"⟩, ⟨"?"⟩, .blank, ⟨"b"⟩] 0)
      [⟨"a"⟩, ⟨"b"⟩, ⟨"?"⟩] := ⟨rfl, by decide, rfl, by decide, rfl, by decide, rfl⟩
  exact ⟨_, t, hg, ht, productive_demo,
    parse_terminates .levelsFirst (Demo.built_grammar hg) productive_demo ht hsource⟩

end Parser

end TreeControl
