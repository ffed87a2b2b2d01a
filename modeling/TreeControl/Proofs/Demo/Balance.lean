import TreeControl.Proofs.Parser.Idle
import TreeControl.Proofs.Token.Splitting

/-! # The demonstration program decides balanced words

The derivations of the demonstration grammar are nests of `a` and `b` (`exists_nest`), so its
sentences are balanced, the levels below the root are all `a S b`, and the level automaton has nothing
to refuse (`exists_idle`).  What is left to the parser is to end: building a nest alternates between
shifts and reductions but for its middle, so no run takes more than two actions for each word and one
more (`length_le_of_runs`).

Whatever the words of a text are, the parse then has a result after that many steps: the nest if the
words are balanced, else an error about a word or about the end (`parse_result`).  The nest is printed
level by level and the error on a line of its own (`respondBytes_decides`). -/

namespace TreeControl.Demo

open TreeControl.Parser

variable {σ : Type} [TokenSource σ] {source : σ} {g : Grammar} {t tA : Table} {D : Automaton}
  {c c₀ : Config σ} {u tree : Tree} {w : List Symbol} {acts : List Action} {n : Nat}

/-! ### Nests -/

/-- `n` times `a` and then `n` times `b`. -/
def balanced (n : Nat) : List Symbol := List.replicate n ⟨"a"⟩ ++ List.replicate n ⟨"b"⟩

/-- The derivation with `n` pairs around each other. -/
def nest : Nat → Tree
  | 0 => .node 0 ⟨"S"⟩ []
  | n + 1 => .node 0 ⟨"S"⟩ [.node 0 ⟨"a"⟩ [], nest n, .node 0 ⟨"b"⟩ []]

/-- The actions that build a nest: rule 2 makes the middle, and rule 1 closes each pair. -/
def nestActions : Nat → List Action
  | 0 => [.reduce 2]
  | n + 1 => .shift :: (nestActions n ++ [.shift, .reduce 1])

theorem balanced_succ (n : Nat) : balanced (n + 1) = ⟨"a"⟩ :: (balanced n ++ [⟨"b"⟩]) := by
  rw [balanced, List.replicate_succ, List.replicate_succ', balanced, List.cons_append,
    List.append_assoc]

theorem symbol_nest (n : Nat) : (nest n).symbol = ⟨"S"⟩ := by cases n <;> rfl

theorem levels_nest (n : Nat) :
    (nest n).levels = [⟨"S"⟩] :: List.replicate n [⟨"a"⟩, ⟨"S"⟩, ⟨"b"⟩] := by
  induction n with
  | zero => rfl
  | succ n ih =>
    rw [nest, Tree.levels, Tree.levelsAll, Tree.levelsAll, ih]
    simp [Tree.levels, Tree.levelsAll, joinLevels, List.replicate_succ]

/-! ### The grammar -/

theorem rules_eq (hg : grammar = .ok g) :
    g.rules = [⟨⟨"S"⟩, [⟨"a"⟩, ⟨"S"⟩, ⟨"b"⟩]⟩, ⟨⟨"S"⟩, []⟩] := by
  cases hg.symm.trans grammar_eq
  decide +kernel

theorem terminals_eq (hg : grammar = .ok g) : g.terminals.toList = [⟨"a"⟩, ⟨"b"⟩] := by
  cases hg.symm.trans grammar_eq
  decide +kernel

theorem start_eq (hg : grammar = .ok g) : g.start = some ⟨"S"⟩ := by
  cases hg.symm.trans grammar_eq
  decide +kernel

theorem mem_terminals_iff (hg : grammar = .ok g) {s : Symbol} :
    s ∈ g.terminals ↔ s = ⟨"a"⟩ ∨ s = ⟨"b"⟩ := by
  rw [OrdSet.mem_def, terminals_eq hg]
  simp

theorem derives_nest (hg : grammar = .ok g) (n : Nat) : g.Derives (nest n) := by
  have hS : ¬ (⟨"S"⟩ : Symbol) ∈ g.terminals := by simp [mem_terminals_iff hg]
  induction n with
  | zero =>
    rw [nest, Grammar.derives_rule_iff hS, rules_eq hg]
    simp
  | succ n ih =>
    have ha : g.Derives (.node 0 ⟨"a"⟩ []) :=
      (Grammar.derives_leaf_iff ((mem_terminals_iff hg).2 (.inl rfl))).2 rfl
    have hb : g.Derives (.node 0 ⟨"b"⟩ []) :=
      (Grammar.derives_leaf_iff ((mem_terminals_iff hg).2 (.inr rfl))).2 rfl
    rw [nest, Grammar.derives_rule_iff hS, rules_eq hg]
    refine ⟨?_, by simp [ha, hb, ih]⟩
    rw [List.map_cons, List.map_cons, symbol_nest]
    simp [Tree.symbol]

theorem yield_nest (hg : grammar = .ok g) (n : Nat) : g.yield (nest n) = balanced n := by
  have hS : ¬ (⟨"S"⟩ : Symbol) ∈ g.terminals := by simp [mem_terminals_iff hg]
  induction n with
  | zero =>
    rw [nest, Grammar.yield_node hS]
    rfl
  | succ n ih =>
    rw [nest, Grammar.yield_node hS, Grammar.yieldAll_cons, Grammar.yieldAll_cons,
      Grammar.yieldAll_cons, Grammar.yield_leaf ((mem_terminals_iff hg).2 (.inl rfl)), ih,
      Grammar.yield_leaf ((mem_terminals_iff hg).2 (.inr rfl)), balanced_succ]
    rfl

theorem script_of_terminal (hg : g.WellFormed) (h : Script g u acts)
    (hs : u.symbol ∈ g.terminals) : u.shape = .node 0 u.symbol [] ∧ acts = [.shift] := by
  cases h with
  | leaf => exact ⟨rfl, rfl⟩
  | node hrule _ => exact absurd (hg.lhs_mem _ (List.mem_of_getElem? hrule)) (hg.apart _ hs)

/-- A derivation of `S` is empty or stands around a smaller one. -/
theorem script_cases (hg : grammar = .ok g) (h : Script g u acts)
    (hs : u.symbol = ⟨"S"⟩) : (u.shape = nest 0 ∧ acts = nestActions 0) ∨
      ∃ v inner, sizeOf v < sizeOf u ∧ Script g v inner ∧ v.symbol = ⟨"S"⟩ ∧
        u.shape = .node 0 ⟨"S"⟩ [.node 0 ⟨"a"⟩ [], v.shape, .node 0 ⟨"b"⟩ []] ∧
        acts = .shift :: (inner ++ [.shift, .reduce 1]) := by
  have hwf := (built_grammar hg).wellFormed
  cases h with
  | @leaf id s hterm =>
    rw [show s = ⟨"S"⟩ from hs] at hterm
    simp [mem_terminals_iff hg] at hterm
  | @node id k s ts scripts hrule hts =>
    rw [rules_eq hg] at hrule
    match k with
    | 0 =>
      rw [List.getElem?_cons_zero, Option.some.injEq, Rule.mk.injEq] at hrule
      obtain ⟨rfl, hsymbols⟩ := hrule
      obtain ⟨x, _, rfl, hx, hsymbols⟩ := List.map_eq_cons_iff.1 hsymbols.symm
      obtain ⟨v, _, rfl, hv, hsymbols⟩ := List.map_eq_cons_iff.1 hsymbols
      obtain ⟨y, _, rfl, hy, hsymbols⟩ := List.map_eq_cons_iff.1 hsymbols
      obtain rfl := List.map_eq_nil_iff.1 hsymbols
      obtain ⟨_, _, hxacts, hrest, rfl⟩ := List.forall₂_cons_left_iff.1 hts
      obtain ⟨inner, _, hinner, hlast, rfl⟩ := List.forall₂_cons_left_iff.1 hrest
      obtain ⟨_, _, hyacts, hnil, rfl⟩ := List.forall₂_cons_left_iff.1 hlast
      cases hnil
      obtain ⟨hxshape, rfl⟩ :=
        script_of_terminal hwf hxacts (hx ▸ (mem_terminals_iff hg).2 (.inl rfl))
      obtain ⟨hyshape, rfl⟩ :=
        script_of_terminal hwf hyacts (hy ▸ (mem_terminals_iff hg).2 (.inr rfl))
      refine .inr ⟨v, inner, by simp; omega, hinner, hv, ?_, by simp⟩
      rw [Tree.shape_node, List.map_cons, List.map_cons, List.map_singleton, hxshape, hyshape, hx,
        hy]
    | 1 =>
      rw [List.getElem?_cons_succ, List.getElem?_cons_zero, Option.some.injEq, Rule.mk.injEq]
        at hrule
      obtain ⟨rfl, hsymbols⟩ := hrule
      obtain rfl := List.map_eq_nil_iff.1 hsymbols.symm
      cases hts
      exact .inl ⟨rfl, rfl⟩
    | k + 2 => simp at hrule

/-- Every derivation of `S` is a nest, and it is built like one. -/
theorem exists_nest (hg : grammar = .ok g) (h : Script g u acts)
    (hs : u.symbol = ⟨"S"⟩) : ∃ n, u.shape = nest n ∧ acts = nestActions n := by
  induction hk : sizeOf u using Nat.strong_induction_on generalizing u acts with
  | _ k ih =>
    obtain hempty | ⟨v, inner, hlt, hv, hvs, hshape, rfl⟩ := script_cases hg h hs
    · exact ⟨0, hempty⟩
    · obtain ⟨n, hn, rfl⟩ := ih _ (hk ▸ hlt) hv hvs rfl
      exact ⟨n + 1, by rw [hshape, hn, nest], rfl⟩

/-! ### Steps -/

/-- Behind what begins a nest, at most every second action was no shift. -/
theorem length_le_of_prefix (h : acts <+: nestActions n) :
    acts.length ≤ 2 * acts.count .shift + 1 := by
  induction n generalizing acts with
  | zero =>
    have := h.length_le
    rw [nestActions, List.length_singleton] at this
    omega
  | succ n ih =>
    have hfull := ih (List.prefix_refl (nestActions n))
    obtain rfl | ⟨acts, rfl, hacts⟩ := List.prefix_cons_iff.1 h
    · simp
    rw [List.append_cons (nestActions n), List.prefix_concat_iff, List.prefix_concat_iff] at hacts
    obtain rfl | rfl | hacts := hacts
    · simp [List.count_append]
      omega
    · simp [List.count_append]
      omega
    · have := ih hacts
      simp
      omega

/-- No run performs more than two actions for each word and one more. -/
theorem length_le_of_runs (hg : grammar = .ok g) (hbuild : (Table.build g {}).outcome = .ok t)
    (hw : TokenSource.Supplies source w) (hbegin : begin t source = .ok c₀)
    (hruns : Runs t c₀ acts c) : acts.length ≤ 2 * w.length + 1 := by
  have hproductive : g.Productive := by
    cases hg.symm.trans grammar_eq
    exact productive_demo
  obtain ⟨u, v, x, rfl, -, tree, rest, z, hscript, hstart, -, -, hlen⟩ :=
    hruns.begins hbegin hbuild (built_grammar hg).wellFormed hproductive hw
  rw [start_eq hg, Option.some.injEq] at hstart
  obtain ⟨n, -, hacts⟩ := exists_nest hg hscript hstart.symm
  have := length_le_of_prefix (hacts ▸ List.prefix_append acts rest)
  rw [List.length_append]
  omega

/-! ### The level automaton -/

theorem table_of_build {A : Automaton} (hg : grammar = .ok g) (hA : levels = .ok A)
    (hbuild : (Table.build g { automaton := some A, report := true }).outcome = .ok t) :
    table = .ok t := by
  rw [table, hg, hA]
  exact hbuild

/-- The levels of nests are what the automaton accepts, so it is idle in the table of the program. -/
theorem exists_idle : ∃ g t tA D, grammar = .ok g ∧ table = .ok tA ∧ Idle g t tA D := by
  obtain ⟨t, ht⟩ := exists_table
  have hg := built_grammar grammar_eq
  obtain ⟨hD, -⟩ := Automaton.prepare_spec (built_levels levels_eq).wellFormed prepare_levels_eq
  have hlevels : (Table.prepareLevels
      { automaton := some (levels.toOption.getD {}), report := true }).outcome = .ok (some _) :=
    (Table.prepareLevels_outcome_iff rfl).2 ⟨_, prepare_levels_eq, rfl⟩
  obtain ⟨tA, hbuildA, same, htA⟩ : ∃ tA, (Table.build (grammar.toOption.getD {})
      { automaton := some (levels.toOption.getD {}), report := true }).outcome = .ok tA ∧
      SameRows t tA ∧
      tA.automaton = some ((levels.toOption.getD {}).prepare.outcome.toOption.getD {}) :=
    ⟨_, Table.build_of_strict ht rfl rfl hlevels, ⟨rfl, rfl⟩, rfl⟩
  have htable : table = .ok tA := table_of_build grammar_eq levels_eq hbuildA
  refine ⟨_, t, tA, _, grammar_eq, htable, hg.wellFormed, productive_demo, ht, same, htA, hD, ?_⟩
  intro u hu hstart level hlevel
  obtain ⟨acts, hacts⟩ := exists_script u hu
  rw [start_eq grammar_eq, Option.some.injEq] at hstart
  obtain ⟨n, hshape, -⟩ := exists_nest grammar_eq hacts hstart.symm
  rw [← Tree.levels_shape, hshape, levels_nest] at hlevel
  obtain rfl | hlevel := List.mem_cons.1 hlevel
  · decide +kernel
  · rw [List.eq_of_mem_replicate hlevel]
    decide +kernel

/-! ### Results -/

theorem eq_balanced_of_parse (h : Idle g t tA D) (hg : grammar = .ok g)
    (hw : TokenSource.Supplies source w) {steps : Nat}
    (hparse : (parse t.setting steps source).value = some (.ok tree)) :
    ∃ n, w = balanced n ∧ tree.shape = nest n := by
  obtain ⟨c₀, c, hbegin, hsteps, hfin⟩ := yields_of_parse hparse
  obtain ⟨acts, hruns⟩ := steps_iff_exists_runs.1 hsteps
  have hsound := h.sound hbegin hruns
  obtain ⟨hstart, hblank⟩ := hsound.eq_start h.build hfin
  have htrees := Forest.finish_iff_trees.1 hfin.2.2
  have hderives := hsound.derived tree (htrees ▸ List.mem_singleton_self tree)
  obtain ⟨acts, hacts⟩ := exists_script tree hderives
  rw [start_eq hg, Option.some.injEq] at hstart
  obtain ⟨n, hshape, -⟩ := exists_nest hg hacts hstart.symm
  have hsupply := hsound.tokens [] hblank
  rw [htrees, List.append_nil, Grammar.yieldAll, List.flatMap_singleton] at hsupply
  refine ⟨n, ?_, hshape⟩
  rw [hw.unique hsupply, ← Grammar.yield_shape, hshape, yield_nest hg]

/-- Words are parsed into a nest if they are balanced, else one of them or their end is refused. -/
theorem parse_result (h : Idle g t tA D) (hg : grammar = .ok g)
    (hw : TokenSource.Supplies source w) :
    ∃ result, (∀ steps, 2 * w.length + 2 ≤ steps →
        (parse tA.setting steps source).value = some result) ∧
      ((∃ n tree, w = balanced n ∧ result = .ok tree ∧ tree.shape = nest n) ∨
        (∀ n, w ≠ balanced n) ∧ ∃ x ∈ .blank :: w, ∃ e, result = .error e ∧ Concerns x e) := by
  obtain ⟨result, hresult⟩ : ∃ result, ∀ steps, 2 * w.length + 1 + 1 ≤ steps →
      (parse t.setting steps source).value = some result :=
    exists_result_of_bound fun c₀ acts c hbegin hruns => length_le_of_runs hg h.build hw hbegin hruns
  refine ⟨result, fun steps hsteps => (h.parse_eq hw steps).trans (hresult steps hsteps), ?_⟩
  have hparse := hresult _ (Nat.le_refl _)
  cases result with
  | ok tree =>
    obtain ⟨n, hn, hshape⟩ := eq_balanced_of_parse h hg hw hparse
    exact .inl ⟨n, tree, hn, rfl, hshape⟩
  | error e =>
    refine .inr ⟨fun n hn => ?_, ?_⟩
    · -- A balanced input is a sentence, and sentences are parsed.
      obtain ⟨tree, -, hyields⟩ := exists_yields h.build h.wellFormed rfl (derives_nest hg n)
        (by rw [start_eq hg, symbol_nest]) (yield_nest hg n ▸ hn ▸ hw)
      obtain ⟨k, hk⟩ := h.sole.parse_eq (s := t.setting) hyields
      have hok := hk _ (Nat.le_max_left k (2 * w.length + 1 + 1))
      cases hok.symm.trans (hresult _ (Nat.le_max_right k _))
    · obtain ⟨x, hx, he⟩ := exists_mem_of_error h.wellFormed h.build hw hparse
      exact ⟨x, hx, e, rfl, he⟩

/-! ### Answers -/

/-- The lines of a nest. -/
def nestLines (n : Nat) : List String :=
  "0: S\n" :: (List.range' 1 n).map fun i => s!"{i}: a S b\n"

theorem text_of_shape (h : tree.shape = nest n) : tree.text = String.join (nestLines n) := by
  have hlevels : tree.levels = [⟨"S"⟩] :: List.replicate n [⟨"a"⟩, ⟨"S"⟩, ⟨"b"⟩] := by
    rw [← Tree.levels_shape, h, levels_nest]
  have hinner : ((List.replicate n "a S b").zipIdx 1).map
      (fun p : String × Nat => s!"{p.2}: {p.1}\n") =
        (List.range' 1 n).map fun i => s!"{i}: a S b\n" := by
    refine List.ext_getElem (by simp) fun i hi hi' => ?_
    simp [toString, String.append_assoc]
  rw [Tree.text, Tree.levelTexts, hlevels, List.map_cons, List.map_replicate, List.zipIdx_cons,
    List.map_cons, nestLines]
  exact congrArg (fun lines => String.join ("0: S\n" :: lines)) hinner

example : String.join (nestLines 2) = "0: S\n1: a S b\n2: a S b\n" := by decide +kernel

/-! ### Error lines -/

theorem message_of_concerns {x : Symbol} {e : ParseError} (h : Concerns x e)
    (hx : '\n' ∉ x.name.toList) : e.message ≠ "" ∧ '\n' ∉ e.message.toList := by
  have hnumber : ∀ n, '\n' ∉ Nat.toDigits 10 n := not_mem_toDigits (by decide)
  have hplace : ∀ l : Location, '\n' ∉ l.text.toList := Location.not_mem_text (by decide) (by decide)
  unfold ParseError.message
  cases h with
  | foreign l => simp [toString, hplace, hx]
  | unexpected q l => simp [toString, hplace, hnumber, hx]

theorem newline_not_mem_name {text : String} {x : Symbol} (hx : x ∈ .blank :: Words.symbols text) :
    '\n' ∉ x.name.toList := by
  obtain rfl | hx := List.mem_cons.1 hx
  · simp [Symbol.blank]
  · obtain ⟨word, hword, rfl⟩ := List.mem_map.1 hx
    rw [String.toList_ofList]
    intro h
    exact absurd (forall_mem_splitWords hword _ h) (by decide)

/-! ### The program -/

theorem fromUTF8?_toUTF8 (text : String) : String.fromUTF8? text.toUTF8 = some text := by
  have hvalid : text.toUTF8.IsValidUTF8 := text.isValidUTF8
  rw [String.fromUTF8?, dif_pos hvalid]
  rfl

theorem steps_le_stepBound (text : String) :
    2 * (Words.symbols text).length + 2 ≤ stepBound text := by
  have := length_splitWords_le text.toList
  rw [String.length_toList] at this
  rw [Words.symbols, List.length_map, stepBound]
  omega

theorem respond_of_ok {text : String} (htable : table = .ok tA)
    (hparse : (parse tA.setting (stepBound text) (Words.ofText text)).value = some (.ok tree)) :
    respond text = ⟨0, tree.text, ""⟩ := by
  unfold respond
  rw [htable]
  dsimp only
  rw [hparse]

theorem respond_of_error {text : String} {e : ParseError} (htable : table = .ok tA)
    (hparse : (parse tA.setting (stepBound text) (Words.ofText text)).value = some (.error e)) :
    respond text = failure e.message := by
  unfold respond
  rw [htable]
  dsimp only
  rw [hparse]

/-- The program decides whether the words of its input are some `a`s and then as many `b`s.  On
every text the parse has its result after the steps it is given and keeps it with more.  For balanced
words the answer is their nest, line by line.  For all others it is an error with a line that says
what is wrong. -/
theorem respondBytes_decides (text : String) :
    (∃ t result, table = .ok t ∧ ∀ steps, stepBound text ≤ steps →
      (parse t.setting steps (Words.ofText text)).value = some result) ∧
    ((∃ n, Words.symbols text = balanced n ∧
        respondBytes text.toUTF8 = ⟨0, String.join (nestLines n), ""⟩) ∨
      (∀ n, Words.symbols text ≠ balanced n) ∧ ∃ line, line ≠ "" ∧ '\n' ∉ line.toList ∧
        respondBytes text.toUTF8 = ⟨1, "", line ++ "\n"⟩) := by
  obtain ⟨g, t, tA, D, hg, htable, h⟩ := exists_idle
  obtain ⟨result, hresult, hcases⟩ := parse_result h hg (Words.supplies_ofText text)
  have hsteps : ∀ steps, stepBound text ≤ steps →
      (parse tA.setting steps (Words.ofText text)).value = some result :=
    fun steps hle => hresult steps ((steps_le_stepBound text).trans hle)
  refine ⟨⟨tA, result, htable, hsteps⟩, ?_⟩
  have hparse := hsteps _ (Nat.le_refl _)
  rw [respondBytes, fromUTF8?_toUTF8]
  obtain ⟨n, tree, hn, rfl, hshape⟩ | ⟨hn, x, hx, e, rfl, he⟩ := hcases
  · left
    refine ⟨n, hn, ?_⟩
    rw [← text_of_shape hshape]
    exact respond_of_ok htable hparse
  · right
    obtain ⟨hne, hline⟩ := message_of_concerns he (newline_not_mem_name hx)
    exact ⟨hn, e.message, hne, hline, respond_of_error htable hparse⟩

end TreeControl.Demo
