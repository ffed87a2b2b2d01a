import TreeControl.Proofs.Demo
import TreeControl.Table.Text

/-! # The labels of the graph

In a label an ampersand begins an entity, and angle brackets belong to the breaks between the lines.
`readLabel` reads the body of a label back: it gives the texts between the breaks, with the entities
decoded, and nothing if the body holds a reserved character in any other place.  What it accepts are
the escaped texts, joined by breaks (`readLabel_eq_some_iff`).

The label of a node is such a body: it gives back the texts of the items in order, each on a line of its
own (`readLabel_nodeBody`).  The label of an arrow is the bare name of a symbol, and there the names
decide: reading the drawing (`Reads`) gives the labels of the table exactly if no name on an arrow
has a reserved character (`reads_graph_iff`). -/

namespace TreeControl.Table

variable {body rest cs name : List Char} {l : List Char} {ls : List (List Char)}
  {labels : List (List (List Char))} {t : Table}

/-! ### Escaping -/

/-- The characters that mean something in a label. -/
def reserved : List Char := ['&', '<', '>']

/-- Characters in a label. -/
def escaped (cs : List Char) : List Char := cs.flatMap escapeChar

/-- The text with an entity for every occurrence of a character. -/
def replaceChar (c : Char) (entity : String) (cs : List Char) : List Char :=
  cs.flatMap fun x => if x = c then entity.toList else [x]

@[simp] theorem escaped_cons (c : Char) (cs : List Char) :
    escaped (c :: cs) = escapeChar c ++ escaped cs := List.flatMap_cons

theorem toList_escape (s : String) : (escape s).toList = escaped s.toList := String.toList_ofList

theorem escapeChar_of_not_mem {c : Char} (h : c ∉ reserved) : escapeChar c = [c] := by
  simp only [reserved, List.mem_cons, List.not_mem_nil, or_false, not_or] at h
  unfold escapeChar
  split <;> simp_all

theorem replaceChar_cons (c : Char) (entity : String) (x : Char) (cs : List Char) :
    replaceChar c entity (x :: cs) =
      (if x = c then entity.toList else [x]) ++ replaceChar c entity cs := List.flatMap_cons

theorem replaceChar_append (c : Char) (entity : String) (cs cs' : List Char) :
    replaceChar c entity (cs ++ cs') = replaceChar c entity cs ++ replaceChar c entity cs' :=
  List.flatMap_append

theorem replaceChar_singleton_of_ne {c x : Char} (entity : String) (h : x ≠ c) :
    replaceChar c entity [x] = [x] := by
  rw [replaceChar_cons, if_neg h]
  rfl

/-- Escaping is three replacements, one after the other.  The ampersands come first: those of the
entities for the brackets stay as they are. -/
theorem escaped_eq_replaceChar (cs : List Char) :
    escaped cs = replaceChar '>' "&gt;" (replaceChar '<' "&lt;" (replaceChar '&' "&amp;" cs)) := by
  induction cs with
  | nil => rfl
  | cons c cs ih =>
    rw [escaped_cons, ih, ← List.singleton_append (l := cs), replaceChar_append,
      replaceChar_append, replaceChar_append]
    congr 1
    by_cases hc : c ∈ reserved
    · simp only [reserved, List.mem_cons, List.not_mem_nil, or_false] at hc
      rcases hc with rfl | rfl | rfl <;> decide +kernel
    · have hne : c ≠ '&' ∧ c ≠ '<' ∧ c ≠ '>' := by
        simpa only [reserved, List.mem_cons, List.not_mem_nil, or_false, not_or] using hc
      rw [escapeChar_of_not_mem hc, replaceChar_singleton_of_ne _ hne.1,
        replaceChar_singleton_of_ne _ hne.2.1, replaceChar_singleton_of_ne _ hne.2.2]

theorem not_mem_escapeChar (c : Char) : '<' ∉ escapeChar c ∧ '>' ∉ escapeChar c := by
  by_cases hc : c ∈ reserved
  · simp only [reserved, List.mem_cons, List.not_mem_nil, or_false] at hc
    rcases hc with rfl | rfl | rfl <;> decide +kernel
  · rw [escapeChar_of_not_mem hc]
    refine ⟨fun h => hc ?_, fun h => hc ?_⟩
    · rw [← List.mem_singleton.1 h]
      decide
    · rw [← List.mem_singleton.1 h]
      decide

theorem not_mem_escaped (cs : List Char) : '<' ∉ escaped cs ∧ '>' ∉ escaped cs := by
  constructor
  · intro h
    obtain ⟨c, -, hc⟩ := List.mem_flatMap.1 h
    exact (not_mem_escapeChar c).1 hc
  · intro h
    obtain ⟨c, -, hc⟩ := List.mem_flatMap.1 h
    exact (not_mem_escapeChar c).2 hc

theorem length_le_escaped (cs : List Char) : cs.length ≤ (escaped cs).length := by
  induction cs with
  | nil => simp
  | cons c cs ih =>
    have hc : 0 < (escapeChar c).length := by unfold escapeChar; split <;> simp
    rw [escaped_cons, List.length_append, List.length_cons]
    omega

theorem escaped_eq_self_iff : escaped cs = cs ↔ ∀ c ∈ cs, c ∉ reserved := by
  induction cs with
  | nil => simp [escaped]
  | cons c cs ih =>
    rw [escaped_cons, List.forall_mem_cons, ← ih]
    by_cases hc : c ∈ reserved
    · have hlong : 1 < (escapeChar c).length := by
        simp only [reserved, List.mem_cons, List.not_mem_nil, or_false] at hc
        rcases hc with rfl | rfl | rfl <;> decide +kernel
      have hle := length_le_escaped cs
      refine ⟨fun h => ?_, fun h => absurd hc h.1⟩
      have := congrArg List.length h
      rw [List.length_append, List.length_cons] at this
      omega
    · rw [escapeChar_of_not_mem hc]
      simp [hc]

/-! ### Reading a label -/

/-- The break behind a line of a label. -/
def lineBreak : List Char := "<br />".toList

/-- The body of a label with the given texts between its breaks. -/
def labelBody (ls : List (List Char)) : List Char := lineBreak.intercalate (ls.map escaped)

/-- Puts a character in front of the first text. -/
def addChar (c : Char) : List (List Char) → List (List Char)
  | [] => [[c]]
  | l :: ls => (c :: l) :: ls

/-- The texts between the breaks of a label; nothing if a reserved character is neither part of an
entity nor of a break. -/
def readLabel : List Char → Option (List (List Char))
  | [] => some [[]]
  | '<' :: 'b' :: 'r' :: ' ' :: '/' :: '>' :: cs => (readLabel cs).map ([] :: ·)
  | '&' :: 'a' :: 'm' :: 'p' :: ';' :: cs => (readLabel cs).map (addChar '&')
  | '&' :: 'l' :: 't' :: ';' :: cs => (readLabel cs).map (addChar '<')
  | '&' :: 'g' :: 't' :: ';' :: cs => (readLabel cs).map (addChar '>')
  | c :: cs => if c ∈ reserved then none else (readLabel cs).map (addChar c)

theorem readLabel_lineBreak (cs : List Char) :
    readLabel (lineBreak ++ cs) = (readLabel cs).map ([] :: ·) := rfl

theorem readLabel_escapeChar (c : Char) (cs : List Char) :
    readLabel (escapeChar c ++ cs) = (readLabel cs).map (addChar c) := by
  by_cases hc : c ∈ reserved
  · simp only [reserved, List.mem_cons, List.not_mem_nil, or_false] at hc
    rcases hc with rfl | rfl | rfl <;> rfl
  · rw [escapeChar_of_not_mem hc, List.singleton_append]
    simp only [reserved, List.mem_cons, List.not_mem_nil, or_false, not_or] at hc
    rw [readLabel.eq_6] <;> simp_all [reserved]

theorem labelBody_cons_cons (l l' : List Char) (ls : List (List Char)) :
    labelBody (l :: l' :: ls) = escaped l ++ lineBreak ++ labelBody (l' :: ls) :=
  List.intercalate_cons_cons

theorem labelBody_nil_cons (h : ls ≠ []) : labelBody ([] :: ls) = lineBreak ++ labelBody ls := by
  obtain ⟨l, ls, rfl⟩ := List.exists_cons_of_ne_nil h
  exact labelBody_cons_cons [] l ls

theorem labelBody_addChar (c : Char) (h : ls ≠ []) :
    labelBody (addChar c ls) = escapeChar c ++ labelBody ls := by
  obtain ⟨l, ls, rfl⟩ := List.exists_cons_of_ne_nil h
  cases ls <;> simp [addChar, labelBody, List.intercalate_cons_cons]

theorem addChar_ne_nil (c : Char) : addChar c ls ≠ [] := by cases ls <;> simp [addChar]

theorem readLabel_labelBody (h : ls ≠ []) : readLabel (labelBody ls) = some ls := by
  induction ls with
  | nil => exact absurd rfl h
  | cons l ls ih =>
    induction l with
    | nil =>
      cases ls with
      | nil => rfl
      | cons l' ls =>
        rw [labelBody_nil_cons (List.cons_ne_nil l' ls), readLabel_lineBreak,
          ih (List.cons_ne_nil l' ls), Option.map_some]
    | cons c l ihl =>
      have hbody : labelBody ((c :: l) :: ls) = escapeChar c ++ labelBody (l :: ls) :=
        labelBody_addChar c (List.cons_ne_nil l ls)
      rw [hbody, readLabel_escapeChar, ihl (List.cons_ne_nil l ls), Option.map_some, addChar]

theorem labelBody_of_addChar {c : Char}
    (ih : ∀ {ls}, readLabel cs = some ls → ls ≠ [] ∧ cs = labelBody ls)
    (h : (readLabel cs).map (addChar c) = some ls) :
    ls ≠ [] ∧ escapeChar c ++ cs = labelBody ls := by
  obtain ⟨ls, hread, rfl⟩ := Option.map_eq_some_iff.1 h
  obtain ⟨hne, rfl⟩ := ih hread
  exact ⟨addChar_ne_nil c, (labelBody_addChar c hne).symm⟩

theorem eq_labelBody_of_readLabel (h : readLabel body = some ls) :
    ls ≠ [] ∧ body = labelBody ls := by
  induction body using readLabel.induct generalizing ls with
  | case1 =>
    cases h
    exact ⟨List.cons_ne_nil _ _, rfl⟩
  | case2 cs ih =>
    rw [readLabel, Option.map_eq_some_iff] at h
    obtain ⟨ls, h, rfl⟩ := h
    obtain ⟨hne, rfl⟩ := ih h
    exact ⟨List.cons_ne_nil _ _, (labelBody_nil_cons hne).symm⟩
  | case3 cs ih => exact labelBody_of_addChar ih h
  | case4 cs ih => exact labelBody_of_addChar ih h
  | case5 cs ih => exact labelBody_of_addChar ih h
  | case6 c cs hbreak hamp hlt hgt hc =>
    rw [readLabel.eq_6 _ _ hbreak hamp hlt hgt, if_pos hc] at h
    cases h
  | case7 c cs hbreak hamp hlt hgt hc ih =>
    rw [readLabel.eq_6 _ _ hbreak hamp hlt hgt, if_neg hc] at h
    have hbody := labelBody_of_addChar ih h
    rwa [escapeChar_of_not_mem hc] at hbody

theorem readLabel_eq_some_iff : readLabel body = some ls ↔ ls ≠ [] ∧ body = labelBody ls := by
  constructor
  · exact eq_labelBody_of_readLabel
  · rintro ⟨hne, rfl⟩
    exact readLabel_labelBody hne

/-! ### The labels of nodes and arrows -/

/-- The texts of the items of a group, in order. -/
def itemTexts (t : Table) (group : Group) : List (List Char) :=
  group.items.toList.map fun i => (t.grammar.itemText i).toList

/-- What the label of a node says: the texts of the items, with a break behind each. -/
def nodeLabel (t : Table) (group : Group) : List (List Char) := t.itemTexts group ++ [[]]

theorem nodeLabel_ne_nil (t : Table) (group : Group) : t.nodeLabel group ≠ [] :=
  List.append_ne_nil_of_right_ne_nil _ (List.cons_ne_nil _ _)

/-- The body of the label of a node. -/
def nodeBody (t : Table) (group : Group) : String :=
  String.join (group.items.toList.map fun i => escape (t.grammar.itemText i) ++ "<br />")

theorem labelBody_append_nil (ls : List (List Char)) :
    labelBody (ls ++ [[]]) = ls.flatMap fun l => escaped l ++ lineBreak := by
  induction ls with
  | nil => rfl
  | cons l ls ih =>
    obtain ⟨l', ls', hls⟩ := List.exists_cons_of_ne_nil (List.append_ne_nil_of_right_ne_nil ls
      (List.cons_ne_nil [] []))
    rw [List.cons_append, hls, labelBody_cons_cons, ← hls, ih, List.flatMap_cons]

theorem toList_nodeBody (t : Table) (group : Group) :
    (t.nodeBody group).toList = labelBody (t.nodeLabel group) := by
  rw [nodeLabel, labelBody_append_nil, nodeBody, itemTexts]
  unfold lineBreak
  simp only [String.toList_join, List.flatMap_map, String.toList_append, toList_escape]

theorem readLabel_nodeBody (t : Table) (group : Group) :
    readLabel (t.nodeBody group).toList = some (t.itemTexts group ++ [[]]) := by
  rw [toList_nodeBody]
  exact readLabel_labelBody (t.nodeLabel_ne_nil group)

theorem graphNode_eq (t : Table) (state : Nat) (group : Group) :
    t.graphNode state group = s!"s{state}[label=<" ++ t.nodeBody group ++ ">]\n" := rfl

/-- What the label of an arrow says: the name of the symbol. -/
def edgeLabel (x : Symbol × Nat) : List (List Char) := [x.1.name.toList]

/-! ### Reading the drawing -/

/-- What the labels of the drawing say, in order. -/
def graphLabels (t : Table) : List (List (List Char)) :=
  t.groups.flatMap fun group => t.nodeLabel group :: group.transitions.entries.map edgeLabel

/-- Reads the labels of a drawing, one after the other.  An opening bracket begins a label; it ends at
the closing bracket behind a readable body. -/
inductive Reads : List Char → List (List (List Char)) → Prop
  | done : Reads [] []
  | skip {c : Char} {rest : List Char} {labels : List (List (List Char))} :
      c ≠ '<' → Reads rest labels → Reads (c :: rest) labels
  | label {body rest : List Char} {ls : List (List Char)} {labels : List (List (List Char))} :
      readLabel body = some ls → Reads rest labels →
      Reads ('<' :: (body ++ '>' :: rest)) (ls :: labels)

theorem Reads.of_skip {c : Char} (h : Reads (c :: rest) labels) (hc : c ≠ '<') :
    Reads rest labels := by
  cases h with
  | skip _ h => exact h
  | label => exact absurd rfl hc

theorem Reads.of_label (h : Reads ('<' :: cs) (ls :: labels)) :
    ∃ body rest, readLabel body = some ls ∧ cs = body ++ '>' :: rest ∧ Reads rest labels := by
  cases h with
  | skip hc _ => exact absurd rfl hc
  | label hbody h => exact ⟨_, _, hbody, rfl, h⟩

theorem reads_append_iff {outside : List Char} (h : '<' ∉ outside) :
    Reads (outside ++ rest) labels ↔ Reads rest labels := by
  induction outside with
  | nil => rfl
  | cons c outside ih =>
    rw [List.mem_cons, not_or] at h
    rw [← ih h.2]
    exact ⟨fun hread => hread.of_skip (Ne.symm h.1), .skip (Ne.symm h.1)⟩

theorem reads_labelBody_iff (h : ls ≠ []) :
    Reads ('<' :: (labelBody ls ++ '>' :: rest)) (ls :: labels) ↔ Reads rest labels := by
  constructor
  · intro hread
    obtain ⟨body, rest', hbody, heq, hread⟩ := hread.of_label
    obtain ⟨-, rfl⟩ := readLabel_eq_some_iff.1 hbody
    cases List.append_cancel_left heq
    exact hread
  · exact .label (readLabel_labelBody h)

/-- A bare name in front of a closing bracket is its own escaped text if the escaped text could stand
there: it is not longer, and there is no bracket in it. -/
theorem escaped_eq_of_append {rest' : List Char}
    (h : name ++ '>' :: rest = escaped name ++ '>' :: rest') : escaped name = name := by
  have hle := length_le_escaped name
  rcases List.append_eq_append_iff.1 h with ⟨more, hmore, htail⟩ | ⟨more, hmore, -⟩
  · cases more with
    | nil => simpa using hmore
    | cons c more =>
      cases htail
      exact absurd (hmore ▸ List.mem_append_right name List.mem_cons_self) (not_mem_escaped name).2
  · have hlen := congrArg List.length hmore
    rw [List.length_append] at hlen
    obtain rfl : more = [] := List.eq_nil_of_length_eq_zero (by omega)
    simpa using hmore.symm

theorem reads_name_iff :
    Reads ('<' :: (name ++ '>' :: rest)) ([name] :: labels) ↔
      (∀ c ∈ name, c ∉ reserved) ∧ Reads rest labels := by
  have hname : labelBody [name] = escaped name := by simp [labelBody]
  rw [← escaped_eq_self_iff]
  constructor
  · intro hread
    obtain ⟨body, rest', hbody, heq, hread⟩ := hread.of_label
    obtain ⟨-, rfl⟩ := readLabel_eq_some_iff.1 hbody
    rw [hname] at heq
    have hself := escaped_eq_of_append heq
    rw [hself] at heq
    cases List.append_cancel_left heq
    exact ⟨hself, hread⟩
  · rintro ⟨hself, hread⟩
    have hread' := (reads_labelBody_iff (List.cons_ne_nil name [])).2 hread
    rwa [hname, hself] at hread'

/-- A node is read as the texts of its items, whatever they are. -/
theorem reads_graphNode_iff (state : Nat) (group : Group) :
    Reads ((t.graphNode state group).toList ++ rest) (t.nodeLabel group :: labels) ↔
      Reads rest labels := by
  have hlist : (t.graphNode state group).toList ++ rest =
      ('s' :: (toString state).toList ++ "[label=".toList) ++
        '<' :: (labelBody (t.nodeLabel group) ++ '>' :: ("]\n".toList ++ rest)) := by
    rw [← toList_nodeBody]
    simp [graphNode_eq, toString]
  have hopen : '<' ∉ 's' :: (toString state).toList ++ "[label=".toList := by
    simp [not_mem_toDigits (c := '<') (by decide)]
  have hclose : '<' ∉ "]\n".toList := by decide
  rw [hlist, reads_append_iff hopen, reads_labelBody_iff (t.nodeLabel_ne_nil group),
    reads_append_iff hclose]

/-- An arrow is read as the name of its symbol exactly if that has no reserved character. -/
theorem reads_graphEdge_iff (state : Nat) (x : Symbol × Nat) :
    Reads ((graphEdge state x).toList ++ rest) (edgeLabel x :: labels) ↔
      (∀ c ∈ x.1.name.toList, c ∉ reserved) ∧ Reads rest labels := by
  have hlist : (graphEdge state x).toList ++ rest =
      ('s' :: (toString state).toList ++ " -> s".toList ++ (toString x.2).toList ++
        " [label=".toList) ++ '<' :: (x.1.name.toList ++ '>' :: ("]\n".toList ++ rest)) := by
    simp [graphEdge, toString]
  have hopen : '<' ∉ 's' :: (toString state).toList ++ " -> s".toList ++ (toString x.2).toList ++
      " [label=".toList := by
    simp [not_mem_toDigits (c := '<') (by decide)]
  have hclose : '<' ∉ "]\n".toList := by decide
  rw [hlist, reads_append_iff hopen, edgeLabel, reads_name_iff, reads_append_iff hclose]

theorem reads_graphEdges_iff (state : Nat) (xs : List (Symbol × Nat)) :
    Reads (xs.flatMap (fun x => (graphEdge state x).toList) ++ rest) (xs.map edgeLabel ++ labels) ↔
      (∀ x ∈ xs, ∀ c ∈ x.1.name.toList, c ∉ reserved) ∧ Reads rest labels := by
  induction xs with
  | nil => simp
  | cons x xs ih =>
    rw [List.flatMap_cons, List.append_assoc, List.map_cons, List.cons_append,
      reads_graphEdge_iff, ih, List.forall_mem_cons, and_assoc]

theorem reads_groups_iff (t : Table) (groups : List (Group × Nat)) (rest : List Char)
    (labels : List (List (List Char))) :
    Reads (groups.flatMap (fun x => (t.graphNode x.2 x.1).toList ++
        x.1.transitions.entries.flatMap fun e => (graphEdge x.2 e).toList) ++ rest)
      ((groups.map Prod.fst).flatMap (fun group =>
        t.nodeLabel group :: group.transitions.entries.map edgeLabel) ++ labels) ↔
      (∀ group ∈ groups.map Prod.fst, ∀ x ∈ group.transitions.entries,
        ∀ c ∈ x.1.name.toList, c ∉ reserved) ∧ Reads rest labels := by
  induction groups with
  | nil => simp
  | cons x groups ih =>
    rw [List.flatMap_cons, List.append_assoc, List.append_assoc, List.map_cons, List.flatMap_cons,
      List.cons_append, List.cons_append, List.append_assoc, reads_graphNode_iff,
      reads_graphEdges_iff, ih, List.forall_mem_cons, and_assoc]

/-- The drawing is read as the labels of the table exactly if no symbol on an arrow has a reserved
character in its name. -/
theorem reads_graph_iff (t : Table) :
    Reads t.graph.toList t.graphLabels ↔ ∀ group ∈ t.groups,
      ∀ x ∈ group.transitions.entries, ∀ c ∈ x.1.name.toList, c ∉ reserved := by
  have hlist : t.graph.toList = graphHead.toList ++
      (t.groups.zipIdx.flatMap (fun x => (t.graphNode x.2 x.1).toList ++
        x.1.transitions.entries.flatMap fun e => (graphEdge x.2 e).toList) ++ "\x7d\n".toList) := by
    simp only [graph, String.toList_append, String.toList_join, List.flatMap_map,
      List.append_assoc]
  have hhead : '<' ∉ graphHead.toList := by decide +kernel
  have hend : Reads "\x7d\n".toList [] := .skip (by decide) (.skip (by decide) .done)
  have hgroups := reads_groups_iff t t.groups.zipIdx "\x7d\n".toList []
  rw [List.zipIdx_map_fst, List.append_nil] at hgroups
  rw [hlist, reads_append_iff hhead, graphLabels, hgroups]
  exact and_iff_left hend

/-- Every node of the drawing has a label that gives back the texts of its items, whatever they are;
the arrows have readable labels, and with them the drawing, exactly if no symbol on an arrow has a
reserved character in its name. -/
theorem graph_labels (t : Table) :
    (∀ state group, ∃ body : String,
      t.graphNode state group = s!"s{state}[label=<" ++ body ++ ">]\n" ∧
      readLabel body.toList = some (t.itemTexts group ++ [[]])) ∧
    (Reads t.graph.toList t.graphLabels ↔ ∀ group ∈ t.groups,
      ∀ x ∈ group.transitions.entries, ∀ c ∈ x.1.name.toList, c ∉ reserved) :=
  ⟨fun state group => ⟨_, t.graphNode_eq state group, t.readLabel_nodeBody group⟩, t.reads_graph_iff⟩

/-! ### A name with a bracket -/

/-- The grammar `S -> <`. -/
def bracket : Except Grammar.Error Grammar := do
  let g ← Grammar.declareNonterminal {} ⟨"S"⟩
  let g ← g.declareTerminal ⟨"<"⟩
  let g ← g.addRule ⟨⟨"S"⟩, [⟨"<"⟩]⟩
  g.setStart ⟨"S"⟩

/-- The arrow over the terminal `<` has the bare bracket for a label, and its drawing cannot be read. -/
theorem graph_unreadable_of_bracket :
    ∃ g t, bracket = .ok g ∧ (Table.build g {}).outcome = .ok t ∧
      (∃ group ∈ t.groups, ∃ x ∈ group.transitions.entries,
        graphEdge 0 x = "s0 -> s1 [label=<<>]\n") ∧
      ¬ Reads t.graph.toList t.graphLabels := by
  have hg : bracket = .ok (bracket.toOption.getD {}) := by decide +kernel
  have hfind : ((Table.build (bracket.toOption.getD {}) {}).outcome.toOption.any fun t =>
      t.groups.any fun group => group.transitions.entries.any fun x => x = (⟨"<"⟩, 1)) = true := by
    decide +kernel
  obtain ⟨t, ht, hfind⟩ := (Option.any_eq_true _ _).1 hfind
  obtain ⟨group, hgroup, hfind⟩ := List.any_eq_true.1 hfind
  obtain ⟨x, hx, hname⟩ := List.any_eq_true.1 hfind
  obtain rfl := of_decide_eq_true hname
  refine ⟨_, t, hg, toOption_eq_some_iff.1 ht, ⟨group, hgroup, _, hx, by decide +kernel⟩, ?_⟩
  rw [reads_graph_iff]
  exact fun hbare => hbare group hgroup _ hx '<' (by decide) (by decide)

end TreeControl.Table
