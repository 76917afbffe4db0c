import FluentGrammar.Proofs.Report.GraphText
import FluentGrammar.Proofs.Text.RoundTrip

/-! # The grammar is told by its graph

    Nodes are told apart by their ids, those of terminals included, and edges leave each node in
    the order of the rule. So the statements of a graph can be turned back into the grammar, in
    whatever colours it was drawn.
-/

namespace FluentGrammar

open Dot

variable {g : Grammar} {options : GraphOptions} {v : Variable} {t : Terminal} {r : Rule}
variable {x : Symbol}

/-! ## Symbols -/

/-- A terminal is read out of its text. -/
theorem terminal?_text (h : t.isWritable = true) : terminal? t.text.toList = some t := by
  have htokens : tokens ((Symbol.term t).text.toList ++ []) = _ := tokens_symbol h (Or.inl rfl)
  rw [List.append_nil, tokens_nil] at htokens
  unfold terminal?
  rw [show t.text = (Symbol.term t).text from rfl, htokens]
  obtain ⟨name, params⟩ := t
  cases params with
  | nil => rfl
  | cons p params => rfl

theorem Terminal.text_injective {s t : Terminal} (hs : s.isWritable = true)
    (ht : t.isWritable = true) (h : s.text = t.text) : s = t := by
  have hread := terminal?_text hs
  rw [h, terminal?_text ht] at hread
  exact (Option.some.inj hread).symm

theorem Variable.nodeName_inj {v w : Variable} : v.nodeName = w.nodeName ↔ v.id = w.id := by
  constructor
  · exact fun h => NameSupply.numbered_injective "v" h
  · intro h
    rw [Variable.nodeName, Variable.nodeName, h]

/-- A symbol is told by the id of its node, among variables that have one name each. -/
theorem symbol?_nodeId (hx : x.isWritable = true) {vars : List Variable}
    (hknown : ∀ v ∈ x.toVariable?, v ∈ vars ∧ ∀ w ∈ vars, w.id = v.id → w = v) :
    symbol? vars x.nodeId = some x := by
  cases x with
  | term t =>
    unfold symbol?
    rw [Terminal.nodeId_toList]
    simp [terminal?_text hx]
  | var v =>
    obtain ⟨hmem, hunique⟩ := hknown v rfl
    have hfind : vars.find? (fun w => w.nodeName == v.nodeName) = some v := by
      cases hfind : vars.find? (fun w => w.nodeName == v.nodeName) with
      | none => simpa using List.find?_eq_none.mp hfind v hmem
      | some w =>
        have hname : w.nodeName = v.nodeName := by simpa using List.find?_some hfind
        rw [hunique w (List.mem_of_find?_eq_some hfind) (Variable.nodeName_inj.mp hname)]
    unfold symbol?
    rw [Symbol.nodeId, Variable.nodeName_toList]
    simp [hfind]

/-! ## Nodes and edges -/

theorem drawn?_nodeStatement :
    (r.nodeStatement g options).drawn? =
      some (r.lhs, ("label", r.lhs.name) :: r.nodeAttributes g options) := by
  have hid : Number.ofDigits (Nat.toDigits 10 r.lhs.id) = r.lhs.id := Nat.ofDigitChars_ten_toDigits
  unfold Rule.nodeStatement Statement.drawn?
  simp [Variable.nodeName_toList, hid]

theorem filterMap_target?_edgeStatements (source : String) :
    r.edgeStatements.filterMap (Statement.target? source) =
      if r.lhs.nodeName = source then r.edges.map Prod.fst else [] := by
  rw [Rule.edgeStatements, List.filterMap_map]
  split
  · rename_i heq
    rw [← List.filterMap_eq_map]
    refine List.filterMap_congr ?_
    rintro ⟨target, attributes⟩ -
    simp [Statement.target?, heq]
  · rename_i hne
    refine List.filterMap_eq_nil_iff.mpr ?_
    rintro ⟨target, attributes⟩ -
    simp [Statement.target?, hne]

/-- What is taken from the statements of a graph is taken from its parts. -/
theorem filterMap_statements {β : Type} (f : Statement → Option β)
    (hheader : headerStatements.filterMap f = []) (hleave : f .leave = none) :
    (g.statements options).filterMap f =
      (g.rules.map (Rule.nodeStatement g options)).filterMap f ++
        (g.terminals.map Terminal.nodeStatement).filterMap f ++
        (g.rules.flatMap Rule.edgeStatements).filterMap f ++
        (if (options.marked g).isEmpty then [] else legendStatements).filterMap f := by
  simp only [Grammar.statements, List.filterMap_append, hheader, List.nil_append,
    List.filterMap_cons, hleave, List.filterMap_nil, List.append_nil]

theorem filterMap_legend {β : Type} (f : Statement → Option β)
    (h : legendStatements.filterMap f = []) :
    (if (options.marked g).isEmpty then [] else legendStatements).filterMap f = [] := by
  split
  · rfl
  · exact h

theorem filterMap_edgeStatements {β : Type} (f : Statement → Option β)
    (h : ∀ source target attributes, f (.edge source target attributes) = none) :
    (g.rules.flatMap Rule.edgeStatements).filterMap f = [] := by
  rw [List.filterMap_flatMap, List.flatMap_eq_nil_iff]
  intro r _
  rw [Rule.edgeStatements, List.filterMap_map, List.filterMap_eq_nil_iff]
  exact fun _ _ => h _ _ _

theorem drawn?_terminal : t.nodeStatement.drawn? = none := by
  unfold Terminal.nodeStatement Statement.drawn?
  simp [Terminal.nodeId_toList]

/-- How the nodes of variables are drawn. -/
def Grammar.drawn (g : Grammar) (options : GraphOptions) :
    List (Variable × List (String × String)) :=
  g.rules.map (fun r => (r.lhs, ("label", r.lhs.name) :: r.nodeAttributes g options))

theorem filterMap_drawn? :
    (g.statements options).filterMap Statement.drawn? = g.drawn options := by
  have hnodes : (g.rules.map (Rule.nodeStatement g options)).filterMap Statement.drawn? =
      g.drawn options := by
    rw [List.filterMap_map, Grammar.drawn, ← List.filterMap_eq_map]
    exact List.filterMap_congr fun r _ => drawn?_nodeStatement
  have hterminals : (g.terminals.map Terminal.nodeStatement).filterMap Statement.drawn? = [] := by
    rw [List.filterMap_map, List.filterMap_eq_nil_iff]
    exact fun t _ => drawn?_terminal
  rw [filterMap_statements _ rfl rfl, hnodes, hterminals,
    filterMap_edgeStatements _ fun _ _ _ => rfl, filterMap_legend _ rfl]
  simp only [List.append_nil]

/-- The edges from the node of a variable are those of its rule. -/
theorem filterMap_target? (hg : g.Valid) (hr : r ∈ g.rules) :
    (g.statements options).filterMap (Statement.target? r.lhs.nodeName) =
      r.edges.map Prod.fst := by
  have hnodes : (g.rules.map (Rule.nodeStatement g options)).filterMap
      (Statement.target? r.lhs.nodeName) = [] := by
    rw [List.filterMap_map, List.filterMap_eq_nil_iff]
    exact fun _ _ => rfl
  have hterminals : (g.terminals.map Terminal.nodeStatement).filterMap
      (Statement.target? r.lhs.nodeName) = [] := by
    rw [List.filterMap_map, List.filterMap_eq_nil_iff]
    exact fun _ _ => rfl
  have hedges : (g.rules.flatMap Rule.edgeStatements).filterMap
      (Statement.target? r.lhs.nodeName) = r.edges.map Prod.fst := by
    have hnodup := distinct_iff_nodup.mp hg.well_formed.distinct
    simp only [List.filterMap_flatMap, filterMap_target?_edgeStatements, Variable.nodeName_inj]
    rw [flatMap_eq_of_unique (List.Nodup.of_map _ hnodup) hr, if_pos rfl]
    intro s hs hne
    by_contra hrs
    exact hne (if_neg fun hid => hrs (eq_of_lhs_id_eq hnodup hs hr hid))
  rw [filterMap_statements _ rfl rfl, hnodes, hterminals, hedges, filterMap_legend _ rfl,
    List.append_nil]
  rfl

/-! ## The grammar -/

theorem mapM_map_eq_some {α β : Type} {f : α → β} {k : β → Option α} {xs : List α}
    (h : ∀ x ∈ xs, k (f x) = some x) : (xs.map f).mapM k = some xs := by
  induction xs with
  | nil => rfl
  | cons x xs ih =>
    rw [List.map_cons, List.mapM_cons, h x (List.mem_cons_self ..),
      ih fun y hy => h y (List.mem_cons_of_mem _ hy)]
    rfl

/-- The symbols that a rule mentions. -/
def Rule.symbols : Rule → List Symbol
  | .derivation _ rhs => rhs
  | .selection _ alternatives => alternatives.map .var

theorem Rule.map_fst_edges : r.edges.map Prod.fst = r.symbols.map Symbol.nodeId := by
  cases r with
  | selection lhs alternatives => simp [Rule.edges, Rule.symbols, Symbol.nodeId]
  | derivation lhs rhs =>
    have hfst := congrArg (List.map Symbol.nodeId) (List.zipIdx_map_fst 0 rhs)
    rw [List.map_map] at hfst
    rw [Rule.edges, Rule.symbols, List.map_map]
    exact hfst

theorem Rule.Writable.isWritable_symbols (h : r.Writable) :
    ∀ x ∈ r.symbols, x.isWritable = true := by
  cases r with
  | derivation lhs rhs => exact h.symbols
  | selection lhs alternatives => exact List.forall_mem_map.mpr h.alternatives

theorem Rule.mem_references_of_symbols (h : x ∈ r.symbols) :
    ∀ v ∈ x.toVariable?, v ∈ r.references := by
  intro v hv
  cases r with
  | derivation lhs rhs => exact List.mem_filterMap.mpr ⟨x, h, hv⟩
  | selection lhs alternatives =>
    obtain ⟨w, hw, rfl⟩ := List.mem_map.mp h
    obtain rfl := Option.some.inj hv
    exact hw

/-- An occurrence of a variable that has a rule is the left-hand side of the rule. -/
theorem Grammar.Writable.lhs_eq (hw : g.Writable) (hr : r ∈ g.rules) (hv : v ∈ g.occurrences)
    (hid : r.lhs.id = v.id) : r.lhs = v := by
  have hname := hw.named_alike _ (Grammar.lhs_mem_occurrences hr) v hv hid
  cases hlhs : r.lhs
  cases v
  rw [hlhs] at hid hname
  cases hid
  cases hname
  rfl

theorem Grammar.Writable.vars_eq (hw : g.Writable) (hv : v ∈ g.occurrences) :
    ∀ w ∈ g.vars, w.id = v.id → w = v := by
  intro w hmem hid
  obtain ⟨r, hr, rfl⟩ := List.mem_map.mp hmem
  exact hw.lhs_eq hr hv hid

/-- A variable that is referred to has a node. -/
theorem Grammar.Writable.reference_mem_vars (hg : g.Valid) (hw : g.Writable) (hr : r ∈ g.rules)
    (hv : v ∈ r.references) : v ∈ g.vars := by
  obtain ⟨s, hs, hid⟩ := hg.well_formed.closed r hr v hv
  rw [← hw.lhs_eq hs (Grammar.reference_mem_occurrences hr hv) hid]
  exact List.mem_map_of_mem hs

theorem lookup_shape : (("label", r.lhs.name) :: r.nodeAttributes g options).lookup "shape" =
    some (if r.isSelection then "diamond" else "ellipse") := by
  simp [Rule.nodeAttributes, List.lookup_cons]

theorem lookup_fillcolor :
    (("label", r.lhs.name) :: r.nodeAttributes g options).lookup "fillcolor" =
      options.colour? g r.lhs := by
  unfold Rule.nodeAttributes
  cases options.colour? g r.lhs <;> cases r.lhs == g.start <;>
    simp [List.lookup_cons, colourAttributes]

/-- Only the node of the start variable has a double border. -/
theorem lookup_peripheries :
    ((("label", r.lhs.name) :: r.nodeAttributes g options).lookup "peripheries").isSome = true ↔
      r.lhs.id = g.start.id := by
  rw [← Variable.beq_iff]
  unfold Rule.nodeAttributes
  cases options.colour? g r.lhs <;> cases r.lhs == g.start <;>
    simp [List.lookup_cons, colourAttributes]

/-- A rule is read off the node of its variable and the edges that leave it. -/
theorem rule?_of_mem_rules (hg : g.Valid) (hw : g.Writable) (hr : r ∈ g.rules) :
    rule? (g.statements options) g.vars r.lhs
      (("label", r.lhs.name) :: r.nodeAttributes g options) = some r := by
  have hsymbols : (r.symbols.map Symbol.nodeId).mapM (symbol? g.vars) = some r.symbols := by
    refine mapM_map_eq_some fun x hx => symbol?_nodeId ((hw.rule hr).isWritable_symbols x hx)
      fun v hv => ?_
    have hreference := Rule.mem_references_of_symbols hx v hv
    exact ⟨Grammar.Writable.reference_mem_vars hg hw hr hreference,
      hw.vars_eq (Grammar.reference_mem_occurrences hr hreference)⟩
  unfold rule?
  rw [filterMap_target? hg hr, Rule.map_fst_edges, hsymbols, lookup_shape]
  cases r with
  | derivation lhs rhs => rfl
  | selection lhs alternatives =>
    have halternatives : (alternatives.map Symbol.var).mapM Symbol.toVariable? =
        some alternatives := mapM_map_eq_some fun _ _ => rfl
    simp [Rule.symbols, Rule.isSelection, halternatives, Rule.lhs]

/-- The first node with a double border is that of the start variable. -/
theorem exists_start (hg : g.Valid) (hw : g.Writable) (options : GraphOptions) :
    ∃ attributes, (g.drawn options).find? (fun d => (d.2.lookup "peripheries").isSome) =
      some (g.start, attributes) := by
  obtain ⟨r, hr, hid⟩ := hg.well_formed.start_defined
  cases hfind : (g.drawn options).find? (fun d => (d.2.lookup "peripheries").isSome) with
  | none =>
    have hborder := List.find?_eq_none.mp hfind _ (List.mem_map_of_mem hr)
    exact absurd (lookup_peripheries.mpr hid) hborder
  | some d =>
    obtain ⟨s, hs, rfl⟩ := List.mem_map.mp (List.mem_of_find?_eq_some hfind)
    have hborder := List.find?_some hfind
    rw [hw.lhs_eq hs Grammar.start_mem_occurrences (lookup_peripheries.mp hborder)]
    exact ⟨_, rfl⟩

/-- The statements of a graph tell the grammar. -/
theorem grammar?_statements (hg : g.Valid) (hw : g.Writable) :
    grammar? (g.statements options) = some g := by
  have hvars : (g.drawn options).map Prod.fst = g.vars := by
    rw [Grammar.drawn, List.map_map]
    rfl
  have hrules : (g.drawn options).mapM
      (fun d => rule? (g.statements options) g.vars d.1 d.2) = some g.rules :=
    mapM_map_eq_some fun r hr => rule?_of_mem_rules hg hw hr
  obtain ⟨attributes, hstart⟩ := exists_start hg hw options
  simp only [grammar?, filterMap_drawn?, hvars, hrules, hstart, Option.bind_eq_bind,
    Option.bind_some]
  rfl

/-! ## Ids -/

theorem filterMap_nodeId? :
    (g.statements options).filterMap Statement.nodeId? =
      g.vars.map Variable.nodeName ++ g.terminals.map (fun t => (Symbol.term t).nodeId) ++
        if (options.marked g).isEmpty then [] else ["legend_conflict"] := by
  have hnodes : (g.rules.map (Rule.nodeStatement g options)).filterMap Statement.nodeId? =
      g.vars.map Variable.nodeName := by
    rw [List.filterMap_map, Grammar.vars, List.map_map, ← List.filterMap_eq_map]
    exact List.filterMap_congr fun _ _ => rfl
  have hterminals : (g.terminals.map Terminal.nodeStatement).filterMap Statement.nodeId? =
      g.terminals.map (fun t => (Symbol.term t).nodeId) := by
    rw [List.filterMap_map, ← List.filterMap_eq_map]
    exact List.filterMap_congr fun _ _ => rfl
  have hlegend : (if (options.marked g).isEmpty then [] else legendStatements).filterMap
      Statement.nodeId? = if (options.marked g).isEmpty then [] else ["legend_conflict"] := by
    split <;> rfl
  rw [filterMap_statements _ rfl rfl, hnodes, hterminals,
    filterMap_edgeStatements _ fun _ _ _ => rfl, hlegend, List.append_nil]

/-- Variables with different ids have different nodes. -/
theorem nodup_nodeNames (hg : g.Valid) : (g.vars.map Variable.nodeName).Nodup :=
  List.pairwise_map.mpr (hg.well_formed.distinct.imp fun hne heq =>
    hne (Variable.nodeName_inj.mp heq))

/-- Different terminals have different nodes, since the texts of terminals tell them apart. -/
theorem nodup_terminalIds (hw : g.Writable) :
    (g.terminals.map (fun t => (Symbol.term t).nodeId)).Nodup := by
  refine List.Nodup.map_on (fun s hs t ht heq => ?_) (ascending_sortedSet _).nodup
  have hchars := congrArg (fun id => id.toList.drop 2) heq
  simp only [Terminal.nodeId_toList, List.drop_succ_cons, List.drop_zero] at hchars
  exact Terminal.text_injective (hw.isWritable_of_mem_terminals s hs)
    (hw.isWritable_of_mem_terminals t ht) (String.toList_inj.mp hchars)

theorem ne_of_head?_ne {s t : String} {c d : Char} (hs : s.toList.head? = some c)
    (ht : t.toList.head? = some d) (hne : c ≠ d) : s ≠ t := by
  rintro rfl
  exact hne (Option.some.inj (hs.symm.trans ht))

/-- No two nodes of a graph have the same id. -/
theorem nodup_nodeIds (hg : g.Valid) (hw : g.Writable) :
    ((g.statements options).filterMap Statement.nodeId?).Nodup := by
  -- The first character of an id tells what it is the id of.
  have hv : ∀ id ∈ g.vars.map Variable.nodeName, id.toList.head? = some 'v' := by
    refine List.forall_mem_map.mpr fun v _ => ?_
    rw [Variable.nodeName_toList, List.head?_cons]
  have ht : ∀ id ∈ g.terminals.map (fun t => (Symbol.term t).nodeId),
      id.toList.head? = some 't' := by
    refine List.forall_mem_map.mpr fun t _ => ?_
    rw [Terminal.nodeId_toList, List.head?_cons]
  have hl : ∀ id ∈ (if (options.marked g).isEmpty then [] else ["legend_conflict"]),
      id.toList.head? = some 'l' := by
    split
    · exact fun _ h => nomatch h
    · exact List.forall_mem_singleton.mpr rfl
  rw [filterMap_nodeId?, List.nodup_append, List.nodup_append]
  refine ⟨⟨nodup_nodeNames hg, nodup_terminalIds hw, ?_⟩, ?_, ?_⟩
  · intro a ha b hb
    exact ne_of_head?_ne (hv a ha) (ht b hb) (by decide)
  · split
    · exact List.nodup_nil
    · exact List.nodup_singleton _
  · intro a ha b hb
    rcases List.mem_append.mp ha with ha | ha
    · exact ne_of_head?_ne (hv a ha) (hl b hb) (by decide)
    · exact ne_of_head?_ne (ht a ha) (hl b hb) (by decide)

/-- The first statement that makes the node of a variable draws it as it is drawn for those who
    know the variables, however the terminals are quoted. -/
theorem find?_node (hw : g.Writable) (hv : Defines g.rules v) :
    (Dot.read (g.graph options)).find? (fun s => s.nodeId? == some v.nodeName) =
      (node? g.vars (g.graph options) v).map (Statement.node v.nodeName) := by
  have hsame : (fun s : Statement => s.nodeId? == some v.nodeName) ∘
      Rule.nodeStatement g options = fun r => r.lhs == v := by
    funext r
    rw [Bool.eq_iff_iff, Variable.beq_iff, ← Variable.nodeName_inj]
    simp [Rule.nodeStatement, Statement.nodeId?]
  have hheader : headerStatements.find? (fun s => s.nodeId? == some v.nodeName) = none := rfl
  have hrule : g.rules.find? (fun r => r.lhs == v) = g.rule? v := rfl
  rw [node?_graph, Dot.read, graph_toList_split, readsAs_front hw options, List.find?_append,
    List.find?_append, List.find?_map, hheader, Option.none_or, hsame, hrule]
  cases hfound : g.rule? v with
  | none =>
    obtain ⟨r, hr, hid⟩ := hv
    exact absurd (Variable.beq_iff.mpr hid) (List.find?_eq_none.mp hfound r hr)
  | some r =>
    have hname : r.lhs.nodeName = v.nodeName :=
      Variable.nodeName_inj.mpr (Grammar.lhs_of_rule? hfound)
    simp [Rule.nodeStatement, hname]

/-- A graph of a grammar that was read is read as one node for each variable and terminal, and
    edges that lead to what the rules mention, exactly when every quotation mark in a terminal
    has a backslash in front of it. No two nodes share an id, and these statements tell the
    grammar. -/
theorem graph_faithful_iff {text : String} (h : Grammar.read text = .ok g)
    (options : GraphOptions) :
    (Dot.read (g.graph options) = g.statements options ↔
        ∀ t ∈ g.terminals, WellQuoted t.text.toList) ∧
      ((g.statements options).filterMap Statement.nodeId?).Nodup ∧
      grammar? (g.statements options) = some g := by
  obtain ⟨hg, hw⟩ := Grammar.writable_of_read h
  exact ⟨read_graph_iff hw, nodup_nodeIds hg hw, grammar?_statements hg hw⟩

/-- A text with a quotation mark behind a backslash, and two alternatives that begin alike. -/
def escapedText : String :=
  "A ::= B | C\nB ::= x(a\\\" b) D\nC ::= x(a\\\" b)\nD ::= y\n"

/-- The grammar of `escapedText`. -/
def escapedGrammar : Grammar :=
  ⟨⟨0, "A"⟩, [.selection ⟨0, "A"⟩ [⟨1, "B"⟩, ⟨2, "C"⟩],
    .derivation ⟨1, "B"⟩ [.term ⟨"x", [⟨"a\\\"", "b"⟩]⟩, .var ⟨3, "D"⟩],
    .derivation ⟨2, "C"⟩ [.term ⟨"x", [⟨"a\\\"", "b"⟩]⟩],
    .derivation ⟨3, "D"⟩ [.term ⟨"y", []⟩]]⟩

/-- A graph with a conflict, a coloured node and an escaped quotation mark is read. -/
theorem escapedGrammar_graph_read :
    Grammar.read escapedText = .ok escapedGrammar ∧
      escapedGrammar.conflicts = [⟨0, "A"⟩] ∧
      grammar? (Dot.read (escapedGrammar.graph ⟨some ⟨[(⟨3, "D"⟩, .bridge)]⟩, true⟩)) =
        some escapedGrammar := by
  have hread : Grammar.read escapedText = .ok escapedGrammar :=
    Grammar.read_of_declared (Grammar.valid_of_pairwise (by decide) (by decide))
      (by decide +kernel)
  have hquoted : ∀ r ∈ escapedGrammar.rules, ∀ t ∈ r.terminals, WellQuoted t.text.toList := by
    decide +kernel
  obtain ⟨hiff, -, hgrammar⟩ := graph_faithful_iff hread ⟨some ⟨[(⟨3, "D"⟩, .bridge)]⟩, true⟩
  refine ⟨hread, by decide +kernel, ?_⟩
  rw [hiff.mpr fun t ht => ?_, hgrammar]
  obtain ⟨r, hr, ht⟩ := Grammar.mem_terminals.mp ht
  exact hquoted r hr t ht

/-- A quotation mark in a parameter ends the id of the node too early. -/
theorem bareMark_misread :
    ∃ g, Grammar.read "A ::= x(a\" b)\n" = .ok g ∧
      Dot.read (g.graph .plain) ≠ g.statements .plain := by
  have hread : Grammar.read "A ::= x(a\" b)\n" =
      .ok ⟨⟨0, "A"⟩, [.derivation ⟨0, "A"⟩ [.term ⟨"x", [⟨"a\"", "b"⟩]⟩]]⟩ :=
    Grammar.read_of_declared (Grammar.valid_of_pairwise (by decide) (by decide))
      (by decide +kernel)
  refine ⟨_, hread, fun hsame => ?_⟩
  have hquoted := (read_graph_iff (Grammar.writable_of_read hread).2).mp hsame
    ⟨"x", [⟨"a\"", "b"⟩]⟩ (Grammar.mem_terminals.mpr ⟨_, List.mem_singleton_self _, by decide⟩)
  exact absurd hquoted (by decide +kernel)

end FluentGrammar
