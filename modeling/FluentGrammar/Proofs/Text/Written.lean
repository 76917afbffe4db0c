import FluentGrammar.Grammar.Basic
import FluentGrammar.Grammar.Reader
import FluentGrammar.Proofs.Text.Tokens
import Mathlib.Data.List.TakeWhile

/-! # Written rules and lines

    A rule that can be written gives a line without comment or line feed in it and without
    blanks at its ends. The line is cut at the mark that was put there, and the tokens of the
    body are those of the rule.
-/

namespace FluentGrammar

/-- The names and terminals of the rule can be written. -/
structure Rule.Writable (r : Rule) : Prop where
  names : ∀ v ∈ r.mentions, isVariableName v.name = true
  terminals : ∀ t ∈ r.terminals, t.isWritable = true

theorem Grammar.Writable.rule {g : Grammar} (h : g.Writable) {r : Rule} (hr : r ∈ g.rules) :
    r.Writable :=
  ⟨fun v hv => h.names v (Grammar.mem_occurrences_of_mentions hr hv), h.terminals r hr⟩

variable {r : Rule} {v : Variable} {x : Symbol}

theorem Rule.Writable.lhs (h : r.Writable) : isVariableName r.lhs.name = true :=
  h.names _ (List.mem_cons_self ..)

theorem Rule.Writable.symbols {lhs : Variable} {rhs : List Symbol}
    (h : (Rule.derivation lhs rhs).Writable) : ∀ x ∈ rhs, x.isWritable = true := by
  intro x hx
  cases x with
  | var v =>
    exact h.names v (Rule.mem_mentions.mpr (Or.inr (Rule.mem_references_derivation.mpr hx)))
  | term t => exact h.terminals t (List.mem_filterMap.mpr ⟨_, hx, rfl⟩)

theorem Rule.Writable.alternatives {lhs : Variable} {alternatives : List Variable}
    (h : (Rule.selection lhs alternatives).Writable) :
    ∀ v ∈ alternatives, isVariableName v.name = true :=
  fun v hv => h.names v (List.mem_cons_of_mem _ hv)

/-! ## Pieces of a line -/

/-- A piece of a line: blanks stand only inside, no comment or line begins in it, and it is
    not taken for a parameter list. -/
structure LinePiece (cs : List Char) : Prop where
  trimmed : Text.Trimmed cs
  ne_nil : cs ≠ []
  clean : ∀ c ∈ cs, c ≠ '#' ∧ c ≠ '\n'
  head : cs.head? ≠ some '('

theorem clean_of_continuesIdentifier {c : Char} (h : continuesIdentifier c = true) :
    c ≠ '#' ∧ c ≠ '\n' := by
  have hmarks := not_mem_marks_of_continuesIdentifier h
  have hblank := isWhiteSpace_of_continuesIdentifier h
  constructor
  · rintro rfl
    exact hmarks (by decide)
  · rintro rfl
    exact absurd hblank (by decide)

theorem clean_of_not_mem {cs : List Char} (hcomment : '#' ∉ cs) (hline : '\n' ∉ cs) :
    ∀ c ∈ cs, c ≠ '#' ∧ c ≠ '\n' :=
  fun _ hc => ⟨ne_of_mem_of_not_mem hc hcomment, ne_of_mem_of_not_mem hc hline⟩

theorem clean_of_endsWord {c : Char} (h : endsWord c = false) : c ≠ '#' ∧ c ≠ '\n' := by
  have h := endsWord_eq_false.mp h
  refine ⟨h.2.2.2.2, ?_⟩
  rintro rfl
  exact absurd h.1 (by decide)

theorem linePiece_identifier {name : String} (h : isIdentifier name = true) :
    LinePiece name.toList := by
  have hall := continuesIdentifier_of_mem h
  refine ⟨Text.trimmed_of_forall fun c hc => isWhiteSpace_of_continuesIdentifier (hall c hc),
    toList_ne_nil_of_isIdentifier h, fun c hc => clean_of_continuesIdentifier (hall c hc), ?_⟩
  intro hhead
  have hopen := not_mem_marks_of_continuesIdentifier (hall '(' (List.mem_of_mem_head? hhead))
  exact hopen (by decide)

theorem linePiece_variable (h : isVariableName v.name = true) : LinePiece v.name.toList :=
  linePiece_identifier (isIdentifier_of_isVariableName h)

theorem linePiece_call {name : String} {params : List Parameter} (h : isIdentifier name = true)
    (hparams : ∀ p ∈ params, p.isWritable = true) :
    LinePiece (name.toList ++ '(' :: (parametersText params ++ [')'])) := by
  have hname := linePiece_identifier h
  have hclose : Text.Trimmed [')'] := Text.trimmed_of_all (by decide)
  refine ⟨?_, by simp, ?_, ?_⟩
  · exact hname.trimmed.append hclose hname.ne_nil (by simp) ('(' :: parametersText params)
  · intro c hc
    simp only [List.mem_append, List.mem_cons, List.not_mem_nil, or_false] at hc
    rcases hc with hc | rfl | hc | rfl
    · exact hname.clean c hc
    · decide
    · rcases of_mem_parametersText hparams hc with rfl | rfl | hc
      · decide
      · decide
      · exact clean_of_endsWord hc
    · decide
  · rw [List.head?_append_of_ne_nil _ hname.ne_nil]
    exact hname.head

theorem linePiece_symbol (h : x.isWritable = true) : LinePiece x.text.toList := by
  cases x with
  | var v => exact linePiece_variable h
  | term t =>
    rcases Terminal.isWritable_iff.mp h with rfl | ⟨hname, -, hparams⟩
    · exact ⟨Text.trimmed_of_all (by decide), by decide,
        clean_of_not_mem (by decide) (by decide), by decide⟩
    · by_cases hnone : t.params = []
      · have htext : t.text = t.name := by simp [Terminal.text, hnone]
        rw [Symbol.text, htext]
        exact linePiece_identifier hname
      · rw [Symbol.text, Terminal.text_toList hnone]
        exact linePiece_call hname hparams

theorem LinePiece.flatMap {separator piece : List Char} {pieces : List (List Char)}
    (h : ∀ p ∈ piece :: pieces, LinePiece p) (hclean : ∀ c ∈ separator, c ≠ '#' ∧ c ≠ '\n') :
    LinePiece (piece ++ pieces.flatMap (separator ++ ·)) := by
  have hpiece := h piece (List.mem_cons_self ..)
  refine ⟨Text.trimmed_flatMap fun p hp => ⟨(h p hp).trimmed, (h p hp).ne_nil⟩,
    by simp [hpiece.ne_nil], ?_, ?_⟩
  · intro c hc
    rcases List.mem_append.mp hc with hc | hc
    · exact hpiece.clean c hc
    · obtain ⟨p, hp, hc⟩ := List.mem_flatMap.mp hc
      rcases List.mem_append.mp hc with hc | hc
      · exact hclean c hc
      · exact (h p (List.mem_cons_of_mem _ hp)).clean c hc
  · rw [List.head?_append_of_ne_nil _ hpiece.ne_nil]
    exact hpiece.head

/-! ## The tokens of a body -/

/-- A blank and a piece of a line may follow a symbol. -/
theorem LinePiece.endsSymbol {cs : List Char} (h : LinePiece cs) (rest : List Char) :
    EndsSymbol (' ' :: (cs ++ rest)) := by
  obtain ⟨c, cs', rfl⟩ := List.exists_cons_of_ne_nil h.ne_nil
  refine Or.inr ⟨c, cs' ++ rest, rfl, h.trimmed.first c rfl, ?_⟩
  rintro rfl
  exact h.head rfl

/-- The symbols of a derivation, each with a blank in front, are read one by one. -/
theorem tokens_symbols {rhs : List Symbol} (h : ∀ x ∈ rhs, x.isWritable = true) :
    tokens (rhs.flatMap (fun x => ' ' :: x.text.toList)) = .ok (rhs.map Symbol.token) := by
  induction rhs with
  | nil => exact tokens_nil
  | cons x rest ih =>
    have hrest := ih fun y hy => h y (List.mem_cons_of_mem _ hy)
    have hends : EndsSymbol (rest.flatMap (fun x => ' ' :: x.text.toList)) := by
      cases rest with
      | nil => exact Or.inl rfl
      | cons y rest =>
        exact (linePiece_symbol (h y (List.mem_cons_of_mem _ (List.mem_cons_self ..)))).endsSymbol _
    rw [List.flatMap_cons, List.cons_append, tokens_space,
      tokens_symbol (h x (List.mem_cons_self ..)) hends, hrest]
    rfl

/-- The alternatives of a selection with bars between them. -/
def alternativeTokens (v : Variable) (rest : List Variable) : List Token :=
  .name v.name none :: rest.flatMap (fun w => [.bar, .name w.name none])

theorem tokens_alternatives {rest : List Variable}
    (h : ∀ w ∈ v :: rest, isVariableName w.name = true) :
    tokens (v.name.toList ++ rest.flatMap (fun w => " | ".toList ++ w.name.toList)) =
      .ok (alternativeTokens v rest) := by
  induction rest generalizing v with
  | nil =>
    rw [List.flatMap_nil, tokens_bare
      (isIdentifier_of_isVariableName (h v (List.mem_cons_self ..))) (Or.inl rfl), tokens_nil]
    rfl
  | cons w rest ih =>
    have hrest := ih fun u hu => h u (List.mem_cons_of_mem _ hu)
    have hends : ∀ cs, EndsSymbol (' ' :: '|' :: cs) := fun cs =>
      Or.inr ⟨'|', cs, rfl, isWhiteSpace_of_mem_marks (by decide), by decide⟩
    have hseparator : ∀ cs : List Char, " | ".toList ++ cs = ' ' :: '|' :: ' ' :: cs :=
      fun _ => rfl
    rw [List.flatMap_cons, List.append_assoc, hseparator, tokens_bare
      (isIdentifier_of_isVariableName (h v (List.mem_cons_self ..))) (hends _),
      tokens_space, tokens_bar, tokens_space, hrest]
    rfl

/-- The tokens that the body of a rule is written as. -/
def Rule.bodyTokens : Rule → List Token
  | .derivation _ [] => [.epsilon]
  | .derivation _ rhs => rhs.map Symbol.token
  | .selection _ [] => []
  | .selection _ (v :: rest) => alternativeTokens v rest

theorem Rule.body_derivation {lhs : Variable} {rhs : List Symbol} (h : rhs ≠ []) :
    (Rule.derivation lhs rhs).body.toList = rhs.flatMap (fun x => ' ' :: x.text.toList) := by
  cases rhs with
  | nil => exact absurd rfl h
  | cons x rest =>
    rw [Rule.body, String.toList_join, List.flatMap_map]
    · congr 1
      funext y
      simp
    · exact h

theorem Rule.body_selection {lhs v : Variable} {rest : List Variable} :
    (Rule.selection lhs (v :: rest)).body.toList =
      ' ' :: (v.name.toList ++ rest.flatMap (fun w => " | ".toList ++ w.name.toList)) := by
  rw [Rule.body, String.toList_append, String.toList_intercalate, List.map_cons, List.map_cons,
    intercalate_cons, List.map_map, List.flatMap_map]
  · rfl
  · simp

/-- The body of a rule is read as the tokens that it was written as. -/
theorem tokens_body (h : r.Writable) : tokens r.body.toList = .ok r.bodyTokens := by
  cases r with
  | derivation lhs rhs =>
    cases rhs with
    | nil =>
      rw [Rule.body, show " ε".toList = [' ', 'ε'] from rfl, tokens_space, tokens_epsilon,
        tokens_nil]
      rfl
    | cons x rest =>
      rw [Rule.body_derivation (by simp), tokens_symbols h.symbols]
      rfl
  | selection lhs alternatives =>
    cases alternatives with
    | nil => exact tokens_nil
    | cons v rest =>
      rw [Rule.body_selection, tokens_space, tokens_alternatives h.alternatives]
      rfl

/-! ## Lines -/

/-- The body of a rule is a blank and a piece of a line. -/
theorem exists_linePiece_body (h : r.Writable) (hne : ∀ lhs, r ≠ .selection lhs []) :
    ∃ inner, r.body.toList = ' ' :: inner ∧ LinePiece inner := by
  cases r with
  | derivation lhs rhs =>
    cases rhs with
    | nil =>
      exact ⟨['ε'], by rw [Rule.body]; rfl, Text.trimmed_of_all (by decide), by simp,
        clean_of_not_mem (by decide) (by decide), by decide⟩
    | cons x rest =>
      refine ⟨x.text.toList ++ (rest.map (fun y => y.text.toList)).flatMap ([' '] ++ ·), ?_, ?_⟩
      · rw [Rule.body_derivation (by simp), List.flatMap_cons, List.flatMap_map]
        rfl
      · refine LinePiece.flatMap ?_ (clean_of_not_mem (by decide) (by decide))
        rw [← List.map_cons (f := fun y : Symbol => y.text.toList)]
        intro p hp
        obtain ⟨y, hy, rfl⟩ := List.mem_map.mp hp
        exact linePiece_symbol (h.symbols y hy)
  | selection lhs alternatives =>
    cases alternatives with
    | nil => exact absurd rfl (hne lhs)
    | cons v rest =>
      refine ⟨v.name.toList ++ (rest.map (fun w => w.name.toList)).flatMap (" | ".toList ++ ·),
        ?_, ?_⟩
      · rw [Rule.body_selection, List.flatMap_map]
      · refine LinePiece.flatMap ?_ (clean_of_not_mem (by decide) (by decide))
        rw [← List.map_cons (f := fun w : Variable => w.name.toList)]
        intro p hp
        obtain ⟨w, hw, rfl⟩ := List.mem_map.mp hp
        exact linePiece_variable (h.alternatives w hw)

theorem Rule.text_toList (r : Rule) :
    r.text.toList = r.lhs.name.toList ++ (" ::=".toList ++ r.body.toList) := by
  rw [Rule.text, String.toList_append, String.toList_append, List.append_assoc]

/-- A written rule is a line of its own. -/
theorem linePiece_rule (h : r.Writable) (hne : ∀ lhs, r ≠ .selection lhs []) :
    LinePiece r.text.toList := by
  obtain ⟨inner, hbody, hinner⟩ := exists_linePiece_body h hne
  have hline : LinePiece (r.lhs.name.toList ++ [inner].flatMap (" ::= ".toList ++ ·)) :=
    LinePiece.flatMap (List.forall_mem_cons.mpr
      ⟨linePiece_variable h.lhs, List.forall_mem_singleton.mpr hinner⟩)
      (clean_of_not_mem (by decide) (by decide))
  rw [Rule.text_toList, hbody]
  rw [List.flatMap_singleton] at hline
  exact hline

/-- The line that names a start variable. -/
def startLine (v : Variable) : String :=
  "start " ++ v.name

theorem linePiece_startLine (h : isVariableName v.name = true) :
    LinePiece (startLine v).toList := by
  have hstart : LinePiece "start".toList := linePiece_identifier (by decide)
  have hline : LinePiece ("start".toList ++ [v.name.toList].flatMap (" ".toList ++ ·)) :=
    LinePiece.flatMap (List.forall_mem_cons.mpr
      ⟨hstart, List.forall_mem_singleton.mpr (linePiece_variable h)⟩)
      (clean_of_not_mem (by decide) (by decide))
  rw [List.flatMap_singleton] at hline
  rw [startLine, String.toList_append]
  exact hline

/-- Nothing is cut off a line that is a piece of one. -/
theorem LinePiece.lineContent {cs : List Char} (h : LinePiece cs) : lineContent cs = cs := by
  have hcomment : cs.takeWhile (· != '#') = cs := by
    rw [List.takeWhile_eq_self_iff]
    intro c hc
    simp [(h.clean c hc).1]
  rw [FluentGrammar.lineContent, hcomment, h.trimmed.trim_eq]

theorem startName?_startLine (h : isVariableName v.name = true) :
    startName? (startLine v).toList = some v.name.toList := by
  have hline : (startLine v).toList = "start".toList ++ ' ' :: v.name.toList := by
    rw [startLine, String.toList_append]
    rfl
  have hname : Text.trim ([' '] ++ v.name.toList) = v.name.toList := by
    rw [Text.trim_append_left (List.forall_mem_singleton.mpr isWhiteSpace_space),
      (linePiece_variable h).trimmed.trim_eq]
  rw [hline, startName?, Text.behind?_append]
  simp only [List.head?_cons, Option.all_some, isWhiteSpace_space, if_true]
  exact congrArg some hname

/-- What begins with a variable is not taken for a start line, because variables begin with a
    capital. -/
theorem startName?_variable {name : String} (h : isVariableName name = true)
    (rest : List Char) : startName? (name.toList ++ rest) = none := by
  obtain ⟨c, cs, hcons, hcapital⟩ :=
    beginsWithCapital_iff.mp (beginsWithCapital_of_isVariableName h)
  have hne : 's' ≠ c := by
    rintro rfl
    exact absurd hcapital (by decide)
  rw [startName?, hcons, List.cons_append,
    show "start".toList = 's' :: "tart".toList from rfl, Text.behind?_of_ne _ _ hne]

theorem startName?_rule (h : r.Writable) : startName? r.text.toList = none := by
  rw [Rule.text_toList]
  exact startName?_variable h.lhs _

/-- A line is cut behind the variable that it begins with. -/
theorem cutAt?_variable {name : String} {back : List Char} (h : isVariableName name = true)
    (hback : ∀ c ∈ back, Text.isWhiteSpace c = true) (body : List Char) :
    Text.cutAt? "::=".toList (name.toList ++ (back ++ ("::=".toList ++ body))) =
      some (name.toList ++ back, body) := by
  have hcolon : ':' ∉ name.toList ++ back := by
    intro hmem
    rcases List.mem_append.mp hmem with hmem | hmem
    · exact not_mem_marks_of_continuesIdentifier
        (continuesIdentifier_of_mem (isIdentifier_of_isVariableName h) ':' hmem) (by decide)
    · exact absurd (hback ':' hmem) (by decide)
  have hcut : Text.cutAt? "::=".toList (name.toList ++ back ++ ("::=".toList ++ body)) =
      some (name.toList ++ back, body) :=
    Text.cutAt?_append hcolon body
  rw [List.append_assoc] at hcut
  exact hcut

/-- The line of a rule is cut between its variable and its body. -/
theorem cutAt?_rule (h : r.Writable) :
    Text.cutAt? "::=".toList r.text.toList =
      some (r.lhs.name.toList ++ [' '], r.body.toList) := by
  rw [Rule.text_toList]
  exact cutAt?_variable h.lhs (List.forall_mem_singleton.mpr isWhiteSpace_space) r.body.toList

theorem trim_variable {name : String} {back : List Char} (h : isVariableName name = true)
    (hback : ∀ c ∈ back, Text.isWhiteSpace c = true) :
    Text.trim (name.toList ++ back) = name.toList :=
  Text.trim_append_right hback (linePiece_identifier (isIdentifier_of_isVariableName h)).trimmed

theorem trim_ruleName (h : isVariableName v.name = true) :
    Text.trim (v.name.toList ++ [' ']) = v.name.toList :=
  trim_variable h (List.forall_mem_singleton.mpr isWhiteSpace_space)

theorem toList_joinLines (lines : List String) :
    (String.join (lines.map (· ++ "\n"))).toList =
      (lines.map String.toList).flatMap (· ++ ['\n']) := by
  rw [String.toList_join, List.flatMap_map, List.flatMap_map]
  congr 1
  funext line
  rw [String.toList_append]
  rfl

/-- The lines of a written grammar are read as they were written. -/
theorem lines_text {g : Grammar} (hlines : ∀ line ∈ g.textLines, LinePiece line.toList) :
    Text.lines g.text.toList = g.textLines.map String.toList := by
  have hpiece : ∀ t ∈ g.textLines.map String.toList, LinePiece t := by
    intro t ht
    obtain ⟨line, hline, rfl⟩ := List.mem_map.mp ht
    exact hlines line hline
  rw [Grammar.text, toList_joinLines]
  refine Text.lines_flatMap ?_ ?_
  · intro t ht hfeed
    exact ((hpiece t ht).clean '\n' hfeed).2 rfl
  · intro t ht hreturn
    exact absurd ((hpiece t ht).trimmed.last '\r' hreturn) (by decide)

end FluentGrammar
