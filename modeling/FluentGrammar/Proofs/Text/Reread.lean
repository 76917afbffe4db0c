import FluentGrammar.Proofs.Grammar.Validation
import FluentGrammar.Proofs.Text.Reading
import FluentGrammar.Proofs.Text.Written

/-! # What is read can be written, and what is written can be read

    A grammar that was read from a text can be written: the scope has told its names apart,
    and the tokens were spelled as they have to be. The lines of a grammar that can be written
    are read one by one, each as the rule it was written from, with the variables that the
    scope knows in place of those of the grammar.
-/

namespace FluentGrammar

variable {s s' : Scope} {line : Nat} {r r' : Rule}

/-! ## What is read can be written -/

theorem Scope.Means.isWritable {t : Token} {terminal : Terminal}
    (h : s.Means t (.term terminal)) (ht : t.Spelled) : terminal.isWritable = true := by
  cases t with
  | bar => exact h.elim
  | epsilon => exact h.elim
  | name text params =>
    obtain ⟨hcapital, rfl⟩ := h
    rcases ht with ⟨rfl, rfl⟩ | ⟨hname, hparams⟩
    · rfl
    · refine Terminal.isWritable_iff.mpr (Or.inr ⟨hname, hcapital, ?_⟩)
      cases params with
      | none => simp
      | some ps => exact hparams ps rfl

namespace Scope.MeansRule

variable {lhs : Variable} {ts : List Token}

/-- The rule that tokens mean mentions known variables only. -/
theorem knows (h : s.MeansRule lhs ts r) (hlhs : s.Knows lhs) :
    ∀ v ∈ r.mentions, s.Knows v := by
  cases h with
  | selection hbar hoffers =>
    refine List.forall_mem_cons.mpr ⟨hlhs, fun v hv => ?_⟩
    obtain ⟨piece, -, hpiece⟩ := exists_matched_left hoffers hv
    exact hpiece.2
  | empty hts => exact List.forall_mem_cons.mpr ⟨hlhs, by simp [Rule.references]⟩
  | derivation hbar hepsilon hmeans =>
    refine List.forall_mem_cons.mpr ⟨hlhs, fun v hv => ?_⟩
    obtain ⟨t, -, ht⟩ :=
      exists_matched_left hmeans (Rule.mem_references_derivation.mp hv)
    cases t with
    | bar => exact ht.elim
    | epsilon => exact ht.elim
    | name text params => exact ht.2.2

theorem isWritable (h : s.MeansRule lhs ts r) (hts : ∀ t ∈ ts, t.Spelled) :
    ∀ t ∈ r.terminals, t.isWritable = true := by
  cases h with
  | selection hbar hoffers => simp [Rule.terminals]
  | empty hts => simp [Rule.terminals]
  | derivation hbar hepsilon hmeans =>
    intro terminal hterminal
    obtain ⟨x, hx, hxt⟩ := List.mem_filterMap.mp hterminal
    obtain ⟨t, ht, hmean⟩ := exists_matched_left hmeans hx
    cases x with
    | var v => cases hxt
    | term u =>
      cases hxt
      exact hmean.isWritable (hts t ht)

end Scope.MeansRule

/-- What a line declares is known and can be written, as what came before it. -/
theorem Declares.known {draft draft' : Draft} {content : List Char}
    (h : Declares s draft content draft') (hdraft : draft.Known s) (hcomment : '#' ∉ content) :
    draft'.Known s := by
  cases h with
  | nothing hempty => exact hdraft
  | @start name v hstart hnone hname hv =>
    refine ⟨?_, hdraft.mentions, hdraft.terminals⟩
    rintro _ ⟨⟩
    exact hv
  | @rule name body lhs ts r hstart hcut hname hlhs hts hr =>
    -- A terminal is spelled out of the body, which holds no comment; only then can it be written.
    have hbody : '#' ∉ body := by
      intro hmem
      rw [Text.eq_append_of_cutAt? hcut] at hcomment
      exact hcomment (List.mem_append_right _ hmem)
    refine ⟨hdraft.start, ?_, ?_⟩
    · intro q hq
      rcases List.mem_append.mp hq with hq | hq
      · exact hdraft.mentions q hq
      · rw [List.mem_singleton.mp hq]
        exact hr.knows hlhs
    · intro q hq
      rcases List.mem_append.mp hq with hq | hq
      · exact hdraft.terminals q hq
      · rw [List.mem_singleton.mp hq]
        exact hr.isWritable (spelled_of_tokens hts hbody)

theorem comment_not_mem_lineContent (text : List Char) : '#' ∉ lineContent text := by
  intro hmem
  have htake := Text.trim_subset _ hmem
  have hne := List.all_eq_true.mp List.all_takeWhile '#' htake
  exact absurd hne (by decide)

/-- Reading lines keeps the scope sound, and everything declared known to it. -/
theorem readLines_known {draft draft' : Draft} {texts : List (List Char)} (hs : s.Sound)
    (hdraft : draft.Known s) (h : readLines draft line texts s = .ok draft' s') :
    s.Grows s' ∧ draft'.Known s' := by
  induction texts generalizing draft line s with
  | nil =>
    obtain ⟨rfl, rfl⟩ := pure_eq_ok.mp h
    exact ⟨hs.grows, hdraft⟩
  | cons text texts ih =>
    obtain ⟨draft₁, s₁, hline, hrest⟩ := bind_eq_ok.mp h
    obtain ⟨hgrows, hdeclares⟩ := readLine_ok hs hline
    have hknown := hdeclares.known (hdraft.grows hgrows) (comment_not_mem_lineContent text)
    obtain ⟨hgrows', hdraft'⟩ := ih hgrows.sound hknown hrest
    exact ⟨hgrows.trans hgrows', hdraft'⟩

/-- A grammar all of whose variables a sound scope knows can be written. -/
theorem Grammar.Writable.of_knows {g : Grammar} (hs : s.Sound)
    (hknows : ∀ v ∈ g.occurrences, s.Knows v)
    (hterminals : ∀ r ∈ g.rules, ∀ t ∈ r.terminals, t.isWritable = true) : g.Writable where
  named_alike v hv w hw hid :=
    congrArg Variable.name (hs.apart v w (hknows v hv) (hknows w hw) hid)
  told_by_name v hv w hw hname :=
    congrArg Variable.id ((hknows v hv).eq_of_name (hknows w hw) hname)
  names v hv := hs.legal v (hknows v hv)
  terminals := hterminals

/-- A draft is made a grammar with the declared start variable, or that of the first rule. -/
theorem Draft.grammar_eq_ok {draft : Draft} {g : Grammar} :
    draft.grammar = .ok g ↔ ∃ start, draft.start.or (draft.rules.head?.map Rule.lhs) = some start ∧
      Grammar.ofRules start draft.rules = .ok g := by
  unfold Draft.grammar
  cases draft.start.or (draft.rules.head?.map Rule.lhs) with
  | none => simp
  | some start => cases h : Grammar.ofRules start draft.rules <;> simp [Except.mapError, h]

/-- A text whose rules stand in order is read as the grammar that its lines declare. -/
theorem Grammar.readWith_of_declared {supply : VariableSupply} {text : String} {g : Grammar}
    (hg : g.Valid)
    (h : ((readLines ⟨none, []⟩ 1 (Text.lines text.toList)).run' ⟨supply, []⟩).map
      (fun draft => (draft.start.or (draft.rules.head?.map Rule.lhs), draft.rules)) =
        some (some g.start, g.rules)) : (Grammar.readWith supply text).1 = .ok g := by
  obtain ⟨draft, hrun, hdraft⟩ := Option.map_eq_some_iff.mp h
  obtain ⟨hstart, hrules⟩ := Prod.mk.inj hdraft
  unfold EStateM.run' at hrun
  split at hrun
  · rename_i scope hok
    cases hrun
    unfold Grammar.readWith
    simp only [hok]
    exact Draft.grammar_eq_ok.mpr ⟨g.start, hstart, by rw [hrules, hg.ofRules_eq]⟩
  · cases hrun

/-- Reading a grammar ends in a sound scope that knows everything the grammar mentions. -/
theorem Grammar.exists_scope_of_readWith {supply left : VariableSupply} {text : String}
    {g : Grammar} (h : Grammar.readWith supply text = (.ok g, left)) :
    ∃ draft scope,
      readLines ⟨none, []⟩ 1 (Text.lines text.toList) ⟨supply, []⟩ = .ok draft scope ∧
        scope.supply = left ∧ scope.Sound ∧ g.Valid ∧ (∀ v ∈ g.occurrences, scope.Knows v) ∧
        ∀ r ∈ g.rules, ∀ t ∈ r.terminals, t.isWritable = true := by
  unfold Grammar.readWith at h
  split at h
  · rename_i draft scope hread
    obtain ⟨hgrammar, rfl⟩ := Prod.mk.inj h
    obtain ⟨hgrows, hdraft⟩ := readLines_known (Scope.sound_fresh supply)
      (Draft.known_empty _) hread
    obtain ⟨start, hstart, hrules⟩ := Draft.grammar_eq_ok.mp hgrammar
    have hmem : ∀ r, r ∈ g.rules ↔ r ∈ draft.rules := fun r =>
      Grammar.mem_rules_of_ofRules hrules
    -- The start variable was declared, or it is that of the first rule.
    have hknows : scope.Knows start := by
      rcases Option.or_eq_some_iff.mp hstart with hstart | ⟨-, hstart⟩
      · exact hdraft.start start hstart
      · obtain ⟨r, hr, rfl⟩ := Option.map_eq_some_iff.mp hstart
        exact hdraft.mentions r (List.mem_of_mem_head? hr) _ (List.mem_cons_self ..)
    refine ⟨draft, scope, hread, rfl, hgrows.sound, Grammar.valid_of_ofRules hrules, ?_, ?_⟩
    · rw [Grammar.rules_of_ofRules hrules]
      refine List.forall_mem_cons.mpr ⟨hknows, fun v hv => ?_⟩
      obtain ⟨r, hr, hv⟩ := List.mem_flatMap.mp hv
      exact hdraft.mentions r (mem_sortRules.mp hr) v hv
    · exact fun r hr => hdraft.terminals r ((hmem r).mp hr)
  · cases (Prod.mk.inj h).1

/-- A grammar that is read with any supply is valid and can be written. -/
theorem Grammar.writable_of_readWith {supply left : VariableSupply} {text : String} {g : Grammar}
    (h : Grammar.readWith supply text = (.ok g, left)) : g.Valid ∧ g.Writable := by
  obtain ⟨-, scope, -, -, hsound, hvalid, hknows, hterminals⟩ :=
    Grammar.exists_scope_of_readWith h
  exact ⟨hvalid, .of_knows hsound hknows hterminals⟩

/-- A grammar that is read from a text is valid and can be written. -/
theorem Grammar.writable_of_read {text : String} {g : Grammar} (h : Grammar.read text = .ok g) :
    g.Valid ∧ g.Writable :=
  Grammar.writable_of_readWith (Prod.ext h rfl :
    Grammar.readWith .fresh text = (.ok g, (Grammar.readWith .fresh text).2))

/-! ## What is written can be read -/

/-- The scope knows one variable under the name of another. -/
def Scope.ReadsAs (s : Scope) (v w : Variable) : Prop :=
  w.name = v.name ∧ s.Knows w

/-- A symbol with the known variable of the same name. -/
inductive Symbol.ReadAs (s : Scope) : Symbol → Symbol → Prop where
  | term (t : Terminal) : ReadAs s (.term t) (.term t)
  | var {v w : Variable} (h : s.ReadsAs v w) : ReadAs s (.var v) (.var w)

/-- A rule with the known variables of the same names. -/
inductive Rule.ReadAs (s : Scope) : Rule → Rule → Prop where
  | derivation {lhs lhs' : Variable} {rhs rhs' : List Symbol} (hlhs : s.ReadsAs lhs lhs')
      (h : List.Forall₂ (Symbol.ReadAs s) rhs rhs') :
      ReadAs s (.derivation lhs rhs) (.derivation lhs' rhs')
  | selection {lhs lhs' : Variable} {alternatives alternatives' : List Variable}
      (hlhs : s.ReadsAs lhs lhs') (h : List.Forall₂ s.ReadsAs alternatives alternatives') :
      ReadAs s (.selection lhs alternatives) (.selection lhs' alternatives')

theorem Scope.Grows.readsAs (h : s.Grows s') {v w : Variable} (hv : s.ReadsAs v w) :
    s'.ReadsAs v w :=
  ⟨hv.1, h.keeps w hv.2⟩

theorem Scope.Grows.readAs (h : s.Grows s') (hr : r.ReadAs s r') : r.ReadAs s' r' := by
  cases hr with
  | selection hlhs halternatives =>
    exact .selection (h.readsAs hlhs) (halternatives.imp fun _ _ => h.readsAs)
  | derivation hlhs hrhs =>
    refine .derivation (h.readsAs hlhs) (hrhs.imp fun x y hxy => ?_)
    cases hxy with
    | term t => exact .term t
    | var hv => exact .var (h.readsAs hv)

/-- The token of a symbol means that symbol. -/
theorem Scope.Means.readAs {x y : Symbol} (hs : s.Sound) (hx : x.isWritable = true)
    (h : s.Means x.token y) : x.ReadAs s y := by
  -- Whether a name begins with a capital tells terminals and variables apart, when written and
  -- when read.
  cases x with
  | term t =>
    have hcapital : beginsWithCapital t.name = false := by
      rcases Terminal.isWritable_iff.mp hx with rfl | ⟨-, hcapital, -⟩
      · decide
      · exact hcapital
    cases y with
    | term u =>
      obtain ⟨-, rfl⟩ := h
      have hparams : (if t.params.isEmpty = true then none else some t.params).getD [] =
          t.params := by
        cases t.params <;> rfl
      rw [hparams]
      exact .term t
    | var w =>
      obtain ⟨-, hname, hw⟩ := h
      have hlegal := hs.legal w hw
      rw [isVariableName, hname, hcapital] at hlegal
      cases hlegal
  | var v =>
    cases y with
    | term u =>
      have hcapital := h.1
      have hlegal : isVariableName v.name = true := hx
      rw [isVariableName, hcapital] at hlegal
      cases hlegal
    | var w => exact .var h.2

@[simp] theorem Symbol.isBar_token (x : Symbol) : x.token.isBar = false := by
  cases x <;> rfl

theorem Symbol.token_ne_epsilon (x : Symbol) : x.token ≠ .epsilon := by
  cases x <;> exact fun h => nomatch h

theorem splitBy_alternativeTokens (v : Variable) (rest : List Variable) :
    Text.splitBy Token.isBar (alternativeTokens v rest) =
      (v :: rest).map (fun w => [.name w.name none]) := by
  have hsplit : Text.splitBy Token.isBar ([.name v.name none] ++
      (rest.map (fun w => [Token.name w.name none])).flatMap (.bar :: ·)) =
      [.name v.name none] :: rest.map (fun w => [.name w.name none]) := by
    refine Text.splitBy_flatMap (by rfl) ?_
    rw [← List.map_cons (f := fun w : Variable => [Token.name w.name none])]
    intro piece hpiece c hc
    obtain ⟨w, -, rfl⟩ := List.mem_map.mp hpiece
    rw [List.mem_singleton.mp hc]
    rfl
  rw [List.flatMap_map] at hsplit
  exact hsplit

theorem any_isBar_alternativeTokens {v : Variable} {rest : List Variable} (h : rest ≠ []) :
    (alternativeTokens v rest).any Token.isBar = true := by
  obtain ⟨w, rest, rfl⟩ := List.exists_cons_of_ne_nil h
  rw [List.any_eq_true]
  exact ⟨.bar, by simp [alternativeTokens], rfl⟩

theorem any_isBar_tokens (rhs : List Symbol) :
    (rhs.map Symbol.token).any Token.isBar = false := by
  simp

/-- A rule that can stand in a grammar: a selection offers a choice. -/
def Rule.Chooses : Rule → Prop
  | .derivation .. => True
  | .selection _ alternatives => 2 ≤ alternatives.length

theorem WellFormed.chooses {start : Variable} {rules : List Rule} (h : WellFormed start rules)
    (hr : r ∈ rules) : r.Chooses := by
  cases r with
  | derivation lhs rhs => trivial
  | selection lhs alternatives => exact (h.selections lhs alternatives hr).1

theorem Rule.Chooses.ne_empty (h : r.Chooses) (lhs : Variable) : r ≠ .selection lhs [] := by
  rintro rfl
  exact absurd h (by simp [Rule.Chooses])

theorem exists_two_alternatives {lhs : Variable} {alternatives : List Variable}
    (h : (Rule.selection lhs alternatives).Chooses) :
    ∃ v w rest, alternatives = v :: w :: rest := by
  rcases alternatives with _ | ⟨v, _ | ⟨w, rest⟩⟩
  · exact absurd h (by simp [Rule.Chooses])
  · exact absurd h (by simp [Rule.Chooses])
  · exact ⟨v, w, rest, rfl⟩

/-- The tokens that a rule was written as mean that rule. -/
theorem Scope.MeansRule.readAs {lhs : Variable} (hs : s.Sound) (hr : r.Writable)
    (hchoice : r.Chooses) (hlhs : s.ReadsAs r.lhs lhs)
    (h : s.MeansRule lhs r.bodyTokens r') : r.ReadAs s r' := by
  -- The body decides what kind of rule was written: no bar stands in a derivation, and only a
  -- derivation of nothing is written as an epsilon.
  cases r with
  | derivation lhs' rhs =>
    cases rhs with
    | nil =>
      cases h with
      | selection hbar =>
        rw [Rule.bodyTokens] at hbar
        exact absurd hbar (by decide)
      | empty => exact .derivation hlhs .nil
      | derivation hbar hepsilon => exact absurd (List.mem_cons_self ..) hepsilon
    | cons x rest =>
      have htokens : (Rule.derivation lhs' (x :: rest)).bodyTokens =
          (x :: rest).map Symbol.token := rfl
      rw [htokens] at h
      cases h with
      | selection hbar =>
        rw [any_isBar_tokens] at hbar
        cases hbar
      | empty hts =>
        rw [List.map_cons] at hts
        exact absurd (List.cons.inj hts).1 x.token_ne_epsilon
      | derivation hbar hepsilon hmeans =>
        rw [List.forall₂_map_left_iff] at hmeans
        have hboth := (List.forall₂_and_left _ _).mpr ⟨hr.symbols, hmeans⟩
        exact .derivation hlhs (hboth.imp fun _ _ hxy => hxy.2.readAs hs hxy.1)
  | selection lhs' alternatives =>
    obtain ⟨v, w, rest, rfl⟩ := exists_two_alternatives hchoice
    have htokens : (Rule.selection lhs' (v :: w :: rest)).bodyTokens =
        alternativeTokens v (w :: rest) := rfl
    have hbars := any_isBar_alternativeTokens (v := v) (List.cons_ne_nil w rest)
    rw [htokens] at h
    cases h with
    | selection hbar hoffers =>
      rw [splitBy_alternativeTokens, List.forall₂_map_left_iff] at hoffers
      refine .selection hlhs (hoffers.imp fun u u' hu => ?_)
      obtain ⟨hname, hknows⟩ := hu
      simp only [List.cons.injEq, Token.name.injEq] at hname
      exact ⟨hname.1.1.symm, hknows⟩
    | empty hts =>
      rw [hts] at hbars
      exact absurd hbars (by decide)
    | derivation hbar =>
      rw [hbars] at hbar
      cases hbar

/-! ## Reading the lines of a written grammar -/

/-- A written body is read, whatever scope it is read in. -/
theorem readRule_succeeds {lhs : Variable} (hr : r.Writable) (hchoice : r.Chooses)
    (s : Scope) : Succeeds (readRule line lhs r.body.toList) s := by
  unfold readRule
  refine Succeeds.bind ⟨r.bodyTokens, s, atLine_eq_ok.mpr ⟨tokens_body hr, rfl⟩⟩ ?_
  intro ts s₁ hline
  obtain ⟨hts, rfl⟩ := atLine_eq_ok.mp hline
  obtain rfl := Except.ok.inj ((tokens_body hr).symm.trans hts)
  cases r with
  | selection lhs' alternatives =>
    obtain ⟨v, w, rest, rfl⟩ := exists_two_alternatives hchoice
    have htokens : (Rule.selection lhs' (v :: w :: rest)).bodyTokens =
        alternativeTokens v (w :: rest) := rfl
    have hbars := any_isBar_alternativeTokens (v := v) (List.cons_ne_nil w rest)
    rw [htokens]
    simp only [hbars, if_true, splitBy_alternativeTokens]
    refine (mapM_succeeds ?_ s).bind fun _ _ _ => Succeeds.pure _ _
    intro piece hpiece
    obtain ⟨u, hu, rfl⟩ := List.mem_map.mp hpiece
    exact readAlternative_succeeds (hr.alternatives u hu)
  | derivation lhs' rhs =>
    cases rhs with
    | nil => exact Succeeds.pure _ _
    | cons x rest =>
      have htokens : (Rule.derivation lhs' (x :: rest)).bodyTokens =
          (x :: rest).map Symbol.token := rfl
      -- Symbols are written as names, never as an epsilon, so the body is read symbol by symbol.
      have hempty : ((x :: rest).map Symbol.token == [.epsilon]) = false := by
        rw [beq_eq_false_iff_ne, List.map_cons]
        exact fun heq => x.token_ne_epsilon (List.cons.inj heq).1
      have hepsilon : ((x :: rest).map Symbol.token).contains .epsilon = false := by
        rw [← Bool.not_eq_true, List.contains_iff_mem]
        intro hmem
        obtain ⟨y, -, hy⟩ := List.mem_map.mp hmem
        exact y.token_ne_epsilon hy
      rw [htokens]
      simp only [any_isBar_tokens, hempty, hepsilon, Bool.false_eq_true, if_false]
      refine (mapM_succeeds ?_ s).bind fun _ _ _ => Succeeds.pure _ _
      intro t ht
      obtain ⟨y, hy, rfl⟩ := List.mem_map.mp ht
      exact readSymbol_succeeds (hr.symbols y hy)

theorem LinePiece.isEmpty_eq_false {cs : List Char} (h : LinePiece cs) :
    cs.isEmpty = false := by
  simpa using h.ne_nil

/-- The line of a rule is read as that rule. -/
theorem readLine_rule (draft : Draft) (line : Nat) (hs : s.Sound) (hr : r.Writable)
    (hchoice : r.Chooses) :
    ∃ r' s', readLine draft line r.text.toList s = .ok ⟨draft.start, draft.rules ++ [r']⟩ s' ∧
      s.Grows s' ∧ r.ReadAs s' r' := by
  have hpiece := linePiece_rule hr hchoice.ne_empty
  have hcontent := hpiece.lineContent
  -- That reading succeeds is shown first; what was read then follows from what the line declares.
  have hsucceeds : Succeeds (readLine draft line r.text.toList) s := by
    unfold readLine
    simp only [hpiece.isEmpty_eq_false, Bool.false_eq_true, if_false, hcontent,
      startName?_rule hr, cutAt?_rule hr, trim_ruleName hr.lhs, String.ofList_toList]
    refine (variableNamed_succeeds hr.lhs s).bind fun lhs s₁ _ => ?_
    exact (readRule_succeeds hr hchoice s₁).bind fun _ _ _ => Succeeds.pure _ _
  obtain ⟨draft', s', hrun⟩ := hsucceeds
  obtain ⟨hgrows, hdeclares⟩ := readLine_ok hs hrun
  rw [hcontent] at hdeclares
  cases hdeclares with
  | nothing hempty => exact absurd hempty hpiece.ne_nil
  | start hstart =>
    rw [startName?_rule hr] at hstart
    cases hstart
  | @rule name body lhs ts r' hstart hcut hname hlhs hts hmeans =>
    rw [cutAt?_rule hr] at hcut
    cases hcut
    rw [trim_ruleName hr.lhs, String.ofList_toList] at hname
    obtain rfl := Except.ok.inj ((tokens_body hr).symm.trans hts)
    exact ⟨r', s', hrun, hgrows, hmeans.readAs hgrows.sound hr hchoice ⟨hname, hlhs⟩⟩

/-- The line of the start variable is read as that variable. -/
theorem readLine_start {v : Variable} (rules : List Rule) (line : Nat) (hs : s.Sound)
    (hv : isVariableName v.name = true) :
    ∃ w s', readLine ⟨none, rules⟩ line (startLine v).toList s = .ok ⟨some w, rules⟩ s' ∧
      s.Grows s' ∧ s'.ReadsAs v w := by
  have hpiece := linePiece_startLine hv
  have hcontent := hpiece.lineContent
  -- As with the line of a rule, first that it is read and then as what.
  have hsucceeds : Succeeds (readLine ⟨none, rules⟩ line (startLine v).toList) s := by
    unfold readLine
    simp only [hpiece.isEmpty_eq_false, Bool.false_eq_true, if_false, hcontent,
      startName?_startLine hv, Option.isSome_none, String.ofList_toList]
    exact (variableNamed_succeeds hv s).bind fun _ _ _ => Succeeds.pure _ _
  obtain ⟨draft', s', hrun⟩ := hsucceeds
  obtain ⟨hgrows, hdeclares⟩ := readLine_ok hs hrun
  rw [hcontent] at hdeclares
  cases hdeclares with
  | nothing hempty => exact absurd hempty hpiece.ne_nil
  | @start name w hstart hnone hname hw =>
    rw [startName?_startLine hv] at hstart
    cases hstart
    rw [String.ofList_toList] at hname
    exact ⟨w, s', hrun, hgrows, hname, hw⟩
  | rule hstart =>
    rw [startName?_startLine hv] at hstart
    cases hstart

/-- The lines of rules are read as those rules. -/
theorem readLines_rules (draft : Draft) (line : Nat) {rules : List Rule} (hs : s.Sound)
    (hrules : ∀ r ∈ rules, r.Writable ∧ r.Chooses) :
    ∃ rules' s', readLines draft line (rules.map (fun r => r.text.toList)) s =
        .ok ⟨draft.start, draft.rules ++ rules'⟩ s' ∧
      s.Grows s' ∧ List.Forall₂ (Rule.ReadAs s') rules rules' := by
  induction rules generalizing draft line s with
  | nil => exact ⟨[], s, by rw [List.append_nil]; rfl, hs.grows, .nil⟩
  | cons r rules ih =>
    obtain ⟨hr, hchoice⟩ := hrules r (List.mem_cons_self ..)
    obtain ⟨r', s₁, hline, hgrows, hread⟩ := readLine_rule draft line hs hr hchoice
    obtain ⟨rules', s', hrest, hgrows', hrules'⟩ :=
      ih _ _ hgrows.sound fun q hq => hrules q (List.mem_cons_of_mem _ hq)
    refine ⟨r' :: rules', s', ?_, hgrows.trans hgrows', .cons (hgrows'.readAs hread) hrules'⟩
    rw [List.map_cons, readLines]
    refine bind_eq_ok.mpr ⟨_, s₁, hline, ?_⟩
    rw [hrest]
    simp

end FluentGrammar
