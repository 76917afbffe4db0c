import FluentGrammar.Grammar.Writable
import FluentGrammar.Proofs.Rewriting.Steps
import FluentGrammar.Proofs.Text.CharClass
import FluentGrammar.Proofs.Text.Pieces

/-! # Tokens of a written body

    A body is written as symbols with a blank in front of each, or with a bar between blanks.
    The tokens of it are those of its symbols, one after the other: each step below takes one
    piece off the front and leaves the rest as it is. The other way round, whatever tokens are
    read, the names in them can be written.
-/

namespace FluentGrammar

variable {cs after : List Char} {ts : List Token}

/-! ## Identifiers -/

theorem isIdentifier_iff {name : String} :
    isIdentifier name = true ↔ ∃ c rest, name.toList = c :: rest ∧
      startsIdentifier c = true ∧ c ≠ 'ε' ∧ ∀ d ∈ rest, continuesIdentifier d = true := by
  unfold isIdentifier
  cases hname : name.toList with
  | nil => simp
  | cons c rest =>
    simp only [Bool.and_eq_true, bne_iff_ne, List.all_eq_true, and_assoc]
    constructor
    · intro h
      exact ⟨c, rest, rfl, h⟩
    · intro hex
      obtain ⟨c', rest', heq, h⟩ := hex
      cases heq
      exact h

theorem beginsWithCapital_iff {name : String} :
    beginsWithCapital name = true ↔
      ∃ c rest, name.toList = c :: rest ∧ Text.isUppercase c = true := by
  unfold beginsWithCapital
  cases name.toList with
  | nil => simp
  | cons c rest => simp

theorem beginsWithCapital_of_isVariableName {name : String} (h : isVariableName name = true) :
    beginsWithCapital name = true :=
  (Bool.and_eq_true_iff.mp h).1

/-- The names of variables are identifiers. -/
theorem isIdentifier_of_isVariableName {name : String} (h : isVariableName name = true) :
    isIdentifier name = true := by
  simp only [isVariableName, Bool.and_eq_true, List.all_eq_true] at h
  obtain ⟨hcapital, hall⟩ := h
  obtain ⟨c, rest, hname, hc⟩ := beginsWithCapital_iff.mp hcapital
  rw [hname] at hall
  refine isIdentifier_iff.mpr ⟨c, rest, hname, startsIdentifier_of_isUppercase hc, ?_,
    fun d hd => hall d (List.mem_cons_of_mem _ hd)⟩
  rintro rfl
  exact absurd hc (by decide)

/-- An identifier consists of characters of identifiers. -/
theorem continuesIdentifier_of_mem {name : String} (h : isIdentifier name = true) :
    ∀ c ∈ name.toList, continuesIdentifier c = true := by
  obtain ⟨c, rest, hname, hc, -, hrest⟩ := isIdentifier_iff.mp h
  rw [hname]
  exact List.forall_mem_cons.mpr ⟨continuesIdentifier_of_startsIdentifier hc, hrest⟩

theorem toList_ne_nil_of_isIdentifier {name : String} (h : isIdentifier name = true) :
    name.toList ≠ [] := by
  obtain ⟨c, rest, hname, -⟩ := isIdentifier_iff.mp h
  simp [hname]

/-! ## One token off the front -/

@[simp] theorem tokens_nil : tokens [] = .ok [] := by
  rw [tokens]

theorem tokens_blank {c : Char} (h : Text.isWhiteSpace c = true) (cs : List Char) :
    tokens (c :: cs) = tokens cs := by
  rw [tokens, if_pos h]

theorem tokens_dropWhile (cs : List Char) :
    tokens (cs.dropWhile Text.isWhiteSpace) = tokens cs := by
  induction cs with
  | nil => rfl
  | cons c cs ih =>
    by_cases hc : Text.isWhiteSpace c = true
    · rw [List.dropWhile_cons_of_pos hc, ih, tokens_blank hc]
    · rw [List.dropWhile_cons_of_neg hc]

theorem isWhiteSpace_space : Text.isWhiteSpace ' ' = true := by decide

theorem tokens_space (cs : List Char) : tokens (' ' :: cs) = tokens cs :=
  tokens_blank isWhiteSpace_space cs

theorem tokens_bar (cs : List Char) :
    tokens ('|' :: cs) = (tokens cs).map (.bar :: ·) := by
  have hblank : Text.isWhiteSpace '|' = false := isWhiteSpace_of_mem_marks (by decide)
  rw [tokens, hblank]
  rfl

theorem tokens_epsilon (cs : List Char) :
    tokens ('ε' :: cs) = (tokens cs).map (.epsilon :: ·) := by
  have hblank : Text.isWhiteSpace 'ε' = false := by decide
  rw [tokens, hblank]
  rfl

theorem tokens_empty (cs : List Char) :
    tokens (Terminal.empty.name.toList ++ cs) =
      (tokens cs).map (.name Terminal.empty.name none :: ·) := by
  have hblank : Text.isWhiteSpace '<' = false := isWhiteSpace_of_mem_marks (by decide)
  have hbehind := Text.behind?_append Terminal.empty.name.toList cs
  have hcons : Terminal.empty.name.toList ++ cs =
      '<' :: ("empty>".toList ++ cs) := rfl
  rw [hcons] at hbehind ⊢
  rw [tokens, hblank]
  simp only [Bool.false_eq_true, if_false, show ('<' == '|') = false from rfl,
    show ('<' == 'ε') = false from rfl]
  split
  · rename_i rest hrest
    rw [hbehind] at hrest
    cases hrest
    cases tokens cs <;> rfl
  · rename_i hnone
    rw [hbehind] at hnone
    cases hnone

/-- An identifier that ends where the rest begins is one token, together with the parameter
    list that may follow it. -/
theorem tokens_identifier {name : String} (h : isIdentifier name = true)
    (hend : ∀ c ∈ after.head?, continuesIdentifier c = false) :
    tokens (name.toList ++ after) =
      (readParameterList (after.dropWhile Text.isWhiteSpace)).bind (fun p =>
        (tokens p.2).map (.name name p.1 :: ·)) := by
  obtain ⟨c, rest, hname, hc, hε, hrest⟩ := isIdentifier_iff.mp h
  have hcontinues := continuesIdentifier_of_startsIdentifier hc
  -- The first character starts an identifier, so none of the branches before that one is taken.
  have hblank := isWhiteSpace_of_continuesIdentifier hcontinues
  have hmarks := not_mem_marks_of_continuesIdentifier hcontinues
  have hbar : (c == '|') = false := beq_eq_false_iff_ne.mpr fun hc' => hmarks (by simp [hc', marks])
  have hangle : '<' ≠ c := fun hc' => hmarks (by simp [← hc', marks])
  have hbehind : Text.behind? Terminal.empty.name.toList (c :: (rest ++ after)) = none :=
    Text.behind?_of_ne _ _ hangle
  -- Neither the name nor what is read behind it goes beyond the place where the identifier ends.
  have htake : (rest ++ after).takeWhile continuesIdentifier = rest := by
    rw [List.takeWhile_append_of_pos hrest]
    cases after with
    | nil => simp
    | cons d after => simp [hend d rfl]
  have hdrop : (rest ++ after).dropWhile continuesIdentifier = after := by
    rw [List.dropWhile_append_of_pos hrest]
    exact Text.dropWhile_of_head? hend
  have hofList : String.ofList (c :: rest) = name := by
    rw [← hname, String.ofList_toList]
  rw [hname, List.cons_append, tokens]
  simp only [hblank, hbar, beq_eq_false_iff_ne.mpr hε, Bool.false_eq_true, if_false, hc, if_true,
    htake, hofList]
  split
  · rename_i rest' hrest'
    rw [hbehind] at hrest'
    cases hrest'
  · split
    · rename_i fault hfault
      rw [hdrop] at hfault
      rw [hfault]
      rfl
    · rename_i params behind hparams
      rw [hdrop] at hparams
      rw [hparams]
      show _ = (tokens behind).map (.name name params :: ·)
      cases tokens behind <;> rfl

/-! ## Parameter lists -/

theorem isParameterWord_iff {word : String} :
    isParameterWord word = true ↔ word.toList ≠ [] ∧ ∀ c ∈ word.toList, endsWord c = false := by
  simp [isParameterWord]

theorem endsWord_eq_false {c : Char} :
    endsWord c = false ↔ Text.isWhiteSpace c = false ∧ c ≠ '(' ∧ c ≠ ')' ∧ c ≠ ',' ∧ c ≠ '#' := by
  simp [endsWord, and_assoc]

/-- A parenthesis closes the text in front of it that has none in it. -/
theorem closeParenthesis_append {inside : List Char} (hopen : '(' ∉ inside)
    (hclose : ')' ∉ inside) (after : List Char) :
    closeParenthesis (inside ++ ')' :: after) = .ok (inside, after) := by
  induction inside with
  | nil => rfl
  | cons c inside ih =>
    obtain ⟨hc, hopen⟩ := not_or.mp (mt List.mem_cons.mpr hopen)
    obtain ⟨hc', hclose⟩ := not_or.mp (mt List.mem_cons.mpr hclose)
    rw [List.cons_append, closeParenthesis, ih hopen hclose]
    simp [Ne.symm hc, Ne.symm hc', Except.map]

theorem Parameter.text_toList (p : Parameter) :
    p.text.toList = p.type.toList ++ ' ' :: p.name.toList := by
  simp [Parameter.text]

/-- A parameter is read as it was written. -/
theorem readParameter_text {p : Parameter} (h : p.isWritable = true) :
    readParameter p.text.toList = .ok p := by
  simp only [Parameter.isWritable, Bool.and_eq_true, isParameterWord_iff] at h
  obtain ⟨⟨htype, htype'⟩, hname, hname'⟩ := h
  rw [readParameter, Parameter.text_toList, Text.words_pair isWhiteSpace_space
    (fun c hc => (endsWord_eq_false.mp (htype' c hc)).1) htype
    (fun c hc => (endsWord_eq_false.mp (hname' c hc)).1) hname]
  simp only [String.ofList_toList]

theorem readParameter_space {p : Parameter} (h : p.isWritable = true) :
    readParameter (' ' :: p.text.toList) = .ok p := by
  rw [← readParameter_text h]
  simp only [readParameter, Text.words_cons_blank isWhiteSpace_space]
  rfl

/-- The characters of a written parameter. -/
theorem of_mem_parameter_text {p : Parameter} (h : p.isWritable = true) {c : Char}
    (hc : c ∈ p.text.toList) : c = ' ' ∨ endsWord c = false := by
  simp only [Parameter.isWritable, Bool.and_eq_true, isParameterWord_iff] at h
  obtain ⟨⟨-, htype⟩, -, hname⟩ := h
  rw [Parameter.text_toList, List.mem_append, List.mem_cons] at hc
  rcases hc with hc | rfl | hc
  · exact Or.inr (htype c hc)
  · exact Or.inl rfl
  · exact Or.inr (hname c hc)

theorem trimmed_parameter_text {p : Parameter} (h : p.isWritable = true) :
    Text.Trimmed p.text.toList ∧ p.text.toList ≠ [] := by
  simp only [Parameter.isWritable, Bool.and_eq_true, isParameterWord_iff] at h
  obtain ⟨⟨htype, htype'⟩, hname, hname'⟩ := h
  have hblank : ∀ {word : String}, (∀ c ∈ word.toList, endsWord c = false) →
      Text.Trimmed word.toList := fun hword =>
    Text.trimmed_of_forall fun c hc => (endsWord_eq_false.mp (hword c hc)).1
  rw [Parameter.text_toList]
  exact ⟨(hblank htype').append (hblank hname') htype hname [' '], by simp⟩

/-- Parameters as they stand between the parentheses. -/
def parametersText (params : List Parameter) : List Char :=
  (", ".intercalate (params.map Parameter.text)).toList

theorem intercalate_cons {α : Type} (separator x : List α) (xs : List (List α)) :
    separator.intercalate (x :: xs) = x ++ xs.flatMap (separator ++ ·) := by
  induction xs generalizing x with
  | nil => simp
  | cons y xs ih =>
    rw [List.intercalate_cons_cons, ih, List.flatMap_cons, List.append_assoc, List.append_assoc]

theorem parametersText_cons (p : Parameter) (params : List Parameter) :
    parametersText (p :: params) = p.text.toList ++
      (params.map (fun q => q.text.toList)).flatMap (", ".toList ++ ·) := by
  rw [parametersText, String.toList_intercalate, List.map_cons, List.map_cons, intercalate_cons,
    List.map_map]
  rfl

theorem trimmed_parametersText {params : List Parameter}
    (h : ∀ p ∈ params, p.isWritable = true) : Text.Trimmed (parametersText params) := by
  cases params with
  | nil => exact Text.trimmed_of_forall (by simp [parametersText])
  | cons p params =>
    rw [parametersText_cons]
    refine Text.trimmed_flatMap ?_
    rw [← List.map_cons (f := fun q : Parameter => q.text.toList)]
    intro piece hpiece
    obtain ⟨q, hq, rfl⟩ := List.mem_map.mp hpiece
    exact trimmed_parameter_text (h q hq)

/-- The characters between the parentheses. -/
theorem of_mem_parametersText {params : List Parameter}
    (h : ∀ p ∈ params, p.isWritable = true) {c : Char} (hc : c ∈ parametersText params) :
    c = ' ' ∨ c = ',' ∨ endsWord c = false := by
  cases params with
  | nil => simp [parametersText] at hc
  | cons p params =>
    rw [parametersText_cons, List.mem_append, List.mem_flatMap] at hc
    rcases hc with hc | ⟨piece, hpiece, hc⟩
    · rcases of_mem_parameter_text (h p (List.mem_cons_self ..)) hc with hc | hc
      · exact Or.inl hc
      · exact Or.inr (Or.inr hc)
    · obtain ⟨q, hq, rfl⟩ := List.mem_map.mp hpiece
      rcases List.mem_append.mp hc with hc | hc
      · rcases List.mem_pair.mp hc with rfl | rfl
        · exact Or.inr (Or.inl rfl)
        · exact Or.inl rfl
      · rcases of_mem_parameter_text (h q (List.mem_cons_of_mem _ hq)) hc with hc | hc
        · exact Or.inl hc
        · exact Or.inr (Or.inr hc)

/-- No written parameter has a comma in it. -/
theorem comma_not_mem {p : Parameter} (h : p.isWritable = true) :
    ∀ c ∈ p.text.toList, (c == ',') = false := by
  intro c hc
  rw [beq_eq_false_iff_ne]
  rcases of_mem_parameter_text h hc with rfl | hc
  · decide
  · exact (endsWord_eq_false.mp hc).2.2.2.1

theorem splitBy_parametersText {p : Parameter} {params : List Parameter}
    (h : ∀ q ∈ p :: params, q.isWritable = true) :
    Text.splitBy (· == ',') (parametersText (p :: params)) =
      p.text.toList :: params.map (fun q => ' ' :: q.text.toList) := by
  have hpieces : ∀ piece ∈ p.text.toList :: params.map (fun q => ' ' :: q.text.toList),
      ∀ c ∈ piece, (c == ',') = false := by
    intro piece hpiece
    rcases List.mem_cons.mp hpiece with rfl | hpiece
    · exact comma_not_mem (h p (List.mem_cons_self ..))
    · obtain ⟨q, hq, rfl⟩ := List.mem_map.mp hpiece
      exact List.forall_mem_cons.mpr ⟨rfl, comma_not_mem (h q (List.mem_cons_of_mem _ hq))⟩
  have hsplit : Text.splitBy (· == ',') (p.text.toList ++
      (params.map (fun q => ' ' :: q.text.toList)).flatMap (',' :: ·)) =
      p.text.toList :: params.map (fun q => ' ' :: q.text.toList) :=
    Text.splitBy_flatMap (by rfl) hpieces
  rw [List.flatMap_map] at hsplit
  rw [parametersText_cons, List.flatMap_map]
  exact hsplit

theorem mapM_readParameter_space {params : List Parameter}
    (h : ∀ p ∈ params, p.isWritable = true) :
    (params.map (fun q => ' ' :: q.text.toList)).mapM readParameter = .ok params := by
  induction params with
  | nil => rfl
  | cons p params ih =>
    rw [List.map_cons, List.mapM_cons, readParameter_space (h p (List.mem_cons_self ..)),
      ih fun q hq => h q (List.mem_cons_of_mem _ hq)]
    rfl

/-- The parameters are read as they were written. -/
theorem readParameters_text {params : List Parameter}
    (h : ∀ p ∈ params, p.isWritable = true) :
    readParameters (parametersText params) = .ok params := by
  rw [readParameters, (trimmed_parametersText h).trim_eq]
  cases params with
  | nil => rfl
  | cons p params =>
    have hp := h p (List.mem_cons_self ..)
    have hnonempty : (parametersText (p :: params)).isEmpty = false := by
      rw [parametersText_cons]
      simp [(trimmed_parameter_text hp).2]
    simp only [hnonempty, splitBy_parametersText h, Bool.false_eq_true, if_false]
    rw [List.mapM_cons, readParameter_text hp,
      mapM_readParameter_space fun q hq => h q (List.mem_cons_of_mem _ hq)]
    rfl

/-- A parameter list is read off the front of a text that begins with one. -/
theorem readParameterList_text {params : List Parameter}
    (h : ∀ p ∈ params, p.isWritable = true) (after : List Char) :
    readParameterList ('(' :: (parametersText params ++ ')' :: after)) =
      .ok (some params, after) := by
  have hmark : ∀ c ∈ parametersText params, c ≠ '(' ∧ c ≠ ')' := by
    intro c hc
    rcases of_mem_parametersText h hc with rfl | rfl | hc
    · decide
    · decide
    · have hc := endsWord_eq_false.mp hc
      exact ⟨hc.2.1, hc.2.2.1⟩
  have hclose := closeParenthesis_append (fun hc => (hmark _ hc).1 rfl)
    (fun hc => (hmark _ hc).2 rfl) after
  rw [readParameterList]
  simp only [hclose, bind, Except.bind, readParameters_text h]
  rfl

theorem readParameterList_of_ne (h : ∀ c ∈ cs.head?, c ≠ '(') :
    readParameterList cs = .ok (none, cs) := by
  unfold readParameterList
  split
  · exact absurd rfl (h '(' rfl)
  · rfl

/-! ## The tokens of symbols -/

/-- The token that a symbol is written as. -/
def Symbol.token : Symbol → Token
  | .term t => .name t.name (if t.params.isEmpty then none else some t.params)
  | .var v => .name v.name none

/-- Whether the symbol can be written. -/
def Symbol.isWritable : Symbol → Bool
  | .term t => t.isWritable
  | .var v => isVariableName v.name

/-- What may follow a symbol in a body: the end, or a blank and then no parenthesis. -/
def EndsSymbol (after : List Char) : Prop :=
  after = [] ∨ ∃ c rest, after = ' ' :: c :: rest ∧ Text.isWhiteSpace c = false ∧ c ≠ '('

theorem EndsSymbol.continuesIdentifier (h : EndsSymbol after) :
    ∀ c ∈ after.head?, continuesIdentifier c = false := by
  rcases h with rfl | ⟨c, rest, rfl, -⟩
  · simp
  · intro d hd
    cases hd
    decide

/-- Behind a symbol without parameters no parenthesis is opened. -/
theorem EndsSymbol.opensNothing (h : EndsSymbol after) :
    ∀ c ∈ (after.dropWhile Text.isWhiteSpace).head?, c ≠ '(' := by
  rcases h with rfl | ⟨c, rest, rfl, hblank, hne⟩
  · simp
  · rw [List.dropWhile_cons_of_pos isWhiteSpace_space,
      List.dropWhile_cons_of_neg (by simp [hblank])]
    intro d hd
    cases hd
    exact hne

/-- An identifier that no parenthesis follows is one token, without a parameter list. -/
theorem tokens_identifier_alone {name : String} (h : isIdentifier name = true)
    (hend : ∀ c ∈ after.head?, continuesIdentifier c = false)
    (hopen : ∀ c ∈ (after.dropWhile Text.isWhiteSpace).head?, c ≠ '(') :
    tokens (name.toList ++ after) = (tokens after).map (.name name none :: ·) := by
  rw [tokens_identifier h hend, readParameterList_of_ne hopen]
  simp only [Except.bind, tokens_dropWhile]

theorem tokens_bare {name : String} (h : isIdentifier name = true) (hafter : EndsSymbol after) :
    tokens (name.toList ++ after) = (tokens after).map (.name name none :: ·) :=
  tokens_identifier_alone h hafter.continuesIdentifier hafter.opensNothing

theorem Terminal.text_toList {t : Terminal} (h : t.params ≠ []) :
    t.text.toList = t.name.toList ++ '(' :: (parametersText t.params ++ [')']) := by
  have hnonempty : t.params.isEmpty = false := by simpa using h
  simp [Terminal.text, hnonempty, parametersText]

theorem Terminal.isWritable_iff {t : Terminal} :
    t.isWritable = true ↔ t = Terminal.empty ∨ isIdentifier t.name = true ∧
      beginsWithCapital t.name = false ∧ ∀ p ∈ t.params, p.isWritable = true := by
  simp [isWritable, isEmpty_iff, and_assoc]

/-- A symbol in front of a body is its first token. -/
theorem tokens_symbol {x : Symbol} (h : x.isWritable = true) (hafter : EndsSymbol after) :
    tokens (x.text.toList ++ after) = (tokens after).map (x.token :: ·) := by
  cases x with
  | var v => exact tokens_bare (isIdentifier_of_isVariableName h) hafter
  | term t =>
    rcases Terminal.isWritable_iff.mp h with rfl | ⟨hname, -, hparams⟩
    · exact tokens_empty after
    · -- Parameters are written only where there are some.
      by_cases hnone : t.params = []
      · have htext : t.text = t.name := by simp [Terminal.text, hnone]
        have htoken : (Symbol.term t).token = .name t.name none := by
          simp [Symbol.token, hnone]
        rw [htoken, Symbol.text, htext]
        exact tokens_bare hname hafter
      · have htoken : (Symbol.term t).token = .name t.name (some t.params) := by
          simp [Symbol.token, hnone]
        have hopen : ∀ c ∈ ('(' :: (parametersText t.params ++ ')' :: after)).head?,
            continuesIdentifier c = false := by
          intro c hc
          cases hc
          exact continuesIdentifier_of_mem_marks (by decide)
        have hblank : Text.isWhiteSpace '(' = false := isWhiteSpace_of_mem_marks (by decide)
        rw [htoken, Symbol.text, Terminal.text_toList hnone]
        simp only [List.append_assoc, List.cons_append, List.nil_append]
        rw [tokens_identifier hname hopen, List.dropWhile_cons_of_neg (by simp [hblank]),
          readParameterList_text hparams]
        rfl

end FluentGrammar
