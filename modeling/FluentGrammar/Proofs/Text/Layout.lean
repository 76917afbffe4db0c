import FluentGrammar.Proofs.Text.Declarations
import FluentGrammar.Proofs.Text.Spacing

/-! # Texts in another layout

    A text in a wider layout declares what the text declares: the tokens of every body stay,
    and so do the names in front of them, while comments and lines without content say nothing.
    So the same grammar is read from both texts, ids included.
-/

namespace FluentGrammar

variable {cs cs' gap inside after : List Char} {name : String} {ts : List Token}

/-! ## Bodies -/

theorem continuesIdentifier_of_blank {c : Char} (h : Text.isWhiteSpace c = true) :
    continuesIdentifier c = false := by
  rw [← Bool.not_eq_true]
  intro hc
  rw [isWhiteSpace_of_continuesIdentifier hc] at h
  cases h

/-- An identifier with a parameter list is one token. -/
theorem tokens_call (h : isIdentifier name = true) (hgap : AllBlank gap) (hopen : '(' ∉ inside)
    (hclose : ')' ∉ inside) (after : List Char) :
    tokens (name.toList ++ (gap ++ '(' :: (inside ++ ')' :: after))) =
      (readParameters inside).bind (fun params =>
        (tokens after).map (.name name (some params) :: ·)) := by
  -- The gap or the parenthesis ends the identifier.
  have hend : ∀ c ∈ (gap ++ '(' :: (inside ++ ')' :: after)).head?,
      continuesIdentifier c = false := by
    intro c hc
    cases gap with
    | nil =>
      cases hc
      exact continuesIdentifier_of_mem_marks (by decide)
    | cons d gap =>
      cases hc
      exact continuesIdentifier_of_blank (hgap c (List.mem_cons_self ..))
  have hblank : Text.isWhiteSpace '(' = false := isWhiteSpace_of_mem_marks (by decide)
  rw [tokens_identifier h hend, Text.dropWhile_append_of_forall hgap,
    List.dropWhile_cons_of_neg (by simp [hblank]), readParameterList,
    closeParenthesis_append hopen hclose]
  simp only [bind, Except.bind, pure, Except.pure]
  cases readParameters inside <;> rfl

/-- What a piece of a line begins is no parameter list. -/
theorem LinePiece.opensNothing {piece : List Char} (h : LinePiece piece) (rest : List Char) :
    ∀ c ∈ ((piece ++ rest).dropWhile Text.isWhiteSpace).head?, c ≠ '(' := by
  have hfirst : (piece ++ rest).head? = piece.head? := List.head?_append_of_ne_nil _ h.ne_nil
  rw [Text.dropWhile_of_head? (by rw [hfirst]; exact h.trimmed.first), hfirst]
  rintro c hc rfl
  exact h.head hc

namespace SpacedBody

/-- An identifier still ends where it has ended. -/
theorem endsIdentifier (h : SpacedBody cs cs')
    (hend : ∀ c ∈ cs.head?, continuesIdentifier c = false) :
    ∀ c ∈ cs'.head?, continuesIdentifier c = false := by
  have hsame : ∀ {name : String} {rest rest' : List Char}, isIdentifier name = true →
      (name.toList ++ rest).head? = (name.toList ++ rest').head? := by
    intro name rest rest' hname
    have hne := toList_ne_nil_of_isIdentifier hname
    rw [List.head?_append_of_ne_nil _ hne, List.head?_append_of_ne_nil _ hne]
  cases h with
  | nil => exact hend
  | added hc h =>
    rintro _ ⟨⟩
    exact continuesIdentifier_of_blank hc
  | kept hc h => exact hend
  | bar h => exact hend
  | epsilon h => exact hend
  | empty h => exact hend
  | identifier hname hbehind h => exact hsame hname ▸ hend
  | call hname hgap hgap' hinside h => exact hsame hname ▸ hend

/-- A body does not begin with a parameter list. -/
theorem opensNothing (h : SpacedBody cs cs') :
    (∀ c ∈ (cs.dropWhile Text.isWhiteSpace).head?, c ≠ '(') ∧
      ∀ c ∈ (cs'.dropWhile Text.isWhiteSpace).head?, c ≠ '(' := by
  -- Every mark and every name is a piece of a line, and none of those begins with a parenthesis.
  have hbar : LinePiece ['|'] := ⟨Text.trimmed_of_all (by decide), by simp,
    clean_of_not_mem (by decide) (by decide), by decide⟩
  have hepsilon : LinePiece ['ε'] := ⟨Text.trimmed_of_all (by decide), by simp,
    clean_of_not_mem (by decide) (by decide), by decide⟩
  have hempty : LinePiece Terminal.empty.name.toList := ⟨Text.trimmed_of_all (by decide),
    by decide, clean_of_not_mem (by decide) (by decide), by decide⟩
  induction h with
  | nil => simp
  | added hc h ih =>
    rw [List.dropWhile_cons_of_pos hc]
    exact ih
  | kept hc h ih =>
    rw [List.dropWhile_cons_of_pos hc, List.dropWhile_cons_of_pos hc]
    exact ih
  | bar h ih => exact ⟨hbar.opensNothing _, hbar.opensNothing _⟩
  | epsilon h ih => exact ⟨hepsilon.opensNothing _, hepsilon.opensNothing _⟩
  | empty h ih => exact ⟨hempty.opensNothing _, hempty.opensNothing _⟩
  | identifier hname hbehind h ih =>
    have hpiece := linePiece_identifier hname
    exact ⟨hpiece.opensNothing _, hpiece.opensNothing _⟩
  | call hname hgap hgap' hinside h ih =>
    have hpiece := linePiece_identifier hname
    exact ⟨hpiece.opensNothing _, hpiece.opensNothing _⟩

/-- The tokens of a body stay. -/
theorem tokens_eq (h : SpacedBody cs cs') (hts : tokens cs = .ok ts) : tokens cs' = .ok ts := by
  induction h generalizing ts with
  | nil => exact hts
  | added hc h ih =>
    rw [tokens_blank hc]
    exact ih hts
  | kept hc h ih =>
    rw [tokens_blank hc] at hts ⊢
    exact ih hts
  | bar h ih =>
    rw [tokens_bar, except_map_eq_ok] at hts ⊢
    obtain ⟨rest, hrest, rfl⟩ := hts
    exact ⟨rest, ih hrest, rfl⟩
  | epsilon h ih =>
    rw [tokens_epsilon, except_map_eq_ok] at hts ⊢
    obtain ⟨rest, hrest, rfl⟩ := hts
    exact ⟨rest, ih hrest, rfl⟩
  | empty h ih =>
    rw [tokens_empty, except_map_eq_ok] at hts ⊢
    obtain ⟨rest, hrest, rfl⟩ := hts
    exact ⟨rest, ih hrest, rfl⟩
  -- An identifier could take a parameter list that follows, so neither rest may open one.
  | identifier hname hend h ih =>
    obtain ⟨hopen, hopen'⟩ := h.opensNothing
    rw [tokens_identifier_alone hname hend hopen, except_map_eq_ok] at hts
    rw [tokens_identifier_alone hname (h.endsIdentifier hend) hopen', except_map_eq_ok]
    obtain ⟨rest, hrest, rfl⟩ := hts
    exact ⟨rest, ih hrest, rfl⟩
  | call hname hgap hgap' hinside h ih =>
    have hopen := hinside.not_mem (c := '(') (by decide) (by decide) (by decide)
    have hclose := hinside.not_mem (c := ')') (by decide) (by decide) (by decide)
    rw [tokens_call hname hgap hopen.1 hclose.1] at hts
    rw [tokens_call hname hgap' hopen.2 hclose.2]
    obtain ⟨params, hparams, hts⟩ := except_bind_eq_ok.mp hts
    obtain ⟨rest, hrest, rfl⟩ := except_map_eq_ok.mp hts
    refine except_bind_eq_ok.mpr ⟨params, hinside.readParameters_iff.mpr hparams, ?_⟩
    exact except_map_eq_ok.mpr ⟨rest, ih hrest, rfl⟩

/-- No comment begins in a body. -/
theorem comment_not_mem (h : SpacedBody cs cs') : '#' ∉ cs ∧ '#' ∉ cs' := by
  -- The mark of a comment is neither white space nor part of a name.
  have hblank : ∀ {gap : List Char}, AllBlank gap → '#' ∉ gap := fun hgap hmem =>
    absurd (hgap '#' hmem) (by decide)
  have hne : ∀ {c : Char}, Text.isWhiteSpace c = true → '#' ≠ c := by
    rintro c hc rfl
    exact absurd hc (by decide)
  have hidentifier : ∀ {name : String}, isIdentifier name = true → '#' ∉ name.toList :=
    fun hname hmem => ((linePiece_identifier hname).clean '#' hmem).1 rfl
  induction h with
  | nil => simp
  | added hc h ih =>
    exact ⟨ih.1, List.not_mem_cons_of_ne_of_not_mem (hne hc) ih.2⟩
  | kept hc h ih =>
    exact ⟨List.not_mem_cons_of_ne_of_not_mem (hne hc) ih.1,
      List.not_mem_cons_of_ne_of_not_mem (hne hc) ih.2⟩
  | bar h ih => simpa using ih
  | epsilon h ih => simpa using ih
  | empty h ih =>
    have hempty : '#' ∉ Terminal.empty.name.toList := by decide
    simpa [hempty] using ih
  | identifier hname hend h ih => simpa [hidentifier hname] using ih
  | call hname hgap hgap' hinside h ih =>
    have hparams := hinside.not_mem (c := '#') (by decide) (by decide) (by decide)
    simpa [hidentifier hname, hblank hgap, hblank hgap', hparams] using ih

theorem keepAll (hgap : AllBlank gap) (h : SpacedBody cs cs') :
    SpacedBody (gap ++ cs) (gap ++ cs') := by
  induction gap with
  | nil => exact h
  | cons c gap ih =>
    obtain ⟨hc, hgap⟩ := List.forall_mem_cons.mp hgap
    exact .kept hc (ih hgap)

end SpacedBody

/-! ### Every body is one in its own layout -/

/-- The text is cut at the parenthesis that is found. -/
theorem eq_append_of_closeParenthesis (h : closeParenthesis cs = .ok (inside, after)) :
    cs = inside ++ ')' :: after := by
  induction cs generalizing inside with
  | nil => cases h
  | cons c cs ih =>
    rw [closeParenthesis] at h
    split at h
    · rename_i hclose
      cases h
      rw [beq_iff_eq.mp hclose]
      rfl
    · split at h
      · cases h
      · obtain ⟨⟨inside', after'⟩, hrest, hpair⟩ := except_map_eq_ok.mp h
        cases hpair
        rw [ih hrest]
        rfl

/-- Either there is no parameter list, or its parentheses enclose words and commas. -/
theorem exists_of_readParameterList {params : Option (List Parameter)} (hcs : '#' ∉ cs)
    (h : readParameterList cs = .ok (params, after)) :
    after = cs ∨ ∃ inside, cs = '(' :: (inside ++ ')' :: after) ∧
      SpacedParameters inside inside := by
  unfold readParameterList at h
  split at h
  · rename_i rest
    obtain ⟨⟨inside, after'⟩, hclose, h⟩ := except_bind_eq_ok.mp h
    obtain ⟨ps, hread, h⟩ := except_bind_eq_ok.mp h
    cases h
    refine Or.inr ⟨inside, by rw [eq_append_of_closeParenthesis hclose], ?_⟩
    refine .refl_of_clean fun c hc => ?_
    obtain ⟨hmem, hopen, hclose'⟩ := (subset_of_closeParenthesis hclose).1 c hc
    exact ⟨hopen, hclose', fun hcomment => hcs (hcomment ▸ List.mem_cons_of_mem _ hmem)⟩
  · cases h
    exact Or.inl rfl

/-- An identifier is taken off the front, up to the character that ends it. -/
theorem exists_identifier {c : Char} (hstart : startsIdentifier c = true)
    (hepsilon : ¬(c == 'ε') = true) (rest : List Char) :
    ∃ name, isIdentifier name = true ∧
      c :: rest = name.toList ++ rest.dropWhile continuesIdentifier := by
  refine ⟨String.ofList (c :: rest.takeWhile continuesIdentifier), ?_, ?_⟩
  · refine isIdentifier_iff.mpr ⟨c, rest.takeWhile continuesIdentifier, String.toList_ofList,
      hstart, by simpa using hepsilon, ?_⟩
    exact List.all_eq_true.mp List.all_takeWhile
  · rw [String.toList_ofList, List.cons_append, List.takeWhile_append_dropWhile]

/-- An identifier and what stands behind it, as far as its parameter list goes. -/
theorem SpacedBody.refl_identifier {behind : List Char} {params : Option (List Parameter)}
    (hname : isIdentifier name = true) (hend : ∀ c ∈ behind.head?, continuesIdentifier c = false)
    (hcs : '#' ∉ behind)
    (hparams : readParameterList (behind.dropWhile Text.isWhiteSpace) = .ok (params, after))
    (h : '#' ∉ after → SpacedBody after after) :
    SpacedBody (name.toList ++ behind) (name.toList ++ behind) := by
  -- The blanks behind the identifier are kept, whatever stands behind them.
  have hsplit := List.takeWhile_append_dropWhile (p := Text.isWhiteSpace) (l := behind)
  have hgap : AllBlank (behind.takeWhile Text.isWhiteSpace) :=
    fun c hc => List.all_eq_true.mp List.all_takeWhile c hc
  have hclean : '#' ∉ behind.dropWhile Text.isWhiteSpace :=
    fun hmem => hcs ((List.dropWhile_sublist _).subset hmem)
  rcases exists_of_readParameterList hclean hparams with hafter | ⟨inside, hlist, hinside⟩
  · have hbody := SpacedBody.keepAll hgap (h (hafter ▸ hclean))
    rw [hafter, hsplit] at hbody
    exact .identifier hname hend hbody
  · rw [← hsplit, hlist]
    refine .call hname hgap hgap hinside (h fun hmem => hclean ?_)
    rw [hlist]
    exact List.mem_cons_of_mem _ (List.mem_append_right _ (List.mem_cons_of_mem _ hmem))

theorem SpacedBody.refl_of_tokens (h : tokens cs = .ok ts) (hcs : '#' ∉ cs) :
    SpacedBody cs cs := by
  -- Along the tokenizer: whatever it takes in one step may also be kept as it is.
  induction cs using tokens.induct generalizing ts with
  | case1 => exact .nil
  | case2 c rest hblank ih =>
    rw [tokens_blank hblank] at h
    exact .kept hblank (ih h (List.not_mem_of_not_mem_cons hcs))
  | case3 c rest _ hbar ih =>
    obtain rfl := beq_iff_eq.mp hbar
    rw [tokens_bar, except_map_eq_ok] at h
    obtain ⟨rest', hrest, -⟩ := h
    exact .bar (ih hrest (List.not_mem_of_not_mem_cons hcs))
  | case4 c rest _ _ hepsilon ih =>
    obtain rfl := beq_iff_eq.mp hepsilon
    rw [tokens_epsilon, except_map_eq_ok] at h
    obtain ⟨rest', hrest, -⟩ := h
    exact .epsilon (ih hrest (List.not_mem_of_not_mem_cons hcs))
  | case5 c rest _ _ _ after hafter ih =>
    rw [Text.behind?_eq_some_iff.mp hafter] at h hcs ⊢
    rw [tokens_empty, except_map_eq_ok] at h
    obtain ⟨rest', hrest, -⟩ := h
    exact .empty (ih hrest fun hmem => hcs (List.mem_append_right _ hmem))
  | case6 c rest _ _ hepsilon _ hstart behind fault =>
    rename_i hfault
    obtain ⟨name, hname, hcons⟩ := exists_identifier hstart hepsilon rest
    rw [hcons, tokens_identifier hname head?_dropWhile, hfault] at h
    cases h
  | case7 c rest _ _ hepsilon _ hstart behind params after =>
    rename_i hparams ih
    obtain ⟨name, hname, hcons⟩ := exists_identifier hstart hepsilon rest
    have hend : ∀ d ∈ (rest.dropWhile continuesIdentifier).head?, continuesIdentifier d = false :=
      head?_dropWhile
    rw [hcons] at h hcs ⊢
    rw [tokens_identifier hname hend, hparams] at h
    obtain ⟨rest', hrest, -⟩ := except_map_eq_ok.mp h
    exact .refl_identifier hname hend (fun hmem => hcs (List.mem_append_right _ hmem)) hparams
      (ih hrest)
  -- No token starts here, so there were no tokens to begin with.
  | case8 c rest hblank hbar hepsilon hnone hstart =>
    rw [tokens, if_neg hblank, if_neg hbar, if_neg hepsilon] at h
    split at h
    · rename_i hsome
      rw [hnone] at hsome
      cases hsome
    · rw [if_neg hstart] at h
      cases h

/-! ## Lines -/

theorem comment_not_mem_of_blank (h : AllBlank gap) : '#' ∉ gap :=
  fun hmem => absurd (h '#' hmem) (by decide)

/-- The content of a line stands between white space and in front of a comment. -/
theorem lineContent_eq {front content back comment : List Char} (hfront : AllBlank front)
    (htrimmed : Text.Trimmed content) (hclean : '#' ∉ content) (hback : AllBlank back)
    (hcomment : IsComment comment) :
    lineContent (front ++ (content ++ back) ++ comment) = content := by
  have hcode : ∀ c ∈ front ++ (content ++ back), (c != '#') = true := by
    intro c hc
    rw [bne_iff_ne]
    rintro rfl
    rcases List.mem_append.mp hc with hc | hc
    · exact comment_not_mem_of_blank hfront hc
    · rcases List.mem_append.mp hc with hc | hc
      · exact hclean hc
      · exact comment_not_mem_of_blank hback hc
  have hnone : comment.takeWhile (· != '#') = [] := by
    cases comment with
    | nil => rfl
    | cons c comment =>
      obtain rfl : c = '#' := hcomment c rfl
      rfl
  rw [lineContent, List.takeWhile_append_of_pos hcode, hnone, List.append_nil,
    Text.trim_append_left hfront, Text.trim_append_right hback htrimmed]

theorem lineContent_blank {comment : List Char} (hgap : AllBlank gap)
    (hcomment : IsComment comment) : lineContent (gap ++ comment) = [] := by
  have hnone : AllBlank [] := fun _ hc => nomatch hc
  have htrimmed : Text.Trimmed [] := Text.trimmed_of_all (by decide)
  have heq := lineContent_eq hgap htrimmed (List.not_mem_nil) hnone hcomment
  rwa [List.append_nil, List.append_nil] at heq

/-- A start line declares its name and nothing else. -/
theorem contentDeclares_start_iff {middle : List Char} {d : Declaration}
    (hname : isVariableName name = true) (hmiddle : AllBlank middle) (hne : middle ≠ []) :
    ContentDeclares ("start".toList ++ (middle ++ name.toList)) d ↔ d = .start name := by
  have hstart : startName? ("start".toList ++ (middle ++ name.toList)) = some name.toList := by
    obtain ⟨c, middle', rfl⟩ := List.exists_cons_of_ne_nil hne
    have hc : Text.isWhiteSpace c = true := hmiddle c (List.mem_cons_self ..)
    have hpiece := linePiece_identifier (isIdentifier_of_isVariableName hname)
    have htrim : Text.trim (c :: middle' ++ name.toList) = name.toList := by
      rw [Text.trim_append_left hmiddle, hpiece.trimmed.trim_eq]
    rw [startName?, Text.behind?_append]
    simp only [List.cons_append, List.head?_cons, Option.all_some, hc, if_true]
    rw [← List.cons_append, htrim]
  constructor
  · intro h
    cases h with
    | start h =>
      rw [hstart] at h
      cases h
      rw [String.ofList_toList]
    | rule h =>
      rw [hstart] at h
      cases h
  · rintro rfl
    have h := ContentDeclares.start hstart
    rwa [String.ofList_toList] at h

/-- The line of a rule declares its name and the tokens of its body. -/
theorem contentDeclares_rule_iff {back body : List Char} {d : Declaration}
    (hname : isVariableName name = true) (hback : AllBlank back) :
    ContentDeclares (name.toList ++ (back ++ ("::=".toList ++ body))) d ↔
      ∃ ts, tokens body = .ok ts ∧ d = .rule name ts := by
  have hcut := cutAt?_variable hname hback body
  have hstart := startName?_variable hname (back ++ ("::=".toList ++ body))
  have htrim := trim_variable hname hback
  constructor
  · intro h
    cases h with
    | start h =>
      rw [hstart] at h
      cases h
    | rule h hcut' hts =>
      rw [hcut] at hcut'
      cases hcut'
      exact ⟨_, hts, by rw [htrim, String.ofList_toList]⟩
  · rintro ⟨ts, hts, rfl⟩
    have h := ContentDeclares.rule hstart hcut hts
    rwa [htrim, String.ofList_toList] at h

theorem trimmed_start {middle : List Char} (hname : isVariableName name = true) :
    Text.Trimmed ("start".toList ++ (middle ++ name.toList)) := by
  have hpiece := linePiece_identifier (isIdentifier_of_isVariableName hname)
  have hstart : Text.Trimmed "start".toList := Text.trimmed_of_all (by decide)
  exact hstart.append hpiece.trimmed (by decide) hpiece.ne_nil middle

theorem trimmed_rule {back body : List Char} (hname : isVariableName name = true)
    (hlast : ∀ c ∈ body.getLast?, Text.isWhiteSpace c = false) :
    Text.Trimmed (name.toList ++ (back ++ ("::=".toList ++ body))) := by
  have hpiece := linePiece_identifier (isIdentifier_of_isVariableName hname)
  have hmark : Text.Trimmed ("::=".toList ++ body) := by
    refine ⟨fun c hc => ?_, fun c hc => ?_⟩
    · cases hc
      decide
    · cases body with
      | nil =>
        cases hc
        decide
      | cons d body =>
        rw [List.getLast?_append_of_ne_nil _ (List.cons_ne_nil d body)] at hc
        exact hlast c hc
  exact hpiece.trimmed.append hmark hpiece.ne_nil (by simp) back

theorem comment_not_mem_name (hname : isVariableName name = true) : '#' ∉ name.toList :=
  fun hmem =>
    ((linePiece_identifier (isIdentifier_of_isVariableName hname)).clean '#' hmem).1 rfl

/-- A line declares in another layout what it declares. -/
theorem RelaidLine.declares {line line' : List Char} (h : RelaidLine line line') :
    lineContent line = [] ∧ lineContent line' = [] ∨ lineContent line ≠ [] ∧
      ∀ d, ContentDeclares (lineContent line) d → ContentDeclares (lineContent line') d := by
  cases h with
  | blank hgap hgap' hcomment hcomment' =>
    exact Or.inl ⟨lineContent_blank hgap hcomment, lineContent_blank hgap' hcomment'⟩
  | @start name _ _ _ _ _ _ _ _ hname hfront hfront' hmiddle hmiddle' hback hback' hcomment
      hcomment' =>
    -- A comment starts behind what is declared, so the content is cut off there and then trimmed.
    have hclean : ∀ {middle : List Char}, AllBlank middle →
        '#' ∉ "start".toList ++ (middle ++ name.toList) := by
      intro middle hmiddle
      simp [comment_not_mem_of_blank hmiddle, comment_not_mem_name hname]
    rw [lineContent_eq hfront (trimmed_start hname) (hclean hmiddle.1) hback hcomment,
      lineContent_eq hfront' (trimmed_start hname) (hclean hmiddle'.1) hback' hcomment']
    refine Or.inr ⟨by simp, fun d => ?_⟩
    rw [contentDeclares_start_iff hname hmiddle.1 hmiddle.2,
      contentDeclares_start_iff hname hmiddle'.1 hmiddle'.2]
    exact id
  | @rule name _ _ _ _ _ _ _ _ _ _ hname hfront hfront' hback hback' hbody hlast hlast' htail
      htail' hcomment hcomment' =>
    have hclean : ∀ {back body : List Char}, AllBlank back → '#' ∉ body →
        '#' ∉ name.toList ++ (back ++ ("::=".toList ++ body)) := by
      intro back body hback hbody
      simp [comment_not_mem_of_blank hback, comment_not_mem_name hname, hbody]
    obtain ⟨hnone, hnone'⟩ := hbody.comment_not_mem
    rw [lineContent_eq hfront (trimmed_rule hname hlast) (hclean hback hnone) htail hcomment,
      lineContent_eq hfront' (trimmed_rule hname hlast') (hclean hback' hnone') htail' hcomment']
    refine Or.inr ⟨by simp, fun d => ?_⟩
    rw [contentDeclares_rule_iff hname hback, contentDeclares_rule_iff hname hback']
    rintro ⟨ts, hts, hd⟩
    exact ⟨ts, hbody.tokens_eq hts, hd⟩

/-- Lines declare in another layout what they declare. -/
theorem RelaidLines.declares {texts texts' : List (List Char)} {ds : List Declaration}
    (h : RelaidLines texts texts') (hds : ContentsDeclare (texts.map lineContent) ds) :
    ContentsDeclare (texts'.map lineContent) ds := by
  induction h generalizing ds with
  | nil => exact hds
  | inserted hgap hcomment h ih =>
    rw [List.map_cons, lineContent_blank hgap hcomment]
    exact .blank (ih hds)
  | @line text text' _ _ hline h ih =>
    rw [List.map_cons] at hds ⊢
    generalize hcontent : lineContent text = content at hds
    -- A line stays blank, or it goes on to declare what it did.
    have hcases := hline.declares
    rw [hcontent] at hcases
    cases hds with
    | blank hds =>
      obtain ⟨-, hempty⟩ := hcases.resolve_right fun hand => hand.1 rfl
      rw [hempty]
      exact .blank (ih hds)
    | cons hd hds =>
      obtain ⟨-, hdeclares⟩ := hcases.resolve_left fun hand => hd.ne_nil hand.1
      exact .cons (hdeclares _ hd) (ih hds)

/-- The same grammar is read from a text in another layout. -/
theorem Relaid.read_eq {text text' : String} {g : Grammar} (h : Relaid text text')
    (hread : Grammar.read text = .ok g) : Grammar.read text' = .ok g :=
  Grammar.read_of_declares_alike hread fun _ => RelaidLines.declares h

/-! ## Every text is one in its own layout -/

/-- Only white space is trimmed off. -/
theorem exists_trim (cs : List Char) :
    ∃ front back, AllBlank front ∧ AllBlank back ∧ cs = front ++ (Text.trim cs ++ back) := by
  obtain ⟨back, hback, heq⟩ := Text.exists_trimEnd_append (Text.trimStart cs)
  refine ⟨cs.takeWhile Text.isWhiteSpace, back, ?_, hback, ?_⟩
  · exact fun c hc => List.all_eq_true.mp List.all_takeWhile c hc
  · rw [Text.trim, ← heq, Text.trimStart, List.takeWhile_append_dropWhile]

theorem trimmed_trim (cs : List Char) : Text.Trimmed (Text.trim cs) := by
  obtain ⟨back, -, heq⟩ := Text.exists_trimEnd_append (Text.trimStart cs)
  constructor
  · intro c hc
    have hne : Text.trim cs ≠ [] := by
      intro hnil
      rw [hnil] at hc
      cases hc
    have hfirst : (Text.trim cs ++ back).head? = (Text.trim cs).head? :=
      List.head?_append_of_ne_nil _ hne
    rw [Text.trim, ← heq] at hfirst
    exact head?_dropWhile c (hfirst ▸ hc)
  · intro c hc
    rw [Text.trim, Text.trimEnd, List.getLast?_reverse] at hc
    exact head?_dropWhile c hc

/-- A line is its content, white space around it, and a comment. -/
theorem exists_lineContent (line : List Char) :
    ∃ front back comment, AllBlank front ∧ AllBlank back ∧ IsComment comment ∧
      line = front ++ (lineContent line ++ back) ++ comment := by
  obtain ⟨front, back, hfront, hback, heq⟩ := exists_trim (line.takeWhile (· != '#'))
  refine ⟨front, back, line.dropWhile (· != '#'), hfront, hback, fun c hc => ?_, ?_⟩
  · simpa using head?_dropWhile c hc
  · rw [lineContent, ← heq, List.takeWhile_append_dropWhile]

/-- A carriage return behind a line is no part of its content. -/
theorem lineContent_dropReturn (line : List Char) :
    lineContent (Text.dropReturn line) = lineContent line := by
  unfold Text.dropReturn
  split
  · rename_i hreturn
    obtain ⟨kept, rfl⟩ := List.getLast?_eq_some_iff.mp (beq_iff_eq.mp hreturn)
    rw [List.dropLast_concat]
    obtain ⟨front, back, comment, hfront, hback, hcomment, heq⟩ := exists_lineContent kept
    have htrimmed : Text.Trimmed (lineContent kept) := trimmed_trim _
    have hclean := comment_not_mem_lineContent kept
    generalize lineContent kept = content at heq htrimmed hclean ⊢
    rw [heq]
    -- The return belongs to the comment, if there is one.
    cases comment with
    | nil =>
      have hwider : AllBlank (back ++ ['\r']) :=
        List.forall_mem_append.mpr ⟨hback, List.forall_mem_singleton.mpr (by decide)⟩
      have hcontent := lineContent_eq hfront htrimmed hclean hwider hcomment
      simpa only [List.append_assoc, List.append_nil] using hcontent.symm
    | cons c comment =>
      have hlonger : IsComment (c :: comment ++ ['\r']) := hcomment
      rw [List.append_assoc, lineContent_eq hfront htrimmed hclean hback hlonger]
  · rfl

section OwnLayout

variable {front content back comment : List Char}

/-- A start line is in its own layout. -/
theorem RelaidLine.refl_of_start {name : List Char} (hfront : AllBlank front)
    (hback : AllBlank back) (hcomment : IsComment comment)
    (hstart : startName? content = some name)
    (hname : isVariableName (String.ofList name) = true) :
    RelaidLine (front ++ (content ++ back) ++ comment)
      (front ++ (content ++ back) ++ comment) := by
  have hchars : (String.ofList name).toList = name := String.toList_ofList
  have hpiece := linePiece_identifier (isIdentifier_of_isVariableName hname)
  rw [hchars] at hpiece
  unfold startName? at hstart
  split at hstart
  · cases hstart
  · rename_i rest hrest
    split at hstart
    · rename_i hblank
      obtain ⟨middle, back', hmiddle, hback', hrest'⟩ := exists_trim rest
      rw [Option.some.inj hstart] at hrest'
      -- The blank behind `start` is none of the name.
      have hne : middle ≠ [] := by
        rintro rfl
        obtain ⟨c, name', hcons⟩ := List.exists_cons_of_ne_nil hpiece.ne_nil
        have hc := hpiece.trimmed.first c (by rw [hcons]; rfl)
        rw [hrest', hcons] at hblank
        simp [hc] at hblank
      have hboth : AllBlank (back' ++ back) := List.forall_mem_append.mpr ⟨hback', hback⟩
      have hline := RelaidLine.start hname hfront hfront ⟨hmiddle, hne⟩ ⟨hmiddle, hne⟩
        hboth hboth hcomment hcomment
      rw [hchars] at hline
      rw [Text.behind?_eq_some_iff.mp hrest, hrest']
      simpa only [List.append_assoc] using hline
    · cases hstart

/-- The line of a rule is in its own layout. -/
theorem RelaidLine.refl_of_rule {name body : List Char} {ts : List Token}
    (hfront : AllBlank front) (hback : AllBlank back) (hcomment : IsComment comment)
    (htrimmed : Text.Trimmed content) (hclean : '#' ∉ content)
    (hcut : Text.cutAt? "::=".toList content = some (name, body)) (hts : tokens body = .ok ts)
    (hname : isVariableName (String.ofList (Text.trim name)) = true) :
    RelaidLine (front ++ (content ++ back) ++ comment)
      (front ++ (content ++ back) ++ comment) := by
  have hchars : (String.ofList (Text.trim name)).toList = Text.trim name :=
    String.toList_ofList
  obtain ⟨front', back', hfront', hback', hname'⟩ := exists_trim name
  have hcontent := Text.eq_append_of_cutAt? hcut
  have hbody : '#' ∉ body := fun hmem => hclean (hcontent ▸ List.mem_append_right _ hmem)
  -- The body is what the content ends with, so it does not end in white space either.
  have hlast : ∀ c ∈ body.getLast?, Text.isWhiteSpace c = false := by
    intro c hc
    refine htrimmed.last c ?_
    rw [hcontent, List.getLast?_append_of_ne_nil _ (by rintro rfl; cases hc)]
    exact hc
  have hboth : AllBlank (front ++ front') := List.forall_mem_append.mpr ⟨hfront, hfront'⟩
  have hline := RelaidLine.rule hname hboth hboth hback' hback'
    (SpacedBody.refl_of_tokens hts hbody) hlast hlast hback hback hcomment hcomment
  rw [hchars] at hline
  rw [hcontent, hname']
  simpa only [List.append_assoc] using hline

end OwnLayout

theorem RelaidLine.refl_of_declares {line : List Char} {d : Declaration}
    (h : ContentDeclares (lineContent line) d) (hname : isVariableName d.name = true) :
    RelaidLine line line := by
  obtain ⟨front, back, comment, hfront, hback, hcomment, heq⟩ := exists_lineContent line
  have htrimmed : Text.Trimmed (lineContent line) := trimmed_trim _
  have hclean := comment_not_mem_lineContent line
  generalize lineContent line = content at h htrimmed hclean heq
  subst heq
  cases h with
  | start hstart => exact .refl_of_start hfront hback hcomment hstart hname
  | rule hstart hcut hts =>
    exact .refl_of_rule hfront hback hcomment htrimmed hclean hcut hts hname

/-- A line that is read is in its own layout. -/
theorem RelaidLine.refl_of_readLine {draft draft' : Draft} {line : Nat} {text : List Char}
    {s s' : Scope} (hs : s.Sound) (h : readLine draft line text s = .ok draft' s') :
    RelaidLine text text := by
  obtain ⟨hgrows, hdeclares⟩ := readLine_ok hs h
  cases hdeclares with
  | nothing hempty =>
    obtain ⟨front, back, comment, hfront, hback, hcomment, heq⟩ := exists_lineContent text
    rw [hempty, List.nil_append] at heq
    have hboth : AllBlank (front ++ back) := List.forall_mem_append.mpr ⟨hfront, hback⟩
    rw [heq]
    exact .blank hboth hboth hcomment hcomment
  | @start name v hstart _ hname hv =>
    refine .refl_of_declares (.start hstart) ?_
    show isVariableName (String.ofList name) = true
    rw [← hname]
    exact hgrows.sound.legal v hv
  | @rule name body lhs ts r hstart hcut hname hlhs hts _ =>
    refine .refl_of_declares (.rule hstart hcut hts) ?_
    show isVariableName (String.ofList (Text.trim name)) = true
    rw [← hname]
    exact hgrows.sound.legal lhs hlhs

/-- A text that is read is in its own layout. -/
theorem Relaid.refl_of_read {text : String} {g : Grammar} (h : Grammar.read text = .ok g) :
    Relaid text text := by
  have hlines : ∀ {draft draft' : Draft} {line : Nat} {texts : List (List Char)} {s s' : Scope},
      s.Sound → readLines draft line texts s = .ok draft' s' → RelaidLines texts texts := by
    intro draft draft' line texts s s' hs hrun
    induction texts generalizing draft line s with
    | nil => exact .nil
    | cons text texts ih =>
      obtain ⟨draft₁, s₁, hline, hrest⟩ := bind_eq_ok.mp hrun
      obtain ⟨hgrows, -⟩ := readLine_ok hs hline
      exact .line (.refl_of_readLine hs hline) (ih hgrows.sound hrest)
  unfold Grammar.read Grammar.readWith at h
  split at h
  · rename_i draft scope hrun
    exact hlines (Scope.sound_fresh .fresh) hrun
  · cases h

end FluentGrammar
