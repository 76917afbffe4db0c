import FluentGrammar.Grammar.Layout
import FluentGrammar.Proofs.Text.Spelling
import Mathlib.Data.List.TakeWhile

/-! # White space between tokens

    White space that is added between tokens changes none of them. A parameter list is read in
    terms of the words between its commas, and these do not depend on how far the words stand
    apart.
-/

namespace FluentGrammar

variable {c : Char} {cs cs' : List Char}

namespace Text

/-! ## Pieces and words -/

variable {α : Type} {isSeparator : α → Bool}

/-- What no separator stands in joins the first piece. -/
theorem splitBy_append_of_none (isSeparator : α → Bool) {xs ys piece : List α}
    {pieces : List (List α)} (h : ∀ x ∈ xs, isSeparator x = false)
    (hsplit : splitBy isSeparator ys = piece :: pieces) :
    splitBy isSeparator (xs ++ ys) = (xs ++ piece) :: pieces := by
  induction xs with
  | nil => exact hsplit
  | cons x xs ih =>
    rw [List.cons_append, splitBy, if_neg (by simp [h x (List.mem_cons_self ..)]),
      ih fun y hy => h y (List.mem_cons_of_mem _ hy)]
    rfl

/-- What stands behind the text joins the last piece, unless it is a separator. -/
theorem splitBy_append_singleton (isSeparator : α → Bool) {x : α} (hx : isSeparator x = false)
    (xs : List α) : ∃ pieces last, splitBy isSeparator xs = pieces ++ [last] ∧
      splitBy isSeparator (xs ++ [x]) = pieces ++ [last ++ [x]] := by
  induction xs with
  | nil => exact ⟨[], [], rfl, by simp [splitBy, hx]⟩
  | cons y xs ih =>
    obtain ⟨pieces, last, hsplit, hsplit'⟩ := ih
    rw [List.cons_append, splitBy, splitBy, hsplit, hsplit']
    by_cases hy : isSeparator y = true
    · exact ⟨[] :: pieces, last, by rw [if_pos hy, List.cons_append],
        by rw [if_pos hy, List.cons_append]⟩
    · rw [if_neg hy, if_neg hy]
      cases pieces with
      | nil => exact ⟨[], y :: last, rfl, rfl⟩
      | cons piece pieces => exact ⟨(y :: piece) :: pieces, last, rfl, rfl⟩

/-- A separator behind the text ends the last piece. -/
theorem splitBy_append_separator {x : α} (hx : isSeparator x = true) (xs : List α) :
    splitBy isSeparator (xs ++ [x]) = splitBy isSeparator xs ++ [[]] := by
  induction xs with
  | nil => simp [splitBy, hx]
  | cons y xs ih =>
    obtain ⟨piece, pieces, hsplit⟩ := List.exists_cons_of_ne_nil (splitBy_ne_nil isSeparator xs)
    rw [List.cons_append, splitBy, splitBy, ih, hsplit]
    by_cases hy : isSeparator y = true
    · rw [if_pos hy, if_pos hy]
      rfl
    · rw [if_neg hy, if_neg hy]
      rfl

/-- The first piece begins as the text does, unless it is empty. -/
theorem head?_splitBy {xs piece : List α} {pieces : List (List α)}
    (h : splitBy isSeparator xs = piece :: pieces) :
    ∀ x ∈ piece.head?, x ∈ xs.head? ∧ isSeparator x = false := by
  intro x hx
  cases xs with
  | nil =>
    cases h
    cases hx
  | cons y xs =>
    obtain ⟨first, rest, hrest⟩ := List.exists_cons_of_ne_nil (splitBy_ne_nil isSeparator xs)
    rw [splitBy, hrest] at h
    by_cases hy : isSeparator y = true
    · rw [if_pos hy] at h
      cases h
      cases hx
    · rw [if_neg hy] at h
      cases h
      cases hx
      exact ⟨rfl, by simpa using hy⟩

/-- A blank behind the text makes no word. -/
theorem words_append_blank (hc : isWhiteSpace c = true) (cs : List Char) :
    words (cs ++ [c]) = words cs := by
  rw [words, splitBy_append_separator hc, List.filter_append]
  exact List.append_nil _

/-- A word in front of a blank, or of nothing. -/
theorem words_append_of_blank {word : List Char} (hword : ∀ d ∈ word, isWhiteSpace d = false)
    (hne : word ≠ []) (hend : ∀ d ∈ cs.head?, isWhiteSpace d = true) :
    words (word ++ cs) = word :: words cs := by
  have hnonempty : word.isEmpty = false := by simpa using hne
  cases cs with
  | nil => simp [words, splitBy_of_none hword, hnonempty, splitBy]
  | cons d cs =>
    have hd : isWhiteSpace d = true := hend d rfl
    rw [words_cons_blank hd, words, splitBy_append_cons hword hd,
      List.filter_cons_of_pos (by simp [hnonempty])]
    rfl

theorem trim_eq_nil_iff : trim cs = [] ↔ AllBlank cs := by
  unfold trim trimEnd trimStart
  rw [List.reverse_eq_nil_iff, List.dropWhile_eq_nil_iff]
  simp only [List.mem_reverse]
  constructor
  · intro h c hc
    rw [← List.takeWhile_append_dropWhile (p := isWhiteSpace) (l := cs), List.mem_append] at hc
    rcases hc with hc | hc
    · exact List.all_eq_true.mp List.all_takeWhile c hc
    · exact h c hc
  · intro h c hc
    exact h c ((List.dropWhile_sublist _).subset hc)

/-- Only white space is trimmed off the end. -/
theorem exists_trimEnd_append (cs : List Char) :
    ∃ blanks, AllBlank blanks ∧ cs = trimEnd cs ++ blanks := by
  refine ⟨(cs.reverse.takeWhile isWhiteSpace).reverse, ?_, ?_⟩
  · intro c hc
    exact List.all_eq_true.mp List.all_takeWhile c (List.mem_reverse.mp hc)
  · unfold trimEnd
    rw [← List.reverse_append, List.takeWhile_append_dropWhile, List.reverse_reverse]

end Text

/-- What is left of a list ends the run in front of it. -/
theorem head?_dropWhile {α : Type} {p : α → Bool} {xs : List α} :
    ∀ x ∈ (xs.dropWhile p).head?, p x = false := by
  intro x hx
  have hnot := List.head?_dropWhile_not p xs
  rw [Option.mem_def.mp hx] at hnot
  exact hnot

/-! ## Words between commas -/

/-- The words between the commas of a parameter list. -/
def wordGroups (inside : List Char) : List (List (List Char)) :=
  (Text.splitBy (· == ',') inside).map Text.words

/-- One more word in front. -/
def consWord (word : List Char) : List (List (List Char)) → List (List (List Char))
  | [] => [[word]]
  | group :: groups => (word :: group) :: groups

theorem not_comma_of_blank (h : Text.isWhiteSpace c = true) : (c == ',') = false := by
  rw [beq_eq_false_iff_ne]
  rintro rfl
  exact absurd h (by decide)

theorem wordGroups_comma (cs : List Char) : wordGroups (',' :: cs) = [] :: wordGroups cs := by
  rfl

theorem wordGroups_blank (hc : Text.isWhiteSpace c = true) (cs : List Char) :
    wordGroups (c :: cs) = wordGroups cs := by
  obtain ⟨piece, pieces, hsplit⟩ :=
    List.exists_cons_of_ne_nil (Text.splitBy_ne_nil (· == ',') cs)
  have hcons := Text.splitBy_append_of_none (· == ',')
    (List.forall_mem_singleton.mpr (not_comma_of_blank hc)) hsplit
  unfold wordGroups
  rw [← List.singleton_append, hcons, hsplit, List.map_cons, List.map_cons, List.singleton_append,
    Text.words_cons_blank hc]

theorem wordGroups_append_blank (hc : Text.isWhiteSpace c = true) (cs : List Char) :
    wordGroups (cs ++ [c]) = wordGroups cs := by
  obtain ⟨pieces, last, hsplit, hsplit'⟩ :=
    Text.splitBy_append_singleton (· == ',') (not_comma_of_blank hc) cs
  unfold wordGroups
  rw [hsplit', hsplit, List.map_append, List.map_append, List.map_singleton, List.map_singleton,
    Text.words_append_blank hc]

theorem wordGroups_word {word : String} (hword : isParameterWord word = true)
    (hend : ∀ c ∈ cs.head?, Text.isWhiteSpace c = true ∨ c = ',') :
    wordGroups (word.toList ++ cs) = consWord word.toList (wordGroups cs) := by
  obtain ⟨hne, hall⟩ := isParameterWord_iff.mp hword
  obtain ⟨piece, pieces, hsplit⟩ :=
    List.exists_cons_of_ne_nil (Text.splitBy_ne_nil (· == ',') cs)
  have hcomma : ∀ c ∈ word.toList, (c == ',') = false := fun c hc =>
    beq_eq_false_iff_ne.mpr (endsWord_eq_false.mp (hall c hc)).2.2.2.1
  have hblank : ∀ c ∈ word.toList, Text.isWhiteSpace c = false := fun c hc =>
    (endsWord_eq_false.mp (hall c hc)).1
  -- The piece behind the word is empty at a comma, and begins with a blank elsewhere.
  have hpiece : ∀ c ∈ piece.head?, Text.isWhiteSpace c = true := by
    intro c hc
    obtain ⟨hfirst, hne⟩ := Text.head?_splitBy hsplit c hc
    rcases hend c hfirst with hblank | rfl
    · exact hblank
    · cases hne
  unfold wordGroups
  rw [Text.splitBy_append_of_none (· == ',') hcomma hsplit, hsplit, List.map_cons, List.map_cons,
    Text.words_append_of_blank hblank hne hpiece]
  rfl

theorem wordGroups_trim (cs : List Char) : wordGroups (Text.trim cs) = wordGroups cs := by
  have hstart : wordGroups (Text.trimStart cs) = wordGroups cs := by
    unfold Text.trimStart
    induction cs with
    | nil => rfl
    | cons c cs ih =>
      by_cases hc : Text.isWhiteSpace c = true
      · rw [List.dropWhile_cons_of_pos hc, ih, wordGroups_blank hc]
      · rw [List.dropWhile_cons_of_neg hc]
  obtain ⟨blanks, hblanks, heq⟩ := Text.exists_trimEnd_append (Text.trimStart cs)
  have hend : ∀ front, wordGroups (front ++ blanks) = wordGroups front := by
    intro front
    clear heq
    induction blanks generalizing front with
    | nil => rw [List.append_nil]
    | cons c blanks ih =>
      obtain ⟨hc, hblanks⟩ := List.forall_mem_cons.mp hblanks
      rw [← List.singleton_append, ← List.append_assoc, ih hblanks, wordGroups_append_blank hc]
  rw [← hstart, heq, hend, Text.trim]

/-! ## Parameter lists -/

theorem readParameter_eq_ok_iff {p : Parameter} :
    readParameter cs = .ok p ↔ Text.words cs = [p.type.toList, p.name.toList] := by
  unfold readParameter
  constructor
  · intro h
    split at h
    · rename_i type name hwords
      cases h
      rw [hwords, String.toList_ofList, String.toList_ofList]
    · cases h
  · intro h
    rw [h]
    simp only [String.ofList_toList]

/-- Parameters are read off the words between the commas. -/
theorem readParameters_eq_ok_iff {params : List Parameter} :
    readParameters cs = .ok params ↔ AllBlank cs ∧ params = [] ∨
      ¬AllBlank cs ∧ wordGroups cs = params.map (fun p => [p.type.toList, p.name.toList]) := by
  have hgroups : (Text.splitBy (· == ',') (Text.trim cs)).mapM readParameter = .ok params ↔
      wordGroups cs = params.map (fun p => [p.type.toList, p.name.toList]) := by
    rw [except_mapM_eq_ok, ← wordGroups_trim, wordGroups, ← List.forall₂_eq_eq_eq,
      List.forall₂_map_left_iff, List.forall₂_map_right_iff]
    simp only [readParameter_eq_ok_iff]
  unfold readParameters
  by_cases hblank : AllBlank cs
  · rw [Text.trim_eq_nil_iff.mpr hblank]
    simp [hblank, eq_comm]
  · have hnonempty : (Text.trim cs).isEmpty = false := by
      rw [← Bool.not_eq_true, List.isEmpty_iff, Text.trim_eq_nil_iff]
      exact hblank
    simp only [hnonempty, Bool.false_eq_true, if_false, hgroups, hblank, false_and, false_or,
      not_false_eq_true, true_and]

/-- A word is taken off the front, up to the character that ends it. -/
theorem exists_parameterWord (hc : endsWord c = false) (rest : List Char) :
    ∃ word behind, isParameterWord word = true ∧ c :: rest = word.toList ++ behind ∧
      behind ⊆ rest ∧ behind.length ≤ rest.length ∧ ∀ d ∈ behind.head?, endsWord d = true := by
  refine ⟨String.ofList (c :: rest.takeWhile (fun d => !endsWord d)),
    rest.dropWhile (fun d => !endsWord d), ?_, ?_, (List.dropWhile_sublist _).subset,
    length_dropWhile_le _ rest, fun d hd => by simpa using head?_dropWhile d hd⟩
  · rw [isParameterWord_iff, String.toList_ofList]
    refine ⟨List.cons_ne_nil _ _, List.forall_mem_cons.mpr ⟨hc, fun d hd => ?_⟩⟩
    simpa using List.all_eq_true.mp List.all_takeWhile d hd
  · rw [String.toList_ofList, List.cons_append, List.takeWhile_append_dropWhile]

namespace SpacedParameters

/-- Behind a word there is still a blank or a comma. -/
theorem behindWord (h : SpacedParameters cs cs')
    (hend : ∀ c ∈ cs.head?, Text.isWhiteSpace c = true ∨ c = ',') :
    ∀ c ∈ cs'.head?, Text.isWhiteSpace c = true ∨ c = ',' := by
  cases h with
  | nil => exact hend
  | added hc h =>
    rintro _ ⟨⟩
    exact Or.inl hc
  | kept hc h => exact hend
  | comma h => exact hend
  | @word word cs cs' hword hbehind h =>
    obtain ⟨hne, -⟩ := isParameterWord_iff.mp hword
    rw [List.head?_append_of_ne_nil _ hne] at hend ⊢
    exact hend

/-- The words stay where they are between the commas. -/
theorem wordGroups_eq (h : SpacedParameters cs cs') : wordGroups cs' = wordGroups cs := by
  induction h with
  | nil => rfl
  | added hc h ih => rw [wordGroups_blank hc, ih]
  | kept hc h ih => rw [wordGroups_blank hc, wordGroups_blank hc, ih]
  | comma h ih => rw [wordGroups_comma, wordGroups_comma, ih]
  | word hword hend h ih =>
    rw [wordGroups_word hword hend, wordGroups_word hword (h.behindWord hend), ih]

/-- A list of blanks alone stays one, and no other becomes one. -/
theorem allBlank_iff (h : SpacedParameters cs cs') : AllBlank cs' ↔ AllBlank cs := by
  unfold AllBlank
  induction h with
  | nil => exact Iff.rfl
  | added hc h ih => simpa [hc] using ih
  | kept hc h ih => simpa [hc] using ih
  | comma h ih =>
    have hcomma : Text.isWhiteSpace ',' = false := by decide
    simp [hcomma]
  | @word word cs cs' hword hend h ih =>
    obtain ⟨hne, hall⟩ := isParameterWord_iff.mp hword
    obtain ⟨c, rest, hcons⟩ := List.exists_cons_of_ne_nil hne
    rw [hcons] at hall ⊢
    simp [(endsWord_eq_false.mp (hall c (List.mem_cons_self ..))).1]

/-- Every character is a blank, a comma, or part of a word. -/
theorem spelled (h : SpacedParameters cs cs') :
    (∀ c ∈ cs, Text.isWhiteSpace c = true ∨ c = ',' ∨ endsWord c = false) ∧
      ∀ c ∈ cs', Text.isWhiteSpace c = true ∨ c = ',' ∨ endsWord c = false := by
  induction h with
  | nil => simp
  | added hc h ih => exact ⟨ih.1, List.forall_mem_cons.mpr ⟨Or.inl hc, ih.2⟩⟩
  | kept hc h ih =>
    exact ⟨List.forall_mem_cons.mpr ⟨Or.inl hc, ih.1⟩, List.forall_mem_cons.mpr ⟨Or.inl hc, ih.2⟩⟩
  | comma h ih =>
    exact ⟨List.forall_mem_cons.mpr ⟨Or.inr (Or.inl rfl), ih.1⟩,
      List.forall_mem_cons.mpr ⟨Or.inr (Or.inl rfl), ih.2⟩⟩
  | word hword hend h ih =>
    have hall := (isParameterWord_iff.mp hword).2
    exact ⟨List.forall_mem_append.mpr ⟨fun c hc => Or.inr (Or.inr (hall c hc)), ih.1⟩,
      List.forall_mem_append.mpr ⟨fun c hc => Or.inr (Or.inr (hall c hc)), ih.2⟩⟩

/-- A character that is neither a blank nor a comma and ends a word does not occur. -/
theorem not_mem (h : SpacedParameters cs cs') (hblank : Text.isWhiteSpace c = false)
    (hcomma : c ≠ ',') (hends : endsWord c = true) : c ∉ cs ∧ c ∉ cs' := by
  have hnone : ¬(Text.isWhiteSpace c = true ∨ c = ',' ∨ endsWord c = false) := by
    simp [hblank, hcomma, hends]
  exact ⟨fun hc => hnone (h.spelled.1 c hc), fun hc => hnone (h.spelled.2 c hc)⟩

/-- The same parameters are read. -/
theorem readParameters_iff (h : SpacedParameters cs cs') {params : List Parameter} :
    readParameters cs' = .ok params ↔ readParameters cs = .ok params := by
  rw [readParameters_eq_ok_iff, readParameters_eq_ok_iff, h.wordGroups_eq, h.allBlank_iff]

/-- Without parentheses and comments, the text consists of words, commas and blanks. -/
theorem refl_of_clean (h : ∀ c ∈ cs, c ≠ '(' ∧ c ≠ ')' ∧ c ≠ '#') : SpacedParameters cs cs := by
  -- Induction on the length, since a word may take many characters.
  induction hlen : cs.length using Nat.strongRecOn generalizing cs with
  | ind n ih =>
    subst hlen
    cases cs with
    | nil => exact .nil
    | cons c rest =>
      obtain ⟨⟨hopen, hclose, hcomment⟩, hrest⟩ := List.forall_mem_cons.mp h
      by_cases hblank : Text.isWhiteSpace c = true
      · exact .kept hblank (ih _ (Nat.lt_succ_self _) hrest rfl)
      rw [Bool.not_eq_true] at hblank
      by_cases hcomma : c = ','
      · subst hcomma
        exact .comma (ih _ (Nat.lt_succ_self _) hrest rfl)
      have hc : endsWord c = false :=
        endsWord_eq_false.mpr ⟨hblank, hopen, hclose, hcomma, hcomment⟩
      obtain ⟨word, behind, hword, hsplit, hsub, hle, hends⟩ := exists_parameterWord hc rest
      have hbehind : ∀ d ∈ behind, d ≠ '(' ∧ d ≠ ')' ∧ d ≠ '#' := fun d hd => hrest d (hsub hd)
      have hends' : ∀ d ∈ behind.head?, Text.isWhiteSpace d = true ∨ d = ',' := by
        intro d hd
        have hclean := hbehind d (List.mem_of_mem_head? hd)
        simpa [endsWord, hclean] using hends d hd
      rw [hsplit]
      exact .word hword hends' (ih behind.length (Nat.lt_succ_of_le hle) hbehind rfl)

end SpacedParameters

end FluentGrammar
