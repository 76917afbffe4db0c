import FluentGrammar.Proofs.Sorted
import FluentGrammar.Proofs.Text.Capitals
import FluentGrammar.Proofs.Text.Reread
import FluentGrammar.Report.GraphReader

/-! # Graphs are read as they were drawn

    A graph is written line by line, and every line is one statement or none. It is read as
    these statements as long as the quoted strings in it end where they should. Names of
    variables and positions never cause trouble, and neither does the end of a terminal; but
    parameters may have quotation marks in them, and those are copied as they are.
-/

namespace FluentGrammar

namespace Dot

variable {cs ds text : List Char} {ts us body : List Token} {c : Char} {content : List Char}
variable {attributes : List (String × String)}

/-! ## Characters and tokens -/

/-- The characters are these tokens, whatever follows them. -/
def Spells (cs : List Char) (ts : List Token) : Prop :=
  ∀ rest, lex (.code []) (cs ++ rest) = ts ++ lex (.code []) rest

theorem Spells.append (h : Spells cs ts) (h' : Spells ds us) : Spells (cs ++ ds) (ts ++ us) := by
  intro rest
  rw [List.append_assoc, h, h', List.append_assoc]

theorem lex_wordCharacter (h : isWordCharacter c = true) (word rest : List Char) :
    lex (.code word) (c :: rest) = lex (.code (word ++ [c])) rest := by
  rw [lex, if_pos h]
  · rintro _ rfl
    cases h
  · rintro _ rfl
    cases h

theorem lex_word {word : List Char} (h : ∀ c ∈ word, isWordCharacter c = true)
    (front rest : List Char) :
    lex (.code front) (word ++ rest) = lex (.code (front ++ word)) rest := by
  induction word generalizing front with
  | nil => rw [List.nil_append, List.append_nil]
  | cons c word ih =>
    rw [List.cons_append, lex_wordCharacter (h c (List.mem_cons_self ..)),
      ih fun d hd => h d (List.mem_cons_of_mem _ hd), List.append_assoc]
    rfl

/-- Whatever is not part of a word ends the word in front of it. -/
theorem lex_wordEnd (h : isWordCharacter c = false) (word rest : List Char) :
    lex (.code word) (c :: rest) = wordTokens word ++ lex (.code []) (c :: rest) := by
  have hnone : wordTokens [] = [] := rfl
  unfold lex
  split
  all_goals simp_all

/-- A name or a number that needs no quotation marks. -/
def isWord (text : String) : Bool :=
  !text.toList.isEmpty && text.toList.all isWordCharacter

theorem isWord_iff {text : String} :
    isWord text = true ↔ text.toList ≠ [] ∧ ∀ c ∈ text.toList, isWordCharacter c = true := by
  simp [isWord]

theorem spells_word {word : String} (hword : isWord word = true) (hc : isWordCharacter c = false)
    (h : Spells (c :: cs) ts) : Spells (word.toList ++ c :: cs) (.word word :: ts) := by
  intro rest
  obtain ⟨hne, hall⟩ := isWord_iff.mp hword
  have hrest := h rest
  rw [List.cons_append] at hrest
  rw [List.append_assoc, List.cons_append, lex_word hall, lex_wordEnd hc, hrest,
    List.nil_append, wordTokens, if_neg (by simpa using hne), String.ofList_toList]
  rfl

/-! ## Quoted strings -/

/-- A quoted string goes on to the end of a text, or it ends at the first quotation mark in the
    text that has no backslash in front of it. -/
theorem lex_quoted (content text : List Char) :
    (∀ front back, text = front ++ '"' :: back → (content ++ front).getLast? = some '\\') ∧
        (∀ rest, lex (.quoted content) (text ++ rest) = lex (.quoted (content ++ text)) rest) ∨
      ∃ front back, text = front ++ '"' :: back ∧ (content ++ front).getLast? ≠ some '\\' ∧
        ∀ rest, lex (.quoted content) (text ++ rest) =
          .quoted (String.ofList (content ++ front)) :: lex (.code []) (back ++ rest) := by
  induction text generalizing content with
  | nil => exact Or.inl ⟨by simp, by simp⟩
  | cons c text ih =>
    by_cases hend : (c == '"' && content.getLast? != some '\\') = true
    · -- The string ends here.
      obtain ⟨hc, hlast⟩ := Bool.and_eq_true_iff.mp hend
      obtain rfl := beq_iff_eq.mp hc
      refine Or.inr ⟨[], text, rfl, by simpa using hlast, fun rest => ?_⟩
      rw [List.cons_append, lex, if_pos hend, List.append_nil]
    · -- The character belongs to the string, so what is decided about the longer content is
      -- decided here too.
      have hstep : ∀ rest, lex (.quoted content) (c :: text ++ rest) =
          lex (.quoted (content ++ [c])) (text ++ rest) := by
        intro rest
        rw [List.cons_append, lex, if_neg hend]
      rcases ih (content ++ [c]) with ⟨hescaped, hlex⟩ | ⟨front, back, htext, hlast, hlex⟩
      · refine Or.inl ⟨?_, fun rest => ?_⟩
        · intro front back htext
          cases front with
          | nil =>
            cases htext
            simpa using hend
          | cons d front =>
            cases htext
            simpa using hescaped front back rfl
        · rw [hstep, hlex, List.append_assoc, List.singleton_append]
      · refine Or.inr ⟨c :: front, back, by rw [htext]; rfl, by simpa using hlast, fun rest => ?_⟩
        rw [hstep, hlex, List.append_assoc, List.singleton_append]

/-- What is quoted well is read as it was quoted, if it does not end with a backslash. -/
theorem spells_quoted {text : String} (h : WellQuoted text.toList)
    (hlast : text.toList.getLast? ≠ some '\\') :
    Spells ('"' :: (text.toList ++ ['"'])) [.quoted text] := by
  intro rest
  have hopen : lex (.code []) ('"' :: (text.toList ++ ['"'] ++ rest)) =
      lex (.quoted []) (text.toList ++ ('"' :: rest)) := by
    rw [List.append_assoc]
    rfl
  have hclose : ('"' == '"' && text.toList.getLast? != some '\\') = true := by simpa using hlast
  rw [List.cons_append, hopen]
  rcases lex_quoted [] text.toList with ⟨-, hlex⟩ | ⟨front, back, htext, hbad, -⟩
  · rw [hlex, List.nil_append, lex, if_pos hclose, String.ofList_toList]
    rfl
  · exact absurd (h front back htext) hbad

/-- What is not quoted well ends too early. -/
theorem exists_quoted (h : ¬ WellQuoted text) :
    ∃ front back, text = front ++ '"' :: back ∧ ∀ rest,
      lex (.code []) ('"' :: (text ++ rest)) =
        .quoted (String.ofList front) :: lex (.code []) (back ++ rest) := by
  rcases lex_quoted [] text with ⟨hescaped, -⟩ | ⟨front, back, htext, -, hlex⟩
  · exact absurd hescaped h
  · exact ⟨front, back, htext, hlex⟩

theorem wellQuoted_of_not_mem (h : '"' ∉ text) : WellQuoted text := by
  rintro front back rfl
  exact absurd (List.mem_append_right _ (List.mem_cons_self ..)) h

theorem getLast?_append_iff {front : List Char} (hlast : front.getLast? ≠ some '\\')
    (cs : List Char) : (front ++ cs).getLast? = some '\\' ↔ cs.getLast? = some '\\' := by
  cases cs using List.reverseRecOn with
  | nil => simp [hlast]
  | append_singleton cs c => simp [← List.append_assoc]

/-- Behind a clean beginning, what follows decides. -/
theorem wellQuoted_append {front : List Char} (hmark : '"' ∉ front)
    (hlast : front.getLast? ≠ some '\\') : WellQuoted (front ++ text) ↔ WellQuoted text := by
  have hsame := getLast?_append_iff hlast
  constructor
  · rintro h before after rfl
    exact (hsame before).mp (h (front ++ before) after (by rw [List.append_assoc]))
  · intro h before after htext
    rcases List.append_eq_append_iff.mp htext with
      ⟨between, rfl, hafter⟩ | ⟨between, hfront, hafter⟩
    · exact (hsame between).mpr (h between after hafter)
    · cases between with
      | nil =>
        simp only [List.append_nil] at hfront
        subst hfront
        exact absurd (h [] after (by simpa using hafter.symm)) (by simp)
      | cons c between =>
        injection hafter with hc _
        subst hc
        exact absurd (hfront ▸ List.mem_append_right _ (List.mem_cons_self ..)) hmark

/-- Whether each quotation mark behind the first character has a backslash in front of it. -/
theorem isChain_iff {c : Char} :
    List.IsChain (fun a b => b = '"' → a = '\\') (c :: text) ↔
      ∀ front back, text = front ++ '"' :: back → (c :: front).getLast? = some '\\' := by
  induction text generalizing c with
  | nil => simp
  | cons d text ih =>
    rw [List.isChain_cons_cons, ih]
    constructor
    · rintro ⟨hd, hrest⟩ front back htext
      cases front with
      | nil =>
        cases htext
        rw [hd rfl]
        rfl
      | cons e front =>
        cases htext
        rw [List.getLast?_cons_cons]
        exact hrest front back rfl
    · intro h
      refine ⟨?_, fun front back htext => ?_⟩
      · rintro rfl
        exact Option.some.inj (h [] text rfl)
      · rw [← List.getLast?_cons_cons (a := c)]
        exact h (d :: front) back (by rw [htext]; rfl)

instance (text : List Char) : Decidable (WellQuoted text) :=
  decidable_of_iff (List.IsChain (fun a b => b = '"' → a = '\\') ('_' :: text)) (by
    have hfirst : ['_'].getLast? ≠ some '\\' := by decide
    rw [isChain_iff]
    exact forall₃_congr fun front _ _ => getLast?_append_iff hfirst front)

/-! ## Attributes -/

/-- The characters are the attributes of a statement, as far as the semicolon. -/
def SpellsAttributes (cs : List Char) (attributes : List (String × String)) : Prop :=
  ∃ body, Spells (cs ++ "];".toList) (body ++ [.mark ';']) ∧
    (∀ t ∈ body, t.endsStatement = false) ∧
    readAttributes (body ++ [.mark ';']) = some attributes

/-- Attributes with words as their values, each behind a comma. -/
def wordAttributes (attributes : List (String × String)) : String :=
  String.join (attributes.map (fun a => ", " ++ a.1 ++ "=" ++ a.2))

theorem wordAttributes_cons (a : String × String) (attributes : List (String × String)) :
    (wordAttributes (a :: attributes)).toList =
      ',' :: ' ' :: (a.1.toList ++ '=' :: (a.2.toList ++ (wordAttributes attributes).toList)) := by
  simp [wordAttributes, String.toList_join]

theorem wordAttributes_append (front back : List (String × String)) :
    wordAttributes (front ++ back) = wordAttributes front ++ wordAttributes back := by
  simp [wordAttributes, String.join_append]

theorem wordAttributes_pair (key value : String) :
    wordAttributes [(key, value)] = ", " ++ key ++ "=" ++ value := by
  simp [wordAttributes]

theorem feed_not_mem_wordAttributes
    (h : ∀ a ∈ attributes, isWord a.1 = true ∧ isWord a.2 = true) :
    '\n' ∉ (wordAttributes attributes).toList := by
  have hword : ∀ text : String, isWord text = true → '\n' ∉ text.toList := fun text htext hmem =>
    absurd ((isWord_iff.mp htext).2 _ hmem) (by decide)
  induction attributes with
  | nil => exact List.not_mem_nil
  | cons a attributes ih =>
    obtain ⟨hkey, hvalue⟩ := h a (List.mem_cons_self ..)
    have hrest := ih fun b hb => h b (List.mem_cons_of_mem _ hb)
    rw [wordAttributes_cons]
    simp [hword _ hkey, hword _ hvalue, hrest]

/-- The tokens of such attributes. -/
def attributeTokens (attributes : List (String × String)) : List Token :=
  attributes.flatMap (fun a => [.mark ',', .word a.1, .mark '=', .word a.2])

theorem spells_wordAttributes (h : ∀ a ∈ attributes, isWord a.1 = true ∧ isWord a.2 = true) :
    Spells ((wordAttributes attributes).toList ++ "];".toList)
      (attributeTokens attributes ++ [.mark ']', .mark ';']) := by
  induction attributes with
  | nil => exact fun _ => rfl
  | cons a attributes ih =>
    obtain ⟨hkey, hvalue⟩ := h a (List.mem_cons_self ..)
    have hrest := ih fun b hb => h b (List.mem_cons_of_mem _ hb)
    -- A comma or a bracket ends the value.
    have hend : ∃ c cs, (wordAttributes attributes).toList ++ "];".toList = c :: cs ∧
        isWordCharacter c = false := by
      cases attributes with
      | nil => exact ⟨']', [';'], rfl, rfl⟩
      | cons b attributes =>
        rw [wordAttributes_cons]
        exact ⟨',', _, rfl, rfl⟩
    obtain ⟨c, cs, heq, hc⟩ := hend
    rw [heq] at hrest
    have hequals : Spells ['='] [.mark '='] := fun _ => rfl
    have hcomma : Spells [',', ' '] [.mark ','] := fun _ => rfl
    have hpair := hcomma.append
      (spells_word hkey rfl (hequals.append (spells_word hvalue hc hrest)))
    rw [← heq] at hpair
    rw [wordAttributes_cons]
    simpa [attributeTokens] using hpair

theorem endsStatement_attributeTokens (attributes : List (String × String)) :
    ∀ t ∈ attributeTokens attributes, t.endsStatement = false := by
  intro t ht
  obtain ⟨a, -, ht⟩ := List.mem_flatMap.mp ht
  simp only [List.mem_cons, List.not_mem_nil, or_false] at ht
  rcases ht with rfl | rfl | rfl | rfl <;> rfl

theorem readAttributes_words (key value : Token) {k v : String} (hk : key.text? = some k)
    (hv : value.text? = some v) (attributes : List (String × String)) :
    readAttributes (key :: .mark '=' :: value :: (attributeTokens attributes ++
      [.mark ']', .mark ';'])) = some ((k, v) :: attributes) := by
  induction attributes generalizing key value k v with
  | nil => simp [attributeTokens, readAttributes, hk, hv]
  | cons a attributes ih =>
    have hrest := ih (.word a.1) (.word a.2) rfl rfl
    have htokens : attributeTokens (a :: attributes) ++ [.mark ']', .mark ';'] =
        .mark ',' :: .word a.1 :: .mark '=' :: .word a.2 ::
          (attributeTokens attributes ++ [.mark ']', .mark ';']) := rfl
    rw [htokens, readAttributes]
    simp [hk, hv, hrest]

/-- What is behind a label on its line. -/
theorem readAttributes_line (name : String)
    (h : ∀ a ∈ attributes, isWord a.1 = true ∧ isWord a.2 = true) :
    readAttributes (.word "label" :: .mark '=' :: .quoted name ::
        lex (.code []) ((wordAttributes attributes).toList ++ "];".toList)) =
      some (("label", name) :: attributes) := by
  have hlex := spells_wordAttributes h []
  rw [List.append_nil] at hlex
  rw [hlex]
  simpa [lex, wordTokens] using
    readAttributes_words (.word "label") (.quoted name) rfl rfl attributes

/-- A label in quotation marks and attributes with words behind it. -/
theorem spellsAttributes_label {label : String} (hlabel : WellQuoted label.toList)
    (hlast : label.toList.getLast? ≠ some '\\')
    (h : ∀ a ∈ attributes, isWord a.1 = true ∧ isWord a.2 = true) :
    SpellsAttributes ("label=\"" ++ label ++ "\"" ++ wordAttributes attributes).toList
      (("label", label) :: attributes) := by
  refine ⟨.word "label" :: .mark '=' :: .quoted label ::
    (attributeTokens attributes ++ [.mark ']']), ?_, ?_, ?_⟩
  · have hkey : Spells "label=".toList [.word "label", .mark '='] := fun _ => rfl
    have hall := hkey.append ((spells_quoted hlabel hlast).append (spells_wordAttributes h))
    simpa using hall
  · simp only [List.forall_mem_cons, List.forall_mem_append]
    exact ⟨rfl, rfl, rfl, endsStatement_attributeTokens attributes, rfl, fun _ h => nomatch h⟩
  · have hread := readAttributes_words (.word "label") (.quoted label) rfl rfl attributes
    simpa using hread

/-! ## Statements -/

/-- The characters are these statements, whatever follows them. -/
def ReadsAs (cs : List Char) (ss : List Statement) : Prop :=
  ∀ rest, readChars (cs ++ rest) = ss ++ readChars rest

variable {ss ss' : List Statement} {id source target subject : String} {t u : Token}

theorem ReadsAs.append (h : ReadsAs cs ss) (h' : ReadsAs ds ss') :
    ReadsAs (cs ++ ds) (ss ++ ss') := by
  intro rest
  rw [List.append_assoc, h, h', List.append_assoc]

theorem ReadsAs.flatMap {α : Type} {xs : List α} {f : α → List Char} {g : α → List Statement}
    (h : ∀ x ∈ xs, ReadsAs (f x) (g x)) : ReadsAs (xs.flatMap f) (xs.flatMap g) := by
  induction xs with
  | nil => exact fun _ => rfl
  | cons x xs ih =>
    rw [List.flatMap_cons, List.flatMap_cons]
    exact (h x (List.mem_cons_self ..)).append (ih fun y hy => h y (List.mem_cons_of_mem _ hy))

theorem pieces_append (h : ∀ t ∈ body, t.endsStatement = false) (hu : u.endsStatement = true)
    (rest : List Token) : pieces (body ++ u :: rest) = (body ++ [u]) :: pieces rest := by
  induction body with
  | nil => rw [List.nil_append, pieces, if_pos hu, List.nil_append]
  | cons t body ih =>
    rw [List.cons_append, pieces, if_neg (by simp [h t (List.mem_cons_self ..)]),
      ih fun t ht => h t (List.mem_cons_of_mem _ ht)]
    rfl

/-- Tokens without an end among them, and one that ends a statement. -/
theorem Spells.readsAs (body : List Token) (u : Token) (h : Spells cs (body ++ [u]))
    (hbody : ∀ t ∈ body, t.endsStatement = false) (hu : u.endsStatement = true) {s : Statement}
    (hs : statement? (body ++ [u]) = some s) : ReadsAs cs [s] := by
  intro rest
  rw [readChars, h, List.append_assoc, List.singleton_append, pieces_append hbody hu,
    List.map_cons, hs]
  rfl

theorem statement?_node (hid : t.text? = some id) (hne : id ≠ "node") {rest : List Token}
    (h : readAttributes rest = some attributes) :
    statement? (t :: .mark '[' :: rest) = some (.node id attributes) := by
  have hnode : t ≠ .word "node" := by
    rintro rfl
    exact hne (Option.some.inj hid).symm
  rw [statement?]
  simp [h, hid, hnode]

theorem statement?_edge (ht : t.text? = some source) (hu : u.text? = some target)
    {rest : List Token} (h : readAttributes rest = some attributes) :
    statement? (t :: .arrow :: u :: .mark '[' :: rest) =
      some (.edge source target attributes) := by
  rw [statement?]
  simp [h, ht, hu]

/-- The id of a node is the first token. -/
theorem text?_of_nodeId? {rest : List Token} {s : Statement}
    (h : statement? (t :: rest) = some s) (hid : s.nodeId? = some id) : t.text? = some id := by
  unfold statement? at h
  split at h
  · cases h
    cases hid
  · cases h
    cases hid
  · obtain ⟨key, -, h⟩ := Option.bind_eq_some_iff.mp h
    obtain ⟨value, -, h⟩ := Option.bind_eq_some_iff.mp h
    cases h
    cases hid
  · obtain ⟨attributes, -, h⟩ := Option.bind_eq_some_iff.mp h
    split at h
    · cases h
      cases hid
    · obtain ⟨name, hname, h⟩ := Option.bind_eq_some_iff.mp h
      cases h
      injection ‹t :: rest = _› with ht _
      rw [ht, hname]
      exact hid
  · obtain ⟨source, -, h⟩ := Option.bind_eq_some_iff.mp h
    obtain ⟨target, -, h⟩ := Option.bind_eq_some_iff.mp h
    obtain ⟨attributes, -, h⟩ := Option.bind_eq_some_iff.mp h
    cases h
    cases hid
  · cases h

theorem pieces_cons (h : t.endsStatement = false) (rest : List Token) :
    ∃ piece others, pieces (t :: rest) = (t :: piece) :: others := by
  rw [pieces, if_neg (by simp [h])]
  cases pieces rest with
  | nil => exact ⟨_, _, rfl⟩
  | cons piece others => exact ⟨_, _, rfl⟩

theorem endsStatement_of_text? (h : t.text? = some id) : t.endsStatement = false := by
  cases t <;> first | rfl | cases h

/-- The line of a node with attributes. -/
theorem readsAs_node (hsubject : Spells (subject.toList ++ [' ']) [t]) (hid : t.text? = some id)
    (hne : id ≠ "node") {text : String} (h : SpellsAttributes text.toList attributes) :
    ReadsAs ((statement subject text).toList ++ ['\n']) [.node id attributes] := by
  obtain ⟨body, hspells, hbody, hread⟩ := h
  have hindent : Spells "  ".toList [] := fun _ => rfl
  have hopen : Spells ['['] [.mark '['] := fun _ => rfl
  have hfeed : Spells ['\n'] [] := fun _ => rfl
  have hline := hindent.append (hsubject.append (hopen.append (hspells.append hfeed)))
  refine Spells.readsAs (t :: .mark '[' :: body) (.mark ';') ?_ ?_ rfl
    (statement?_node hid hne hread)
  · simpa [statement] using hline
  · exact List.forall_mem_cons.mpr ⟨endsStatement_of_text? hid,
      List.forall_mem_cons.mpr ⟨rfl, hbody⟩⟩

/-- The line of an edge with attributes. -/
theorem readsAs_edge {origin goal : String} (ht : Spells (origin.toList ++ [' ']) [t])
    (htext : t.text? = some source) (hu : Spells (goal.toList ++ [' ']) [u])
    (hutext : u.text? = some target) {text : String}
    (h : SpellsAttributes text.toList attributes) :
    ReadsAs ((statement (origin ++ " -> " ++ goal) text).toList ++ ['\n'])
      [.edge source target attributes] := by
  obtain ⟨body, hspells, hbody, hread⟩ := h
  have hindent : Spells "  ".toList [] := fun _ => rfl
  have harrow : Spells "-> ".toList [.arrow] := fun _ => rfl
  have hopen : Spells ['['] [.mark '['] := fun _ => rfl
  have hfeed : Spells ['\n'] [] := fun _ => rfl
  have hline := hindent.append (ht.append (harrow.append (hu.append
    (hopen.append (hspells.append hfeed)))))
  refine Spells.readsAs (t :: .arrow :: u :: .mark '[' :: body) (.mark ';') ?_ ?_ rfl
    (statement?_edge htext hutext hread)
  · simpa [statement] using hline
  · exact List.forall_mem_cons.mpr ⟨endsStatement_of_text? htext, List.forall_mem_cons.mpr ⟨rfl,
      List.forall_mem_cons.mpr ⟨endsStatement_of_text? hutext,
        List.forall_mem_cons.mpr ⟨rfl, hbody⟩⟩⟩⟩

end Dot

/-! ## Nodes -/

open Dot

variable {g : Grammar} {options : GraphOptions} {v : Variable} {t : Terminal} {r : Rule}
variable {x : Symbol}

/-- Neither a quotation mark nor a backslash stands in an identifier. -/
theorem quotable_of_continuesIdentifier {cs : List Char}
    (h : ∀ c ∈ cs, continuesIdentifier c = true) :
    WellQuoted cs ∧ cs.getLast? ≠ some '\\' := by
  constructor
  · exact wellQuoted_of_not_mem fun hmem => absurd (h _ hmem) (by decide)
  · exact fun hlast => absurd (h _ (List.mem_of_getLast? hlast)) (by decide)

theorem isWordCharacter_of_isDigit {c : Char} (h : c.isDigit = true) :
    isWordCharacter c = true := by
  simp [isWordCharacter, Char.isAlphanum, h]

theorem Variable.nodeName_toList (v : Variable) :
    v.nodeName.toList = 'v' :: Nat.toDigits 10 v.id := by
  simp [Variable.nodeName]

/-- The node of a variable has no other name that a graph uses. -/
theorem Variable.nodeName_ne {id : String} (h : id.toList.head? ≠ some 'v') : v.nodeName ≠ id := by
  rintro rfl
  rw [Variable.nodeName_toList] at h
  exact h rfl

theorem spells_variable (v : Variable) :
    Spells (v.nodeName.toList ++ [' ']) [.word v.nodeName] := by
  have hword : isWord v.nodeName = true := by
    rw [isWord_iff, Variable.nodeName_toList]
    refine ⟨List.cons_ne_nil _ _, List.forall_mem_cons.mpr ⟨rfl, fun c hc => ?_⟩⟩
    exact isWordCharacter_of_isDigit (Nat.isDigit_of_mem_toDigits (by omega) (by omega) hc)
  exact spells_word hword rfl fun _ => rfl

/-- No terminal ends with a backslash. -/
theorem Terminal.getLast?_text (h : t.isWritable = true) :
    t.text.toList.getLast? ≠ some '\\' := by
  rcases Terminal.isWritable_iff.mp h with rfl | ⟨hname, -, -⟩
  · decide
  · by_cases hnone : t.params = []
    · have htext : t.text = t.name := by simp [Terminal.text, hnone]
      rw [htext]
      exact (quotable_of_continuesIdentifier (continuesIdentifier_of_mem hname)).2
    · rw [Terminal.text_toList hnone, ← List.cons_append, ← List.append_assoc,
        List.getLast?_concat]
      decide

theorem Terminal.nodeId_toList (t : Terminal) :
    (Symbol.term t).nodeId.toList = 't' :: '_' :: t.text.toList := by
  simp [Symbol.nodeId]

theorem Terminal.nodeId_ne : (Symbol.term t).nodeId ≠ "node" := by
  rw [Ne, ← String.toList_inj, Terminal.nodeId_toList]
  exact fun heq => absurd (List.head_eq_of_cons_eq heq) (by decide)

theorem spells_terminal (h : WellQuoted t.text.toList) (ht : t.isWritable = true) :
    Spells (t.nodeName.toList ++ [' ']) [.quoted (Symbol.term t).nodeId] := by
  have hid : (Symbol.term t).nodeId.toList = ['t', '_'] ++ t.text.toList :=
    Terminal.nodeId_toList t
  have hquoted : Spells ('"' :: ((Symbol.term t).nodeId.toList ++ ['"']))
      [.quoted (Symbol.term t).nodeId] := by
    refine spells_quoted ?_ ?_
    · rw [hid]
      exact (wellQuoted_append (by decide) (by decide)).mpr h
    · rw [hid, Ne, getLast?_append_iff (by decide)]
      exact Terminal.getLast?_text ht
  have hspace : Spells [' '] [] := fun _ => rfl
  simpa [Terminal.nodeName, Symbol.nodeId] using hquoted.append hspace

theorem filled_eq (colour : String) :
    filled colour = wordAttributes (colourAttributes (some colour)) := by
  have hstyle : ", style=filled, fillcolor=" =
      wordAttributes [("style", "filled")] ++ (", " ++ "fillcolor" ++ "=") := by decide +kernel
  have hsplit : colourAttributes (some colour) = [("style", "filled")] ++ [("fillcolor", colour)] :=
    rfl
  unfold filled
  rw [hstyle, hsplit, wordAttributes_append, wordAttributes_pair _ colour, String.append_assoc]

theorem variableFill_eq (v : Variable) :
    variableFill options.tags (options.marked g) v =
      wordAttributes (colourAttributes (options.colour? g v)) := by
  unfold variableFill GraphOptions.colour?
  split
  · exact filled_eq _
  · cases options.tags.bind (fun tags => tags.tag? v) with
    | none => rfl
    | some tag =>
      cases tag with
      | full => rfl
      | bridge => exact filled_eq _
      | partialSelection => exact filled_eq _
      | partialDerivation => exact filled_eq _

theorem variableNode_eq (r : Rule) :
    variableNode g options.tags (options.marked g) r = statement r.lhs.nodeName
      ("label=\"" ++ r.lhs.name ++ "\"" ++ wordAttributes (r.nodeAttributes g options)) := by
  have hshape : ", shape=" ++ (if r.isSelection then "diamond" else "ellipse") =
      wordAttributes [("shape", if r.isSelection then "diamond" else "ellipse")] := by
    cases r.isSelection <;> rfl
  have hborder : (if r.lhs == g.start then ", peripheries=2" else "") =
      wordAttributes (if r.lhs == g.start then [("peripheries", "2")] else []) := by
    split <;> rfl
  have hsplit : ∀ shape : String, "\", shape=" ++ shape = "\"" ++ (", shape=" ++ shape) := by
    intro shape
    rw [← String.append_assoc]
    rfl
  unfold variableNode Rule.nodeAttributes
  rw [wordAttributes_append, wordAttributes_append, ← hshape, ← hborder, ← variableFill_eq]
  simp only [String.append_assoc, hsplit]

theorem isWord_colourAttributes {colour? : Option String} (h : ∀ c ∈ colour?, isWord c = true) :
    ∀ a ∈ colourAttributes colour?, isWord a.1 = true ∧ isWord a.2 = true := by
  cases colour? with
  | none => exact fun _ h => nomatch h
  | some colour =>
    simp only [colourAttributes, List.forall_mem_cons]
    exact ⟨⟨by decide, by decide⟩, ⟨by decide, h colour rfl⟩, fun _ h => nomatch h⟩

theorem isWord_colour? : ∀ c ∈ options.colour? g v, isWord c = true := by
  intro c hc
  unfold GraphOptions.colour? at hc
  split at hc
  · obtain rfl := Option.some.inj hc
    decide
  · obtain ⟨tag, -, hc⟩ := Option.bind_eq_some_iff.mp hc
    cases tag with
    | full => cases hc
    | partialSelection => cases hc; decide
    | partialDerivation => cases hc; decide
    | bridge => cases hc; decide

theorem isWord_nodeAttributes :
    ∀ a ∈ r.nodeAttributes g options, isWord a.1 = true ∧ isWord a.2 = true := by
  have hshape : isWord (if r.isSelection then "diamond" else "ellipse") = true := by
    cases r.isSelection <;> decide
  unfold Rule.nodeAttributes
  simp only [List.forall_mem_append, List.forall_mem_singleton]
  refine ⟨⟨⟨by decide, hshape⟩, isWord_colourAttributes isWord_colour?⟩, ?_⟩
  split
  · exact List.forall_mem_singleton.mpr ⟨by decide, by decide⟩
  · exact fun _ h => nomatch h

/-- The node of a variable. -/
theorem readsAs_variableNode (h : isVariableName r.lhs.name = true) :
    ReadsAs ((variableNode g options.tags (options.marked g) r).toList ++ ['\n'])
      [r.nodeStatement g options] := by
  have hname := quotable_of_continuesIdentifier
    (continuesIdentifier_of_mem (isIdentifier_of_isVariableName h))
  rw [variableNode_eq]
  exact readsAs_node (spells_variable r.lhs) rfl (Variable.nodeName_ne (by decide))
    (spellsAttributes_label hname.1 hname.2 isWord_nodeAttributes)

/-- The node of a terminal. -/
theorem readsAs_terminalNode (ht : t.isWritable = true) (h : WellQuoted t.text.toList) :
    ReadsAs ((terminalNode t).toList ++ ['\n']) [t.nodeStatement] := by
  have hwords : ∀ a ∈ ("shape", "box") :: colourAttributes (some "lightblue"),
      isWord a.1 = true ∧ isWord a.2 = true := by
    refine List.forall_mem_cons.mpr ⟨by decide, isWord_colourAttributes ?_⟩
    rintro c ⟨⟩
    decide
  have hattributes : "\", shape=box" ++ filled "lightblue" = "\"" ++
      wordAttributes (("shape", "box") :: colourAttributes (some "lightblue")) := by
    decide +kernel
  have hnode : terminalNode t = statement t.nodeName ("label=\"" ++ t.text ++ "\"" ++
      wordAttributes (("shape", "box") :: colourAttributes (some "lightblue"))) := by
    unfold terminalNode
    rw [String.append_assoc, String.append_assoc, hattributes, ← String.append_assoc,
      ← String.append_assoc]
  rw [hnode]
  exact readsAs_node (spells_terminal h ht) rfl Terminal.nodeId_ne
    (spellsAttributes_label h (Terminal.getLast?_text ht) hwords)

/-! ## Edges -/

/-- The node of a symbol is one token. -/
theorem spells_symbol (hx : x.isWritable = true)
    (h : ∀ t ∈ x.toTerminal?, WellQuoted t.text.toList) :
    ∃ u : Dot.Token, Spells (x.nodeName.toList ++ [' ']) [u] ∧ u.text? = some x.nodeId := by
  cases x with
  | var v => exact ⟨_, spells_variable v, rfl⟩
  | term t => exact ⟨_, spells_terminal (h t rfl) hx, rfl⟩

theorem spellsAttributes_position (k : Nat) :
    SpellsAttributes ("label=\"" ++ toString k ++ "\"").toList [("label", toString k)] := by
  have hdigits := quotable_of_continuesIdentifier
    (List.all_eq_true.mp (all_continuesIdentifier_toString k))
  have hlabel := spellsAttributes_label hdigits.1 hdigits.2 (fun _ h => nomatch h :
    ∀ a ∈ ([] : List (String × String)), isWord a.1 = true ∧ isWord a.2 = true)
  have hnone : wordAttributes [] = "" := rfl
  rwa [hnone, String.append_empty] at hlabel

theorem spellsAttributes_dashed :
    SpellsAttributes "style=dashed".toList [("style", "dashed")] :=
  ⟨[.word "style", .mark '=', .word "dashed", .mark ']'], fun _ => rfl, by decide, rfl⟩

/-- The edges that leave a variable. -/
theorem readsAs_edges (hr : r.Writable) (h : ∀ t ∈ r.terminals, WellQuoted t.text.toList) :
    ReadsAs ((ruleEdges r).flatMap (fun line => line.toList ++ ['\n'])) r.edgeStatements := by
  cases r with
  | selection lhs alternatives =>
    rw [ruleEdges, List.flatMap_map, Rule.edgeStatements, Rule.edges, List.map_map,
      List.map_eq_flatMap]
    exact ReadsAs.flatMap fun v _ => readsAs_edge (spells_variable lhs) rfl (spells_variable v) rfl
      spellsAttributes_dashed
  | derivation lhs rhs =>
    rw [ruleEdges, List.flatMap_map, Rule.edgeStatements, Rule.edges, List.map_map,
      List.map_eq_flatMap]
    refine ReadsAs.flatMap ?_
    rintro ⟨x, position⟩ hx
    have hmem := List.fst_mem_of_mem_zipIdx hx
    obtain ⟨u, hu, hutext⟩ := spells_symbol (hr.symbols x hmem) fun t ht =>
      h t (List.mem_filterMap.mpr ⟨x, hmem, ht⟩)
    exact readsAs_edge (spells_variable lhs) rfl hu hutext (spellsAttributes_position position)

/-! ## The graph -/

/-- Lines with a line feed behind each. -/
def lineChars (lines : List String) : List Char :=
  lines.flatMap (fun line => line.toList ++ ['\n'])

theorem lineChars_append (front back : List String) :
    lineChars (front ++ back) = lineChars front ++ lineChars back :=
  List.flatMap_append

theorem Grammar.graph_toList (g : Grammar) (options : GraphOptions) :
    (g.graph options).toList = lineChars (g.graphLines options) := by
  rw [Grammar.graph, toList_joinLines, List.flatMap_map]
  rfl

theorem readsAs_lines {α : Type} {xs : List α} {line : α → String} {f : α → Dot.Statement}
    (h : ∀ x ∈ xs, ReadsAs ((line x).toList ++ ['\n']) [f x]) :
    ReadsAs (lineChars (xs.map line)) (xs.map f) := by
  rw [lineChars, List.flatMap_map, List.map_eq_flatMap]
  exact ReadsAs.flatMap h

theorem Grammar.mem_terminals : t ∈ g.terminals ↔ ∃ r ∈ g.rules, t ∈ r.terminals := by
  rw [Grammar.terminals, mem_sortedSet, List.mem_flatMap]

theorem Grammar.Writable.isWritable_of_mem_terminals (hw : g.Writable) :
    ∀ t ∈ g.terminals, t.isWritable = true := by
  intro t ht
  obtain ⟨r, hr, ht⟩ := Grammar.mem_terminals.mp ht
  exact hw.terminals r hr t ht

/-- The lines in front of the terminals. -/
def frontLines (g : Grammar) (options : GraphOptions) : List String :=
  graphHeader ++ "" :: g.rules.map (variableNode g options.tags (options.marked g)) ++
    ["", "  // Terminals"]

/-- The lines behind them. -/
def backLines (g : Grammar) (options : GraphOptions) : List String :=
  "" :: g.rules.flatMap ruleEdges ++
    (if (options.marked g).isEmpty then [] else "" :: conflictLegend) ++ ["\x7d"]

theorem graph_toList_split :
    (g.graph options).toList = lineChars (frontLines g options) ++
      (lineChars (g.terminals.map terminalNode) ++ lineChars (backLines g options)) := by
  rw [Grammar.graph_toList, ← lineChars_append, ← lineChars_append, Grammar.graphLines,
    frontLines, backLines]
  simp

theorem readsAs_front (hw : g.Writable) (options : GraphOptions) :
    ReadsAs (lineChars (frontLines g options))
      (headerStatements ++ g.rules.map (Rule.nodeStatement g options)) := by
  have hheader : ReadsAs (lineChars (graphHeader ++ [""])) headerStatements := fun _ => rfl
  have hcomment : ReadsAs (lineChars ["", "  // Terminals"]) [] := fun _ => rfl
  have hnodes : ReadsAs (lineChars (g.rules.map (variableNode g options.tags (options.marked g))))
      (g.rules.map (Rule.nodeStatement g options)) :=
    readsAs_lines fun r hr => readsAs_variableNode (hw.rule hr).lhs
  have hall := (hheader.append hnodes).append hcomment
  rw [← lineChars_append, ← lineChars_append, List.append_nil] at hall
  rwa [frontLines, List.append_cons graphHeader]

theorem readsAs_back (hw : g.Writable) (options : GraphOptions)
    (h : ∀ t ∈ g.terminals, WellQuoted t.text.toList) :
    ReadsAs (lineChars (backLines g options)) (g.rules.flatMap Rule.edgeStatements ++
      (if (options.marked g).isEmpty then [] else legendStatements) ++ [.leave]) := by
  have hblank : ReadsAs (lineChars [""]) [] := fun _ => rfl
  have hend : ReadsAs (lineChars ["\x7d"]) [.leave] := fun _ => rfl
  have hedges : ReadsAs (lineChars (g.rules.flatMap ruleEdges))
      (g.rules.flatMap Rule.edgeStatements) := by
    rw [lineChars, List.flatMap_assoc]
    exact ReadsAs.flatMap fun r hr => readsAs_edges (hw.rule hr) fun t ht =>
      h t (Grammar.mem_terminals.mpr ⟨r, hr, ht⟩)
  have hlegend : ReadsAs
      (lineChars (if (options.marked g).isEmpty then [] else "" :: conflictLegend))
      (if (options.marked g).isEmpty then [] else legendStatements) := by
    split
    · exact fun _ => rfl
    · exact fun _ => rfl
  have hall := ((hblank.append hedges).append hlegend).append hend
  rw [← lineChars_append, ← lineChars_append, ← lineChars_append] at hall
  exact hall

/-- A terminal that is not quoted well is read as something else. -/
theorem readChars_misquoted (h : ¬ WellQuoted t.text.toList) (rest : List Char) :
    ∃ s others, readChars ((terminalNode t).toList ++ '\n' :: rest) = s :: others ∧
      s ≠ t.nodeStatement := by
  have hid : (Symbol.term t).nodeId.toList = ['t', '_'] ++ t.text.toList :=
    Terminal.nodeId_toList t
  have hbad : ¬ WellQuoted (Symbol.term t).nodeId.toList := by
    rw [hid]
    exact fun hquoted => h ((wellQuoted_append (by decide) (by decide)).mp hquoted)
  -- The quoted id ends too early, at a mark of its own.
  obtain ⟨front, back, htext, hlex⟩ := exists_quoted hbad
  have hindent : Spells "  ".toList [] := fun _ => rfl
  obtain ⟨rest', hline⟩ : ∃ rest', (terminalNode t).toList ++ '\n' :: rest =
      "  ".toList ++ '"' :: ((Symbol.term t).nodeId.toList ++ rest') := by
    simp only [terminalNode, statement, Terminal.nodeName, hid, String.toList_append,
      List.append_assoc]
    exact ⟨_, rfl⟩
  obtain ⟨piece, others, hpieces⟩ := pieces_cons (t := .quoted (String.ofList front)) rfl
    (lex (.code []) (back ++ rest'))
  refine ⟨_, _, by rw [hline, readChars, hindent, hlex, List.nil_append, hpieces, List.map_cons],
    fun heq => ?_⟩
  cases hs : statement? (.quoted (String.ofList front) :: piece) with
  | none =>
    rw [hs] at heq
    cases heq
  | some s =>
    rw [hs, Option.getD_some] at heq
    -- As the first token it would have to be the whole id, but it is shorter.
    have hfront : (Token.quoted (String.ofList front)).text? = some (Symbol.term t).nodeId :=
      text?_of_nodeId? hs (heq ▸ rfl)
    have hlength := congrArg (fun id => id.toList.length) (Option.some.inj hfront)
    simp only [String.toList_ofList, htext, List.length_append, List.length_cons] at hlength
    omega

/-- The terminals of a text that is read as it was meant are quoted well. -/
theorem wellQuoted_of_readChars {ts : List Terminal} (hts : ∀ t ∈ ts, t.isWritable = true)
    {back : List Char} {more : List Dot.Statement}
    (h : readChars (lineChars (ts.map terminalNode) ++ back) =
      ts.map Terminal.nodeStatement ++ more) : ∀ t ∈ ts, WellQuoted t.text.toList := by
  induction ts with
  | nil => exact fun _ ht => nomatch ht
  | cons t ts ih =>
    have hline : lineChars ((t :: ts).map terminalNode) ++ back =
        (terminalNode t).toList ++ '\n' :: (lineChars (ts.map terminalNode) ++ back) := by
      simp [lineChars]
    rw [hline, List.map_cons, List.cons_append] at h
    -- A terminal that is not quoted well spoils the first statement.
    have hquoted : WellQuoted t.text.toList := by
      by_contra hbad
      obtain ⟨s, others, hread, hne⟩ := readChars_misquoted hbad
        (lineChars (ts.map terminalNode) ++ back)
      rw [hread] at h
      exact hne (List.head_eq_of_cons_eq h)
    have hnode := readsAs_terminalNode (hts t (List.mem_cons_self ..)) hquoted
      (lineChars (ts.map terminalNode) ++ back)
    rw [List.append_assoc, List.singleton_append, h] at hnode
    exact List.forall_mem_cons.mpr ⟨hquoted, ih (fun t ht => hts t (List.mem_cons_of_mem _ ht))
      (List.tail_eq_of_cons_eq hnode).symm⟩

theorem statements_split :
    g.statements options = headerStatements ++ g.rules.map (Rule.nodeStatement g options) ++
      (g.terminals.map Terminal.nodeStatement ++ (g.rules.flatMap Rule.edgeStatements ++
        (if (options.marked g).isEmpty then [] else legendStatements) ++ [.leave])) := by
  simp only [Grammar.statements, List.append_assoc]

/-- A graph is read as the statements of the grammar exactly when every quotation mark in a
    terminal has a backslash in front of it. -/
theorem read_graph_iff (hw : g.Writable) :
    Dot.read (g.graph options) = g.statements options ↔
      ∀ t ∈ g.terminals, WellQuoted t.text.toList := by
  have hterminals := hw.isWritable_of_mem_terminals
  have hfront := readsAs_front hw options
  rw [Dot.read, graph_toList_split, hfront, statements_split, List.append_cancel_left_eq]
  constructor
  · exact wellQuoted_of_readChars hterminals
  · intro h
    have hnodes : ReadsAs (lineChars (g.terminals.map terminalNode))
        (g.terminals.map Terminal.nodeStatement) :=
      readsAs_lines fun t ht => readsAs_terminalNode (hterminals t ht) (h t ht)
    have hall := (hnodes.append (readsAs_back hw options h)) []
    have hnil : readChars [] = [] := rfl
    rwa [List.append_nil, hnil, List.append_nil] at hall

/-! ## Nodes of known variables -/

/-- The line of a variable is its label, whatever the name is, and attributes behind it. -/
theorem variableNode_line (r : Rule) (below : List Char) :
    (variableNode g options.tags (options.marked g) r).toList ++ '\n' :: below =
      (labelled r.lhs).toList ++
        ((wordAttributes (r.nodeAttributes g options)).toList ++ "];".toList ++ '\n' :: below) := by
  rw [variableNode_eq]
  simp [statement, labelled]

/-- The first node is read from the first line, and the others from what is below it. -/
theorem nodes?_cons (r : Rule) (vars : List Variable) (below : List Char) :
    nodes? (r.lhs :: vars)
        ((variableNode g options.tags (options.marked g) r).toList ++ '\n' :: below) =
      (nodes? vars below).map
        ((r.lhs, ("label", r.lhs.name) :: r.nodeAttributes g options) :: ·) := by
  have hfeed : '\n' ∉ (wordAttributes (r.nodeAttributes g options)).toList ++ "];".toList := by
    rw [List.mem_append, not_or]
    exact ⟨feed_not_mem_wordAttributes isWord_nodeAttributes, by decide⟩
  have hcut : Text.cutAt? ['\n'] _ = some (_, below) := Text.cutAt?_append hfeed below
  rw [List.singleton_append] at hcut
  rw [variableNode_line, nodes?]
  simp only [Text.behind?_append, hcut, readAttributes_line r.lhs.name isWord_nodeAttributes,
    Option.bind_eq_bind, Option.bind_some]
  cases nodes? vars below <;> rfl

/-- The nodes of variables are read from their lines. -/
theorem nodes?_lines (rules : List Rule) (below : List Char) :
    nodes? (rules.map Rule.lhs)
        (lineChars (rules.map (variableNode g options.tags (options.marked g))) ++ below) =
      some (rules.map (fun r => (r.lhs, ("label", r.lhs.name) :: r.nodeAttributes g options))) := by
  induction rules with
  | nil => rfl
  | cons r rules ih =>
    have hline : lineChars ((r :: rules).map (variableNode g options.tags (options.marked g))) ++
        below = (variableNode g options.tags (options.marked g) r).toList ++ '\n' ::
          (lineChars (rules.map (variableNode g options.tags (options.marked g))) ++ below) := by
      simp [lineChars]
    rw [hline, List.map_cons, nodes?_cons, ih]
    rfl

/-- The nodes of a graph begin below its first empty line. -/
theorem cutAt?_graph :
    Text.cutAt? ['\n', '\n'] (g.graph options).toList =
      some ("digraph Grammar \x7b\n  rankdir=LR;\n  node [shape=box];".toList,
        lineChars (g.rules.map (variableNode g options.tags (options.marked g))) ++
          (lineChars ["", "  // Terminals"] ++
            (lineChars (g.terminals.map terminalNode) ++ lineChars (backLines g options)))) := by
  rw [graph_toList_split, frontLines, List.append_cons graphHeader, lineChars_append,
    lineChars_append, List.append_assoc, List.append_assoc]
  rfl

/-- The node of a variable is read from a graph as it was drawn, whatever its name is. -/
theorem node?_graph (v : Variable) :
    node? g.vars (g.graph options) v =
      (g.rule? v).map (fun r => ("label", r.lhs.name) :: r.nodeAttributes g options) := by
  rw [node?, cutAt?_graph]
  simp only [Option.bind_eq_bind, Option.bind_some]
  rw [Grammar.vars, nodes?_lines, Option.bind_some, List.find?_map, Option.map_map]
  rfl

end FluentGrammar
