import FluentGrammar.Proofs.Text.Layout
import FluentGrammar.Proofs.Text.RoundTrip
import FluentGrammar.Report.Annotated

/-! # Annotated text is the same grammar

    Comments say nothing when a text is read, and a tag without a line feed in it stays in the
    comment that it was put in. The variable of a line is found again by its name, which no
    other variable has, so the comment holds the tag of just this variable.
-/

namespace FluentGrammar

variable {g : Grammar} {tags : Tagging} {tag : Tag} {r : Rule}

/-! ## Tags in one line -/

/-- No name in the tag contains a line feed. -/
structure Tag.InOneLine (tag : Tag) : Prop where
  node : ∀ node ∈ tag.node?, '\n' ∉ node.toList
  required : ∀ p ∈ tag.required, '\n' ∉ p.type.toList ∧ '\n' ∉ p.name.toList
  implicit : ∀ v ∈ tag.implicit, '\n' ∉ v.name.toList

theorem of_mem_intercalate {α : Type} {separator : List α} {xs : List (List α)} {c : α}
    (h : c ∈ separator.intercalate xs) : c ∈ separator ∨ ∃ x ∈ xs, c ∈ x := by
  cases xs with
  | nil => cases h
  | cons x xs =>
    rw [intercalate_cons] at h
    rcases List.mem_append.mp h with h | h
    · exact Or.inr ⟨x, List.mem_cons_self .., h⟩
    · obtain ⟨y, hy, h⟩ := List.mem_flatMap.mp h
      rcases List.mem_append.mp h with h | h
      · exact Or.inl h
      · exact Or.inr ⟨y, List.mem_cons_of_mem _ hy, h⟩

theorem not_mem_append {front back : String} {c : Char} (hfront : c ∉ front.toList)
    (hback : c ∉ back.toList) : c ∉ (front ++ back).toList := by
  rw [String.toList_append, List.mem_append, not_or]
  exact ⟨hfront, hback⟩

theorem feed_not_mem_bracketedList {words : List String} (h : ∀ w ∈ words, '\n' ∉ w.toList) :
    '\n' ∉ (Tag.bracketedList words).toList := by
  have hwords : '\n' ∉ (String.intercalate ", " words).toList := by
    rw [String.toList_intercalate]
    intro hmem
    rcases of_mem_intercalate hmem with hmem | ⟨cs, hcs, hmem⟩
    · exact absurd hmem (by decide)
    · obtain ⟨w, hw, rfl⟩ := List.mem_map.mp hcs
      exact h w hw hmem
  exact not_mem_append (not_mem_append (by decide) hwords) (by decide)

/-- A tag with no line feed in its names is written in one line. -/
theorem Tag.InOneLine.feed_not_mem_text (h : tag.InOneLine) : '\n' ∉ tag.text.toList := by
  cases tag with
  | full node => exact not_mem_append (by decide) (h.node node rfl)
  | partialSelection node required =>
    have htypes : ∀ w ∈ required.map (·.type), '\n' ∉ w.toList :=
      List.forall_mem_map.mpr fun p hp => (h.required p hp).1
    exact not_mem_append (not_mem_append (not_mem_append (by decide) (h.node node rfl))
      (by decide)) (feed_not_mem_bracketedList htypes)
  | partialDerivation node required implicit =>
    have hnames : ∀ w ∈ required.map (·.name), '\n' ∉ w.toList :=
      List.forall_mem_map.mpr fun p hp => (h.required p hp).2
    have himplicit : ∀ w ∈ implicit.map (·.name), '\n' ∉ w.toList :=
      List.forall_mem_map.mpr h.implicit
    refine not_mem_append (not_mem_append (not_mem_append (not_mem_append (by decide)
      (h.node node rfl)) (by decide)) (feed_not_mem_bracketedList hnames)) ?_
    split
    · decide
    · exact not_mem_append (by decide) (feed_not_mem_bracketedList himplicit)
  | bridge => decide

/-! ## Annotated lines -/

/-- The line of a rule with the tag of its variable, if there is one, in a comment. -/
def Rule.annotatedText (tags : Tagging) (r : Rule) : String :=
  match tags.tag? r.lhs with
  | some tag => Text.padRight commentColumn r.text ++ " # " ++ tag.text
  | none => r.text

/-- The lines of a grammar with the tags in comments. -/
def Grammar.annotatedLines (g : Grammar) (tags : Tagging) : List String :=
  startLine g.start :: g.rulesStartFirst.map (Rule.annotatedText tags)

theorem toList_padRight (width : Nat) (text : String) :
    (Text.padRight width text).toList =
      text.toList ++ List.replicate (width - text.length) ' ' := by
  have hpush : ∀ n, ("".pushn ' ' n).toList = List.replicate n ' ' := by
    intro n
    induction n with
    | zero => rfl
    | succ n ih =>
      have hstep : "".pushn ' ' (n + 1) = ("".pushn ' ' n).push ' ' := rfl
      rw [hstep, String.toList_push, ih, List.replicate_succ']
  rw [Text.padRight, String.toList_append, hpush]

/-- The variable of a rule is found by its name. -/
theorem Grammar.variableNamed?_lhs (hg : g.Valid) (hw : g.Writable) (hr : r ∈ g.rules) :
    g.variableNamed? r.lhs.name = some r.lhs := by
  have hmem : r.lhs ∈ g.vars := List.mem_map_of_mem hr
  cases hfind : g.variableNamed? r.lhs.name with
  | none =>
    have hnone := List.find?_eq_none.mp hfind _ hmem
    simp at hnone
  | some v =>
    -- Whatever is found has the name, which belongs to one variable only.
    have hname : v.name = r.lhs.name := by simpa using List.find?_some hfind
    have hnodup := hg.nodup_names hw.told_by_name
    rw [List.inj_on_of_nodup_map hnodup (List.mem_of_find?_eq_some hfind) hmem hname]

/-- The line of a rule is annotated with the tag of its variable. -/
theorem Grammar.annotateLine_rule (hg : g.Valid) (hw : g.Writable) (hr : r ∈ g.rules) :
    g.annotateLine tags r.text.toList = r.annotatedText tags := by
  -- No blank stands in a name, so the line is cut behind the left-hand side.
  have hspace : ' ' ∉ r.lhs.name.toList := fun hmem =>
    absurd (isWhiteSpace_of_continuesIdentifier (continuesIdentifier_of_mem
      (isIdentifier_of_isVariableName (hw.rule hr).lhs) ' ' hmem)) (by decide)
  have hcut : Text.cutAt? " ::=".toList r.text.toList =
      some (r.lhs.name.toList, r.body.toList) := by
    rw [Rule.text_toList]
    exact Text.cutAt?_append hspace r.body.toList
  have htag : g.lineTag? tags r.text.toList = tags.tag? r.lhs := by
    unfold Grammar.lineTag?
    simp only [hcut, Option.bind_eq_bind, Option.bind_some, String.ofList_toList,
      Grammar.variableNamed?_lhs hg hw hr]
  unfold Grammar.annotateLine Rule.annotatedText
  cases hlookup : tags.tag? r.lhs with
  | none => simp only [htag, hlookup, String.ofList_toList]
  | some tag => simp only [htag, hlookup, String.ofList_toList]

/-- The start line is not annotated. -/
theorem Grammar.annotateLine_startLine (h : isVariableName g.start.name = true) :
    g.annotateLine tags (startLine g.start).toList = startLine g.start := by
  -- There is no colon in the line, so there is no mark to cut it at.
  have hcolon : ':' ∉ (startLine g.start).toList := by
    refine not_mem_append (by decide) fun hmem => ?_
    exact not_mem_marks_of_continuesIdentifier (continuesIdentifier_of_mem
      (isIdentifier_of_isVariableName h) ':' hmem) (by decide)
  have hcut : Text.cutAt? " ::=".toList (startLine g.start).toList = none := by
    cases hcut : Text.cutAt? " ::=".toList (startLine g.start).toList with
    | none => rfl
    | some pieces =>
      obtain ⟨name, body⟩ := pieces
      rw [Text.eq_append_of_cutAt? hcut] at hcolon
      exact absurd (List.mem_append_left _ (List.mem_append_right _ (by decide))) hcolon
  have htag : g.lineTag? tags (startLine g.start).toList = none := by
    unfold Grammar.lineTag?
    rw [hcut]
    rfl
  rw [Grammar.annotateLine, htag, String.ofList_toList]

/-- The annotated text is made of annotated lines. -/
theorem Grammar.annotatedText_eq (hg : g.Valid) (hw : g.Writable) :
    g.annotatedText tags = String.join ((g.annotatedLines tags).map (· ++ "\n")) := by
  have hrules : g.rulesStartFirst.map (fun r => g.annotateLine tags r.text.toList) =
      g.rulesStartFirst.map (Rule.annotatedText tags) :=
    List.map_congr_left fun r hr =>
      Grammar.annotateLine_rule hg hw (g.rulesStartFirst_perm.mem_iff.mp hr)
  have hstart : g.annotateLine tags (startLine g.start).toList = startLine g.start :=
    Grammar.annotateLine_startLine (hw.names _ Grammar.start_mem_occurrences)
  have hlines : (Text.lines g.text.toList).map (g.annotateLine tags) = g.annotatedLines tags := by
    rw [lines_text (hw.linePiece_textLines hg), Grammar.textLines, List.map_map, List.map_cons,
      List.map_map, Grammar.annotatedLines, ← hrules, ← hstart]
    rfl
  rw [← hlines, List.map_map]
  rfl

/-! ## Reading annotated text -/

theorem Rule.feed_not_mem_annotatedText (hr : LinePiece r.text.toList)
    (htags : ∀ tag, tags.tag? r.lhs = some tag → tag.InOneLine) :
    '\n' ∉ (r.annotatedText tags).toList := by
  have hline : '\n' ∉ r.text.toList := fun hmem => (hr.clean '\n' hmem).2 rfl
  unfold Rule.annotatedText
  split
  · rename_i tag htag
    refine not_mem_append (not_mem_append ?_ (by decide)) (htags tag htag).feed_not_mem_text
    rw [toList_padRight, List.mem_append, not_or]
    exact ⟨hline, fun hmem => absurd (List.eq_of_mem_replicate hmem) (by decide)⟩
  · exact hline

/-- The content of an annotated line is the rule. -/
theorem Rule.lineContent_annotatedText (hr : LinePiece r.text.toList) :
    lineContent (r.annotatedText tags).toList = r.text.toList := by
  unfold Rule.annotatedText
  split
  · rename_i tag htag
    have hnone : AllBlank [] := by decide
    have hclean : '#' ∉ r.text.toList := fun hmem => (hr.clean '#' hmem).1 rfl
    have hblank : AllBlank (List.replicate (commentColumn - r.text.length) ' ' ++ [' ']) :=
      List.forall_mem_append.mpr
        ⟨fun c hc => List.eq_of_mem_replicate hc ▸ isWhiteSpace_space,
          List.forall_mem_singleton.mpr isWhiteSpace_space⟩
    have hcomment : IsComment ('#' :: ' ' :: tag.text.toList) := by
      rintro _ ⟨⟩
      rfl
    have hcontent := lineContent_eq hnone hr.trimmed hclean hblank hcomment
    rw [String.toList_append, String.toList_append, toList_padRight,
      show " # ".toList = [' '] ++ ['#', ' '] from rfl]
    simpa only [List.nil_append, List.append_assoc, List.cons_append] using hcontent
  · exact hr.lineContent

/-- The first comment mark of an annotated line stands in front of the tag. -/
theorem Rule.cutAt?_annotatedText (hr : LinePiece r.text.toList)
    (htag : tags.tag? r.lhs = some tag) :
    Text.cutAt? "# ".toList (r.annotatedText tags).toList =
      some ((Text.padRight commentColumn r.text ++ " ").toList, tag.text.toList) := by
  have hcomment : '#' ∉ (Text.padRight commentColumn r.text ++ " ").toList := by
    refine not_mem_append ?_ (by decide)
    rw [toList_padRight, List.mem_append, not_or]
    exact ⟨fun hmem => (hr.clean '#' hmem).1 rfl,
      fun hmem => absurd (List.eq_of_mem_replicate hmem) (by decide)⟩
  have hline : (r.annotatedText tags).toList =
      (Text.padRight commentColumn r.text ++ " ").toList ++ ("# ".toList ++ tag.text.toList) := by
    unfold Rule.annotatedText
    simp only [htag, String.toList_append, List.append_assoc]
    rfl
  rw [hline]
  exact Text.cutAt?_append hcomment tag.text.toList

/-- The contents of lines that a line feed ends each. -/
theorem lineContents_joinLines {lines : List String} (h : ∀ line ∈ lines, '\n' ∉ line.toList) :
    lineContents (String.join (lines.map (· ++ "\n"))) =
      lines.map (fun line => lineContent line.toList) := by
  rw [lineContents, toList_joinLines,
    Text.lines_flatMap_feed (List.forall_mem_map.mpr h), List.map_map, List.map_map]
  exact List.map_congr_left fun line _ => lineContent_dropReturn line.toList

/-- The text without comments and the annotated text have the same contents. -/
theorem Grammar.lineContents_annotatedText (hg : g.Valid) (hw : g.Writable)
    (htags : ∀ v tag, tags.tag? v = some tag → tag.InOneLine) :
    lineContents (g.annotatedText tags) = lineContents g.text ∧
      ∀ line ∈ g.annotatedLines tags, '\n' ∉ line.toList := by
  have hpieces := hw.linePiece_textLines hg
  have hrules : ∀ r ∈ g.rulesStartFirst, LinePiece r.text.toList := fun r hr =>
    hpieces _ (List.mem_cons_of_mem _ (List.mem_map_of_mem hr))
  have hstart : LinePiece (startLine g.start).toList := hpieces _ (List.mem_cons_self ..)
  have hfeed : ∀ {lines : List String}, (∀ line ∈ lines, LinePiece line.toList) →
      ∀ line ∈ lines, '\n' ∉ line.toList := fun h line hline hmem =>
    ((h line hline).clean '\n' hmem).2 rfl
  have hannotated : ∀ line ∈ g.annotatedLines tags, '\n' ∉ line.toList := by
    refine List.forall_mem_cons.mpr ⟨fun hmem => (hstart.clean '\n' hmem).2 rfl, ?_⟩
    exact List.forall_mem_map.mpr fun r hr =>
      Rule.feed_not_mem_annotatedText (hrules r hr) (htags r.lhs)
  refine ⟨?_, hannotated⟩
  rw [Grammar.annotatedText_eq hg hw, lineContents_joinLines hannotated, Grammar.text,
    lineContents_joinLines (hfeed hpieces), Grammar.annotatedLines, Grammar.textLines,
    List.map_cons, List.map_cons, List.map_map, List.map_map]
  congr 1
  exact List.map_congr_left fun r hr =>
    (Rule.lineContent_annotatedText (hrules r hr)).trans (hrules r hr).lineContent.symm

/-- The annotated text of a grammar that was read is read as the text without comments is, ids
    included. It consists of the start line and a line for each rule, and what stands behind
    the first `# ` on the line of a rule is the tag of the variable of this rule. -/
theorem read_annotatedText {text : String} (h : Grammar.read text = .ok g)
    (htags : ∀ entry ∈ tags.entries, entry.2.InOneLine) :
    (∃ g', Grammar.read g.text = .ok g' ∧ Grammar.read (g.annotatedText tags) = .ok g') ∧
      (g.annotatedText tags = String.join ((g.annotatedLines tags).map (· ++ "\n")) ∧
        ∀ line ∈ g.annotatedLines tags, '\n' ∉ line.toList) ∧
      ∀ r ∈ g.rules, r.annotatedText tags ∈ g.annotatedLines tags ∧
        ∀ tag, tags.tag? r.lhs = some tag →
          Text.cutAt? "# ".toList (r.annotatedText tags).toList =
            some ((Text.padRight commentColumn r.text ++ " ").toList, tag.text.toList) := by
  obtain ⟨hg, hw⟩ := Grammar.writable_of_read h
  have hlookup : ∀ v tag, tags.tag? v = some tag → tag.InOneLine := by
    intro v tag htag
    obtain ⟨entry, hfind, rfl⟩ := Option.map_eq_some_iff.mp htag
    exact htags entry (List.mem_of_find?_eq_some hfind)
  obtain ⟨hsame, hfeed⟩ := Grammar.lineContents_annotatedText hg hw hlookup
  obtain ⟨f, hf, hread⟩ := hw.read_text hg
  -- Only the contents of the lines matter to the reader, and comments are none of it.
  have hannotated : Grammar.read (g.annotatedText tags) = .ok (g.renumber f) := by
    refine Grammar.read_of_declares_alike hread fun ds hds => ?_
    rw [hsame]
    exact hds
  refine ⟨⟨_, hread, hannotated⟩, ⟨Grammar.annotatedText_eq hg hw, hfeed⟩, fun r hr => ?_⟩
  have hmem := g.rulesStartFirst_perm.mem_iff.mpr hr
  have hpiece : LinePiece r.text.toList :=
    hw.linePiece_textLines hg _ (List.mem_cons_of_mem _ (List.mem_map_of_mem hmem))
  exact ⟨List.mem_cons_of_mem _ (List.mem_map_of_mem hmem),
    fun tag htag => Rule.cutAt?_annotatedText hpiece htag⟩

/-- Tags for two of the variables of `denseGrammar`. -/
def denseTags : Tagging :=
  ⟨[(⟨1, "B"⟩, .partialDerivation "Node" [⟨"int", "n"⟩] [⟨2, "C"⟩]), (⟨2, "C"⟩, .full "C # C")]⟩

/-- A comment mark in a tag does no harm. -/
theorem denseGrammar_annotated :
    (∀ entry ∈ denseTags.entries, entry.2.InOneLine) ∧
      (∃ g', Grammar.read denseGrammar.text = .ok g' ∧
        Grammar.read (denseGrammar.annotatedText denseTags) = .ok g') ∧
      ∃ front, Text.cutAt? "# ".toList
          ((Rule.derivation ⟨2, "C"⟩ []).annotatedText denseTags).toList =
        some (front, "full C # C".toList) := by
  have htags : ∀ entry ∈ denseTags.entries, entry.2.InOneLine := by
    intro entry hentry
    simp only [denseTags, List.mem_cons, List.not_mem_nil, or_false] at hentry
    rcases hentry with rfl | rfl
    · exact ⟨by decide, by decide, by decide⟩
    · exact ⟨by decide, by decide, by decide⟩
  obtain ⟨hread, -, hlines⟩ := read_annotatedText read_denseText htags
  exact ⟨htags, hread, _,
    (hlines (.derivation ⟨2, "C"⟩ []) (by decide)).2 (.full "C # C") (by decide)⟩

end FluentGrammar
