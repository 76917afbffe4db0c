import FluentGrammar.Proofs.Grammar.Renumbering
import FluentGrammar.Proofs.Text.Reread

/-! # The text format, there and back

    A grammar that can be written is read back from its text as the same grammar under other
    ids, and prints the same text again. Every grammar that was read from a text can be
    written, so reading, writing and reading again loses nothing.
-/

namespace FluentGrammar

variable {g : Grammar} {s : Scope} {r r' : Rule}

/-! ## From names to ids -/

/-- The id that the scope has for the name of a variable of the grammar. -/
def Scope.idFor (s : Scope) (g : Grammar) (i : Nat) : Nat :=
  match g.occurrences.find? (fun v => v.id == i) with
  | some v => ((s.known.lookup v.name).map (·.id)).getD i
  | none => i

theorem Scope.ReadsAs.eq_renumber (hnames : NamedAlike g.occurrences) {v w : Variable}
    (hv : v ∈ g.occurrences) (h : s.ReadsAs v w) : w = v.renumber (s.idFor g) := by
  obtain ⟨hname, hknows⟩ := h
  have hid : s.idFor g v.id = w.id := by
    unfold Scope.idFor
    cases hfind : g.occurrences.find? (fun u => u.id == v.id) with
    | none =>
      have hall := List.find?_eq_none.mp hfind v hv
      simp at hall
    | some u =>
      have hu := List.mem_of_find?_eq_some hfind
      have huv : u.id = v.id := by simpa using List.find?_some hfind
      have hlookup : s.known.lookup u.name = some w := by
        rw [hnames u hu v hv huv, ← hname]
        exact hknows
      simp only [hlookup, Option.map_some, Option.getD_some]
  rw [Variable.renumber, hid, ← hname]

theorem Symbol.ReadAs.eq_renumber {x y : Symbol} (hnames : NamedAlike g.occurrences)
    (hx : ∀ v, x = .var v → v ∈ g.occurrences) (h : x.ReadAs s y) :
    y = x.renumber (s.idFor g) := by
  cases h with
  | term t => rfl
  | var hv =>
    rw [hv.eq_renumber hnames (hx _ rfl)]
    rfl

theorem eq_map_of_forall₂ {α β : Type} {R : α → β → Prop} {f : α → β} {xs : List α}
    {ys : List β} (h : List.Forall₂ R xs ys) (hf : ∀ x ∈ xs, ∀ y, R x y → y = f x) :
    ys = xs.map f := by
  induction h with
  | nil => rfl
  | @cons x y xs ys hxy _ ih =>
    rw [List.map_cons, ← hf x (List.mem_cons_self ..) y hxy,
      ← ih fun z hz => hf z (List.mem_cons_of_mem _ hz)]

/-- A rule that is read back is the rule under the ids of the scope. -/
theorem Rule.ReadAs.eq_renumber (hnames : NamedAlike g.occurrences) (hr : r ∈ g.rules)
    (h : r.ReadAs s r') : r' = r.renumber (s.idFor g) := by
  have hlhs := Grammar.lhs_mem_occurrences hr
  have hmem := fun {v} => Grammar.reference_mem_occurrences (g := g) (v := v) hr
  cases h with
  | selection hl halternatives =>
    rw [Rule.renumber, hl.eq_renumber hnames hlhs]
    congr 1
    exact eq_map_of_forall₂ halternatives fun v hv w hvw => hvw.eq_renumber hnames (hmem hv)
  | derivation hl hrhs =>
    rw [Rule.renumber, hl.eq_renumber hnames hlhs]
    congr 1
    refine eq_map_of_forall₂ hrhs fun x hx y hxy => hxy.eq_renumber hnames ?_
    rintro v rfl
    exact hmem (Rule.mem_references_derivation.mpr hx)

/-- Different variables are known under different ids, when all of them are known. -/
theorem Scope.Sound.keepsApart (hs : s.Sound) (hg : g.Writable)
    (hread : ∀ r ∈ g.rules, ∃ w, s.ReadsAs r.lhs w) : KeepsApart (s.idFor g) g.rules := by
  intro i hi j hj hij
  obtain ⟨r, hr, rfl⟩ := mem_ruleIds.mp hi
  obtain ⟨q, hq, rfl⟩ := mem_ruleIds.mp hj
  obtain ⟨v, hv⟩ := hread r hr
  obtain ⟨w, hw⟩ := hread q hq
  have hlhs := Grammar.lhs_mem_occurrences hr
  have hlhs' := Grammar.lhs_mem_occurrences hq
  have hvw : v = w := by
    refine hs.apart v w hv.2 hw.2 ?_
    rw [hv.eq_renumber hg.named_alike hlhs, hw.eq_renumber hg.named_alike hlhs']
    exact hij
  exact hg.told_by_name _ hlhs _ hlhs' (by rw [← hv.1, ← hw.1, hvw])

/-- Rules that are read as those of a valid grammar make up that grammar under other ids. -/
theorem Grammar.Valid.ofRules_readAs {start : Variable} {rules rules' : List Rule}
    (hg : g.Valid) (hw : g.Writable) (hs : s.Sound) (hperm : rules.Perm g.rules)
    (hstart : s.ReadsAs g.start start) (hread : List.Forall₂ (Rule.ReadAs s) rules rules') :
    ∃ f, KeepsApart f g.rules ∧ Grammar.ofRules start rules' = .ok (g.renumber f) := by
  have hrules : rules' = rules.map (Rule.renumber (s.idFor g)) :=
    eq_map_of_forall₂ hread fun r hr r' hrr' =>
      hrr'.eq_renumber hw.named_alike (hperm.mem_iff.mp hr)
  have hapart : KeepsApart (s.idFor g) g.rules := by
    refine hs.keepsApart hw fun r hr => ?_
    obtain ⟨r', -, hrr'⟩ := exists_matched_right hread (hperm.mem_iff.mpr hr)
    cases hrr' with
    | selection hlhs _ => exact ⟨_, hlhs⟩
    | derivation hlhs _ => exact ⟨_, hlhs⟩
  have hperm' : rules'.Perm (g.rules.map (Rule.renumber (s.idFor g))) := by
    rw [hrules]
    exact hperm.map _
  refine ⟨s.idFor g, hapart, ?_⟩
  rw [hstart.eq_renumber hw.named_alike Grammar.start_mem_occurrences]
  exact hg.ofRules_renumber hw.told_by_name hapart hperm'

/-! ## Reading what was written -/

theorem Grammar.rulesStartFirst_perm (g : Grammar) : g.rulesStartFirst.Perm g.rules :=
  List.filter_append_perm (fun r : Rule => r.lhs == g.start) g.rules

/-- The lines of a written grammar have nothing to trim, and neither comments nor line feeds. -/
theorem Grammar.Writable.linePiece_textLines (hw : g.Writable) (hg : g.Valid) :
    ∀ line ∈ g.textLines, LinePiece line.toList := by
  refine List.forall_mem_cons.mpr
    ⟨linePiece_startLine (hw.names _ Grammar.start_mem_occurrences), ?_⟩
  intro line hline
  obtain ⟨r, hr, rfl⟩ := List.mem_map.mp hline
  have hr := g.rulesStartFirst_perm.mem_iff.mp hr
  exact linePiece_rule (hw.rule hr) (hg.well_formed.chooses hr).ne_empty

/-- A valid grammar that can be written is read back as it is, under other ids. -/
theorem Grammar.Writable.read_text (hw : g.Writable) (hg : g.Valid) :
    ∃ f, KeepsApart f g.rules ∧ Grammar.read g.text = .ok (g.renumber f) := by
  have hmem : ∀ {r}, r ∈ g.rulesStartFirst ↔ r ∈ g.rules := g.rulesStartFirst_perm.mem_iff
  have hrules : ∀ r ∈ g.rulesStartFirst, r.Writable ∧ r.Chooses := fun r hr =>
    ⟨hw.rule (hmem.mp hr), hg.well_formed.chooses (hmem.mp hr)⟩
  have hstart := hw.names _ Grammar.start_mem_occurrences
  -- Every line is read: the start line first, then the rules.
  have hlines : Text.lines g.text.toList = (startLine g.start).toList ::
      g.rulesStartFirst.map (fun r => r.text.toList) := by
    rw [lines_text (hw.linePiece_textLines hg), Grammar.textLines, List.map_cons, List.map_map]
    rfl
  obtain ⟨start, s₁, hfirst, hgrows₁, hstart₁⟩ :=
    readLine_start [] 1 (Scope.sound_fresh .fresh) hstart
  obtain ⟨rules, s, hrest, hgrows, hread⟩ :=
    readLines_rules ⟨some start, []⟩ 2 hgrows₁.sound hrules
  have hrun : readLines ⟨none, []⟩ 1 (Text.lines g.text.toList) ⟨.fresh, []⟩ =
      .ok ⟨some start, rules⟩ s := by
    rw [hlines, readLines]
    exact bind_eq_ok.mpr ⟨_, s₁, hfirst, hrest⟩
  -- What was read is the grammar under the ids that the scope has for its names.
  obtain ⟨f, hf, hgrammar⟩ := hg.ofRules_readAs hw hgrows.sound g.rulesStartFirst_perm
    (hgrows.readsAs hstart₁) hread
  refine ⟨f, hf, ?_⟩
  unfold Grammar.read Grammar.readWith
  simp only [EStateM.run, hrun]
  exact Draft.grammar_eq_ok.mpr ⟨start, rfl, hgrammar⟩

/-! ## Texts and their grammars -/

theorem Grammar.read_of_declared {text : String} (hg : g.Valid)
    (h : ((readLines ⟨none, []⟩ 1 (Text.lines text.toList)).run' ⟨.fresh, []⟩).map
      (fun draft => (draft.start.or (draft.rules.head?.map Rule.lhs), draft.rules)) =
        some (some g.start, g.rules)) : Grammar.read text = .ok g :=
  Grammar.readWith_of_declared hg h

/-- A text that is read gives a grammar whose own text is read as well: as the same grammar
    under other ids, which prints that text again. Names tell the variables apart, so the
    rule of each name is the same in both. -/
theorem read_text_of_read {text : String} (h : Grammar.read text = .ok g) :
    (g.vars.map (·.name)).Nodup ∧
      ∃ f, KeepsApart f g.rules ∧ Grammar.read g.text = .ok (g.renumber f) ∧
        (g.renumber f).text = g.text := by
  obtain ⟨hg, hw⟩ := Grammar.writable_of_read h
  obtain ⟨f, hf, hread⟩ := hw.read_text hg
  refine ⟨?_, f, hf, hread, Grammar.text_renumber hg hf⟩
  have hnames := hg.name_ne hw.told_by_name
  rw [Grammar.vars, List.map_map, List.Nodup, List.pairwise_map]
  exact hnames

/-- A selection and two calls, written with few blanks and a comment. -/
def denseText : String :=
  "A::=B|C # one of two\n B ::= f( int  n,s t )\n\nC ::=\n"

/-- The grammar of `denseText`. -/
def denseGrammar : Grammar :=
  ⟨⟨0, "A"⟩, [.selection ⟨0, "A"⟩ [⟨1, "B"⟩, ⟨2, "C"⟩],
    .derivation ⟨1, "B"⟩ [.term ⟨"f", [⟨"int", "n"⟩, ⟨"s", "t"⟩]⟩],
    .derivation ⟨2, "C"⟩ []]⟩

theorem read_denseText : Grammar.read denseText = .ok denseGrammar :=
  Grammar.read_of_declared (Grammar.valid_of_pairwise (by decide) (by decide))
    (by decide +kernel)

/-- What was written densely is written in one way only afterwards. -/
theorem denseText_read_again :
    Grammar.read denseText = .ok denseGrammar ∧
      (denseGrammar.vars.map (·.name)).Nodup ∧
      ∃ f, KeepsApart f denseGrammar.rules ∧
        Grammar.read denseGrammar.text = .ok (denseGrammar.renumber f) ∧
        (denseGrammar.renumber f).text = denseGrammar.text :=
  ⟨read_denseText, read_text_of_read read_denseText⟩

end FluentGrammar
