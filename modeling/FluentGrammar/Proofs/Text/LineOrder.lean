import FluentGrammar.Proofs.Text.Layout
import FluentGrammar.Proofs.Text.RoundTrip

/-! # Lines in another order

    The order of the lines of a text decides which names appear first, and so which ids they
    get. It does not decide what the names stand for: what the lines declare is told by name,
    and the rules of a grammar are put in order when it is made. So a text that names its start
    variable is read, in any order of its lines, as the same grammar under other ids, and ids
    are not printed.
-/

namespace FluentGrammar

variable {s s' : Scope} {draft draft' : Draft} {line : Nat} {name : String} {ts : List Token}
  {ds ds' : List Declaration} {start start' : Option Variable} {rules rules' : List Rule}

/-! ## Declarations in another order -/

theorem ContentsDeclare.perm {contents contents' : List (List Char)}
    (h : ContentsDeclare contents ds) (hperm : contents.Perm contents') :
    ∃ ds', ds.Perm ds' ∧ ContentsDeclare contents' ds' := by
  induction hperm generalizing ds with
  | nil => exact ⟨ds, .refl _, h⟩
  | cons content _ ih =>
    cases h with
    | blank h =>
      obtain ⟨ds', hds, h'⟩ := ih h
      exact ⟨ds', hds, .blank h'⟩
    | cons hd h =>
      obtain ⟨ds', hds, h'⟩ := ih h
      exact ⟨_ :: ds', hds.cons _, .cons hd h'⟩
  | swap =>
    -- Lines that are exchanged may both declare something, or one of them, or none.
    cases h with
    | blank h =>
      cases h with
      | blank h => exact ⟨_, .refl _, .blank (.blank h)⟩
      | cons hd h => exact ⟨_, .refl _, .cons hd (.blank h)⟩
    | cons hd h =>
      cases h with
      | blank h => exact ⟨_, .refl _, .blank (.cons hd h)⟩
      | cons hd' h => exact ⟨_, .swap .., .cons hd' (.cons hd h)⟩
  | trans _ _ ih ih' =>
    obtain ⟨ds₁, hds₁, h₁⟩ := ih h
    obtain ⟨ds₂, hds₂, h₂⟩ := ih' h₁
    exact ⟨ds₂, hds₁.trans hds₂, h₂⟩

theorem ContentsDeclare.start_mem {contents : List (List Char)} {content name : List Char}
    (h : ContentsDeclare contents ds) (hcontent : content ∈ contents)
    (hname : startName? content = some name) : .start (String.ofList name) ∈ ds := by
  induction h with
  | nil => cases hcontent
  | blank h ih =>
    rcases List.mem_cons.mp hcontent with rfl | hcontent
    · cases hname
    · exact ih hcontent
  | cons hd h ih =>
    rcases List.mem_cons.mp hcontent with rfl | hcontent
    · cases hd with
      | start hstart =>
        rw [hname] at hstart
        cases hstart
        exact List.mem_cons_self ..
      | rule hstart =>
        rw [hname] at hstart
        cases hstart
    · exact List.mem_cons_of_mem _ (ih hcontent)

/-! ## What declarations come to -/

/-- The declarations come to a start variable, if one of them names it, and to rules. -/
inductive Scope.Yields (s : Scope) :
    List Declaration → Option Variable → List Rule → Prop where
  | nil : Yields s [] none []
  | start {v : Variable} {ds : List Declaration} {rules : List Rule} (hv : s.Knows v)
      (h : Yields s ds none rules) : Yields s (.start v.name :: ds) (some v) rules
  | rule {lhs : Variable} {ts : List Token} {r : Rule} {ds : List Declaration}
      {start : Option Variable} {rules : List Rule} (hlhs : s.Knows lhs)
      (hr : s.MeansRule lhs ts r) (h : Yields s ds start rules) :
      Yields s (.rule lhs.name ts :: ds) start (r :: rules)

namespace Scope.Yields

theorem perm (h : s.Yields ds start rules) (hperm : ds.Perm ds') :
    ∃ rules', rules.Perm rules' ∧ s.Yields ds' start rules' := by
  induction hperm generalizing start rules with
  | nil => exact ⟨rules, .refl _, h⟩
  | cons d _ ih =>
    cases h with
    | start hv h =>
      obtain ⟨rules', hrules, h'⟩ := ih h
      exact ⟨rules', hrules, .start hv h'⟩
    | rule hlhs hr h =>
      obtain ⟨rules', hrules, h'⟩ := ih h
      exact ⟨_ :: rules', hrules.cons _, .rule hlhs hr h'⟩
  | swap =>
    -- Two start variables are never declared.
    cases h with
    | start hv h =>
      cases h with
      | rule hlhs hr h => exact ⟨_, .refl _, .rule hlhs hr (.start hv h)⟩
    | rule hlhs hr h =>
      cases h with
      | start hv h => exact ⟨_, .refl _, .start hv (.rule hlhs hr h)⟩
      | rule hlhs' hr' h => exact ⟨_, .swap .., .rule hlhs' hr' (.rule hlhs hr h)⟩
  | trans _ _ ih ih' =>
    obtain ⟨rules₁, hrules₁, h₁⟩ := ih h
    obtain ⟨rules₂, hrules₂, h₂⟩ := ih' h₁
    exact ⟨rules₂, hrules₁.trans hrules₂, h₂⟩

theorem exists_start (h : s.Yields ds start rules) (hmem : .start name ∈ ds) :
    ∃ v, start = some v := by
  induction h with
  | nil => cases hmem
  | @start v _ _ _ _ _ => exact ⟨v, rfl⟩
  | rule _ _ _ ih => exact ih ((List.mem_cons.mp hmem).resolve_left fun heq => nomatch heq)

end Scope.Yields

/-! ## Rules of the same tokens -/

/-- In two scopes, a token means the same symbol by name. -/
theorem Symbol.readAs_of_means {t : Token} {x y : Symbol} (hs : s.Sound) (hs' : s'.Sound)
    (hx : s.Means t x) (hy : s'.Means t y) : x.ReadAs s' y := by
  cases t with
  | bar => exact hx.elim
  | epsilon => exact hx.elim
  | name text params =>
    -- The capital at the beginning decides the same in both scopes.
    cases x with
    | term t =>
      obtain ⟨hnone, rfl⟩ := hx
      cases y with
      | term u =>
        obtain ⟨-, rfl⟩ := hy
        exact .term _
      | var w =>
        obtain ⟨-, rfl, hw⟩ := hy
        rw [beginsWithCapital_of_isVariableName (hs'.legal w hw)] at hnone
        cases hnone
    | var v =>
      obtain ⟨-, rfl, hv⟩ := hx
      cases y with
      | term u =>
        have hnone := hy.1
        rw [beginsWithCapital_of_isVariableName (hs.legal v hv)] at hnone
        cases hnone
      | var w => exact .var hy.2

/-- In two scopes, the tokens of a body mean the same rule by name. -/
theorem Rule.readAs_of_meansRule {lhs lhs' : Variable} {r r' : Rule} (hs : s.Sound)
    (hs' : s'.Sound) (hlhs : s'.ReadsAs lhs lhs') (h : s.MeansRule lhs ts r)
    (h' : s'.MeansRule lhs' ts r') : r.ReadAs s' r' := by
  -- The tokens alone decide which kind of rule they mean.
  cases h with
  | selection hbar hoffers =>
    cases h' with
    | selection hbar' hoffers' =>
      refine .selection hlhs (forall₂_trans hoffers.flip hoffers' ?_)
      rintro v piece w ⟨rfl, -⟩ ⟨hname, hw⟩
      simp only [List.cons.injEq, Token.name.injEq] at hname
      exact ⟨hname.1.1.symm, hw⟩
    | empty hts =>
      rw [hts] at hbar
      cases hbar
    | derivation hbar' =>
      rw [hbar] at hbar'
      cases hbar'
  | empty hts =>
    cases h' with
    | selection hbar' =>
      rw [hts] at hbar'
      cases hbar'
    | empty => exact .derivation hlhs .nil
    | derivation hbar' hepsilon => exact absurd (hts ▸ List.mem_cons_self ..) hepsilon
  | derivation hbar hepsilon hmeans =>
    cases h' with
    | selection hbar' =>
      rw [hbar] at hbar'
      cases hbar'
    | empty hts => exact absurd (hts ▸ List.mem_cons_self ..) hepsilon
    | derivation hbar' hepsilon' hmeans' =>
      exact .derivation hlhs (forall₂_trans hmeans.flip hmeans' fun _ _ _ =>
        Symbol.readAs_of_means hs hs')

/-- In two scopes, declarations come to the same by name. -/
theorem Scope.Yields.readAs (hs : s.Sound) (hs' : s'.Sound) (h : s.Yields ds start rules)
    (h' : s'.Yields ds start' rules') :
    Option.Rel s'.ReadsAs start start' ∧ List.Forall₂ (Rule.ReadAs s') rules rules' := by
  induction h generalizing start' rules' with
  | nil =>
    cases h'
    exact ⟨.none, .nil⟩
  | start hv h ih =>
    -- The name is what both scopes have in common.
    generalize hname : Variable.name _ = name at h'
    cases h' with
    | start hw h' => exact ⟨.some ⟨hname.symm, hw⟩, (ih h').2⟩
  | rule hlhs hr h ih =>
    generalize hname : Variable.name _ = name at h'
    cases h' with
    | rule hlhs' hr' h' =>
      obtain ⟨hstart, hrules⟩ := ih h'
      exact ⟨hstart, .cons (Rule.readAs_of_meansRule hs hs' ⟨hname.symm, hlhs'⟩ hr hr') hrules⟩

/-! ## Declaring -/

theorem Draft.declare_start_eq_ok : draft.declare line (.start name) s = .ok draft' s' ↔
    draft.start = none ∧
      ∃ v, variableNamed line name s = .ok v s' ∧ draft' = ⟨some v, draft.rules⟩ := by
  unfold Draft.declare
  simp only
  cases hstart : draft.start with
  | some u =>
    simp only [Option.isSome_some, if_true]
    exact ⟨fun h => by
      obtain ⟨_, _, hfail, -⟩ := bind_eq_ok.mp h
      exact (throw_eq_ok.mp hfail).elim, fun h => nomatch h.1⟩
  | none =>
    simp only [Option.isSome_none, Bool.false_eq_true, if_false, true_and]
    constructor
    · intro h
      obtain ⟨v, s₁, hv, h⟩ := bind_eq_ok.mp h
      obtain ⟨rfl, rfl⟩ := pure_eq_ok.mp h
      exact ⟨v, hv, rfl⟩
    · rintro ⟨v, hv, rfl⟩
      exact bind_eq_ok.mpr ⟨v, s', hv, rfl⟩

theorem Draft.declare_rule_eq_ok : draft.declare line (.rule name ts) s = .ok draft' s' ↔
    ∃ lhs s₁ r, variableNamed line name s = .ok lhs s₁ ∧
      ruleOfTokens line lhs ts s₁ = .ok r s' ∧ draft' = ⟨draft.start, draft.rules ++ [r]⟩ := by
  unfold Draft.declare
  simp only
  constructor
  · intro h
    obtain ⟨lhs, s₁, hlhs, h⟩ := bind_eq_ok.mp h
    obtain ⟨r, s₂, hr, h⟩ := bind_eq_ok.mp h
    obtain ⟨rfl, rfl⟩ := pure_eq_ok.mp h
    exact ⟨lhs, s₁, r, hlhs, hr, rfl⟩
  · rintro ⟨lhs, s₁, r, hlhs, hr, rfl⟩
    exact bind_eq_ok.mpr ⟨lhs, s₁, hlhs, bind_eq_ok.mpr ⟨r, s', hr, rfl⟩⟩

/-- What has been declared is what the declarations come to in the scope that is left. -/
theorem Draft.declareAll_ok (hs : s.Sound) (h : draft.declareAll ds s = .ok draft' s') :
    s.Grows s' ∧ ∃ start rules, s'.Yields ds start rules ∧
      (draft.start.isSome = true → start = none) ∧
      draft' = ⟨draft.start.or start, draft.rules ++ rules⟩ := by
  induction ds generalizing draft s with
  | nil =>
    obtain ⟨rfl, rfl⟩ := pure_eq_ok.mp h
    exact ⟨hs.grows, none, [], .nil, fun _ => rfl, by simp⟩
  | cons d ds ih =>
    obtain ⟨draft₁, s₁, hd, hrest⟩ := bind_eq_ok.mp h
    -- What the first one declares is still known when the others have been declared.
    cases d with
    | start name =>
      obtain ⟨hnone, v, hv, rfl⟩ := Draft.declare_start_eq_ok.mp hd
      obtain ⟨hgrows, hknows, rfl⟩ := variableNamed_ok hs hv
      obtain ⟨hgrows', start, rules, hyields, hstart, rfl⟩ := ih hgrows.sound hrest
      obtain rfl := hstart rfl
      refine ⟨hgrows.trans hgrows', some v, rules, .start (hgrows'.keeps v hknows) hyields, ?_, ?_⟩
      · rw [hnone]
        exact fun hsome => nomatch hsome
      · rw [hnone]
        rfl
    | rule name ts =>
      obtain ⟨lhs, s₂, r, hlhs, hr, rfl⟩ := Draft.declare_rule_eq_ok.mp hd
      obtain ⟨hgrows, hknows, rfl⟩ := variableNamed_ok hs hlhs
      obtain ⟨hgrows', hmeans⟩ := ruleOfTokens_ok hgrows.sound hr
      obtain ⟨hgrows'', start, rules, hyields, hstart, rfl⟩ := ih hgrows'.sound hrest
      refine ⟨(hgrows.trans hgrows').trans hgrows'', start, r :: rules, ?_, hstart, by simp⟩
      exact .rule ((hgrows'.trans hgrows'').keeps lhs hknows) (hgrows''.meansRule hmeans) hyields

/-- A token that means a symbol is read in every scope. -/
theorem readSymbol_succeeds_of_means {t : Token} {x : Symbol} (hs : s.Sound) (h : s.Means t x)
    (s' : Scope) : Succeeds (readSymbol line t) s' := by
  cases t with
  | bar => exact h.elim
  | epsilon => exact h.elim
  | name text params =>
    cases x with
    | term t =>
      simp only [readSymbol, h.1, Bool.not_false, if_true]
      exact Succeeds.pure _ _
    | var v =>
      obtain ⟨rfl, rfl, hv⟩ := h
      have hlegal := hs.legal v hv
      simp only [readSymbol, beginsWithCapital_of_isVariableName hlegal, Bool.not_true,
        Bool.false_eq_true, if_false, Option.isSome_none]
      exact (variableNamed_succeeds hlegal s').bind fun _ _ _ => Succeeds.pure _ _

/-- Tokens that mean a rule are read in every scope. -/
theorem ruleOfTokens_succeeds {lhs : Variable} {r : Rule} (hs : s.Sound)
    (h : s.MeansRule lhs ts r) (lhs' : Variable) (s' : Scope) :
    Succeeds (ruleOfTokens line lhs' ts) s' := by
  unfold ruleOfTokens
  cases h with
  | selection hbar hoffers =>
    simp only [hbar, if_true]
    refine (mapM_succeeds ?_ s').bind fun _ _ _ => Succeeds.pure _ _
    intro piece hpiece
    obtain ⟨v, -, rfl, hv⟩ := exists_matched_right hoffers hpiece
    exact readAlternative_succeeds (hs.legal v hv)
  | empty hts =>
    rw [hts]
    exact Succeeds.pure _ _
  | derivation hbar hepsilon hmeans =>
    -- The tokens mean a derivation, so none of the tests that come before it applies.
    have hne : (ts == [.epsilon]) = false := by
      rw [beq_eq_false_iff_ne]
      rintro rfl
      exact hepsilon (List.mem_cons_self ..)
    have hnone : ts.contains .epsilon = false := by simpa using hepsilon
    simp only [hbar, hne, hnone, Bool.false_eq_true, if_false]
    refine (mapM_succeeds ?_ s').bind fun _ _ _ => Succeeds.pure _ _
    intro t ht
    obtain ⟨x, -, hx⟩ := exists_matched_right hmeans ht
    exact readSymbol_succeeds_of_means hs hx

/-- Declarations that come to something succeed in every scope. -/
theorem Scope.Yields.declareAll_succeeds (hs : s.Sound) (h : s.Yields ds start rules)
    (draft : Draft) (hdraft : start.isSome = true → draft.start = none) (s' : Scope) :
    Succeeds (draft.declareAll ds) s' := by
  induction h generalizing draft s' with
  | nil => exact Succeeds.pure _ _
  | @start v ds rules hv h ih =>
    obtain ⟨w, s₁, hw⟩ : Succeeds (variableNamed 0 v.name) s' :=
      variableNamed_succeeds (hs.legal v hv) s'
    have hfirst : draft.declare 0 (.start v.name) s' = .ok ⟨some w, draft.rules⟩ s₁ :=
      Draft.declare_start_eq_ok.mpr ⟨hdraft rfl, w, hw, rfl⟩
    obtain ⟨draft', s₂, hrest⟩ := ih ⟨some w, draft.rules⟩ (fun hsome => nomatch hsome) s₁
    exact ⟨draft', s₂, bind_eq_ok.mpr ⟨_, s₁, hfirst, hrest⟩⟩
  | @rule lhs ts r ds start rules hlhs hr h ih =>
    obtain ⟨w, s₁, hw⟩ : Succeeds (variableNamed 0 lhs.name) s' :=
      variableNamed_succeeds (hs.legal lhs hlhs) s'
    obtain ⟨r', s₂, hr'⟩ : Succeeds (ruleOfTokens 0 w ts) s₁ := ruleOfTokens_succeeds hs hr w s₁
    have hfirst : draft.declare 0 (.rule lhs.name ts) s' =
        .ok ⟨draft.start, draft.rules ++ [r']⟩ s₂ :=
      Draft.declare_rule_eq_ok.mpr ⟨w, s₁, r', hw, hr', rfl⟩
    obtain ⟨draft', s₃, hrest⟩ := ih ⟨draft.start, draft.rules ++ [r']⟩ hdraft s₂
    exact ⟨draft', s₃, bind_eq_ok.mpr ⟨_, s₂, hfirst, hrest⟩⟩

/-! ## Texts -/

section Texts

variable {g : Grammar} {text text' : String}

/-- In another order of its lines, a text that names its start variable is read as the same
    grammar under other ids. -/
theorem Reordered.read_renumber (horder : Reordered text text') (hstart : HasStartLine text)
    (h : Grammar.read text = .ok g) :
    ∃ f, KeepsApart f g.rules ∧ Grammar.read text' = .ok (g.renumber f) := by
  obtain ⟨hg, hw⟩ := Grammar.writable_of_read h
  have hfresh := Scope.sound_fresh .fresh
  -- What the lines declare in their own order.
  obtain ⟨ds, hds⟩ := Grammar.exists_declares_of_read h
  obtain ⟨draft, s, hrun, hgrammar⟩ := (Grammar.read_eq_ok_iff hds).mp h
  obtain ⟨hgrows, start, rules, hyields, -, rfl⟩ := Draft.declareAll_ok hfresh hrun
  obtain ⟨content, hcontent, name, hname⟩ := hstart
  obtain ⟨v, rfl⟩ := hyields.exists_start (hds.start_mem hcontent hname)
  obtain ⟨w, hsome, hof⟩ := Draft.grammar_eq_ok.mp hgrammar
  obtain rfl : v = w := Option.some.inj hsome
  obtain rfl := Grammar.rules_of_ofRules hof
  -- In the other order they declare the same by name.
  obtain ⟨ds', hperm, hds'⟩ := hds.perm horder.symm
  obtain ⟨rules₁, hrules₁, hyields₁⟩ := hyields.perm hperm
  obtain ⟨draft', s', hrun'⟩ := hyields₁.declareAll_succeeds hgrows.sound ⟨none, []⟩
    (fun _ => rfl) ⟨.fresh, []⟩
  obtain ⟨hgrows', start', rules', hyields', -, rfl⟩ := Draft.declareAll_ok hfresh hrun'
  obtain ⟨hstart', hread⟩ := hyields₁.readAs hgrows.sound hgrows'.sound hyields'
  cases hstart' with
  | some hv =>
    have hsorted : rules₁.Perm (sortRules rules) :=
      hrules₁.symm.trans (sortOn_perm Rule.lhs rules).symm
    obtain ⟨f, hf, hof'⟩ := hg.ofRules_readAs hw hgrows'.sound hsorted hv hread
    refine ⟨f, hf, (Grammar.read_eq_ok_iff hds').mpr ⟨_, s', hrun', ?_⟩⟩
    exact Draft.grammar_eq_ok.mpr ⟨_, rfl, hof'⟩

/-- A text that is read is read as the same grammar, ids included, in every other layout; its
    own layout is one of them. If it has a start line, its lines can come in any order: the
    grammar that is read prints the same. -/
theorem read_relaid (h : Grammar.read text = .ok g) :
    Relaid text text ∧ (∀ text', Relaid text text' → Grammar.read text' = .ok g) ∧
      (HasStartLine text → ∀ text', Reordered text text' →
        ∃ g', Grammar.read text' = .ok g' ∧ g'.text = g.text) := by
  refine ⟨.refl_of_read h, fun text' hlayout => hlayout.read_eq h, ?_⟩
  intro hstart text' horder
  obtain ⟨f, hf, hread⟩ := horder.read_renumber hstart h
  exact ⟨_, hread, Grammar.text_renumber (Grammar.writable_of_read h).1 hf⟩

end Texts

/-- A text that names its start variable. -/
def startedText : String :=
  "start A\nA ::= B\nB ::= ε\n"

/-- The grammar of `startedText`. -/
def startedGrammar : Grammar :=
  ⟨⟨0, "A"⟩, [.derivation ⟨0, "A"⟩ [.var ⟨1, "B"⟩], .derivation ⟨1, "B"⟩ []]⟩

/-- The text of `startedText` with a blank line, a comment and further blanks. -/
def wideText : String :=
  "\nstart  A # the first one\nA ::= B\nB::=  ε\n"

theorem read_startedText : Grammar.read startedText = .ok startedGrammar :=
  Grammar.read_of_declared (Grammar.valid_of_pairwise (by decide) (by decide))
    (by decide +kernel)

theorem relaid_wideText : Relaid startedText wideText := by
  have hlast : ∀ {c : Char}, Text.isWhiteSpace c = false →
      ∀ d ∈ some c, Text.isWhiteSpace d = false := by
    rintro c hc _ ⟨⟩
    exact hc
  have hstart : RelaidLine ([] ++ ("start".toList ++ ([' '] ++ "A".toList) ++ []) ++ [])
      ([] ++ ("start".toList ++ ([' ', ' '] ++ "A".toList) ++ [' ']) ++
        "# the first one".toList) :=
    .start (by decide) (by decide) (by decide) (by decide) (by decide) (by decide) (by decide)
      (by decide) (by decide)
  have hcall : RelaidLine
      ([] ++ ("A".toList ++ ([' '] ++ ("::=".toList ++ ' ' :: ("B".toList ++ []))) ++ []) ++ [])
      ([] ++ ("A".toList ++ ([' '] ++ ("::=".toList ++ ' ' :: ("B".toList ++ []))) ++ []) ++ []) :=
    .rule (by decide) (by decide) (by decide) (by decide) (by decide)
      (.kept (by decide) (.identifier (by decide) (fun _ hc => nomatch hc) .nil))
      (hlast (by decide)) (hlast (by decide)) (by decide) (by decide) (by decide) (by decide)
  have hrule : RelaidLine
      ([] ++ ("B".toList ++ ([' '] ++ ("::=".toList ++ [' ', 'ε'])) ++ []) ++ [])
      ([] ++ ("B".toList ++ ([] ++ ("::=".toList ++ [' ', ' ', 'ε'])) ++ []) ++ []) :=
    .rule (by decide) (by decide) (by decide) (by decide) (by decide)
      (.added (by decide) (.kept (by decide) (.epsilon .nil)))
      (hlast (by decide)) (hlast (by decide)) (by decide) (by decide) (by decide) (by decide)
  have hlines : RelaidLines _ (([] ++ []) :: _) :=
    .inserted (by decide) (by decide) (.line hstart (.line hcall (.line hrule .nil)))
  unfold Relaid
  convert hlines using 1 <;> decide +kernel

/-- Blanks and comments change nothing, and from the end to the beginning the same is said. -/
theorem startedText_relaid :
    Grammar.read startedText = .ok startedGrammar ∧
      Grammar.read wideText = .ok startedGrammar ∧
      ∃ g', Grammar.read "B ::= ε\nA ::= B\nstart A\n" = .ok g' ∧
        g'.text = startedGrammar.text := by
  obtain ⟨-, hlayout, horder⟩ := read_relaid read_startedText
  have hstart : HasStartLine startedText :=
    ⟨"start A".toList, by decide +kernel, "A".toList, by decide⟩
  exact ⟨read_startedText, hlayout _ relaid_wideText, horder hstart _ (by decide +kernel)⟩

end FluentGrammar
