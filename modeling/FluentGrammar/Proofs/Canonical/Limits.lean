import FluentGrammar.Proofs.SharedPrefix.Limits
import FluentGrammar.Proofs.Tag.Folding

/-! # Canonical form stays within limits

    A bridge puts a variable with a single word in the place of a terminal, folding takes
    variables away that derive nothing but the empty word, and pruning takes rules away. None
    of them makes a product or a union that is larger than one that was there before, and
    neither does factoring. So the words of the canonical form are listed whenever those of the
    grammar are.
-/

namespace FluentGrammar

variable {config : Config} {g g' : Grammar} {tags tags' : Tagging} {s s' : Session}
variable {limit : Nat} {L L' : Nat → Language Terminal} {A : Language Terminal}

/-- A pass that drops no variable keeps the languages of all references. -/
theorem Rewritten.languageOf_reference (h : Rewritten g s g' tags' s') (hg : g.Valid)
    (hids : ruleIds g.rules ⊆ ruleIds g'.rules) {r : Rule} (hr : r ∈ g.rules) :
    ∀ v ∈ r.references, g'.languageOf v.id = g.languageOf v.id := by
  intro v hv
  have hi := hg.well_formed.mem_of_refersTo (refersTo_of_mem hr hv)
  exact h.rewrites.valued.languageOf_eq hg h.coherent.valid hi (hids hi)

/-! ## Bridging -/

section Bridging

variable {bridges : List Bridge} {r r' : Rule}

/-- Holders of bridges have a single word, so they may stand wherever there are not too many
    words in front. -/
theorem SequenceFits.bridged {symbols symbols' : List Symbol} (h : SequenceFits limit L A symbols)
    (hbridged : List.Forall₂ (Bridged bridges) symbols symbols') (hfront : wordCount A ≤ limit)
    (hholder : ∀ b ∈ bridges, L' b.holder.id = b.terminal.language)
    (hsame : ∀ v, Symbol.var v ∈ symbols → L' v.id = L v.id) :
    SequenceFits limit L' A symbols' := by
  induction hbridged generalizing A with
  | nil => exact sequenceFits_nil
  | @cons x y xs ys hxy _ ih =>
    have hrest : ∀ v, Symbol.var v ∈ xs → L' v.id = L v.id :=
      fun v hv => hsame v (List.mem_cons_of_mem _ hv)
    cases hxy with
    | var v =>
      obtain ⟨hpairs, hfits⟩ := h
      rw [sequenceFits_var, hsame v (List.mem_cons_self ..)]
      exact ⟨hpairs, ih hfits ((wordCount_mul_le _ _).trans hpairs) hrest⟩
    | term b hb =>
      rw [sequenceFits_var, hholder b hb, wordCount_language, mul_one]
      exact ⟨hfront, ih h ((wordCount_mul_language_le _ _).trans hfront) hrest⟩

/-- A bridged rule fits a limit if the rule does. The limit zero is left out, which is exceeded
    by the word of a holder. -/
theorem Rule.Fits.bridged (h : r.Fits limit L) (hbridged : BridgedRule bridges r r')
    (hlimit : 1 ≤ limit) (hholder : ∀ b ∈ bridges, L' b.holder.id = b.terminal.language)
    (hsame : ∀ v ∈ r.references, L' v.id = L v.id) : r'.Fits limit L' := by
  cases hbridged with
  | selection => exact h.congr hsame
  | empty => trivial
  | derivation lhs first rest rest' hrest =>
    have hfits : SequenceFits limit L 1 (first :: rest) := h
    have hone : wordCount 1 ≤ limit := by
      rw [wordCount_one]
      exact_mod_cast hlimit
    have hvars : ∀ v, Symbol.var v ∈ first :: rest → L' v.id = L v.id :=
      fun v hv => hsame v (Rule.mem_references_derivation.mpr hv)
    cases first with
    | term t =>
      -- The first terminal stays, and nothing is in front of it but the empty word.
      rw [sequenceFits_term] at hfits
      refine hfits.bridged hrest ?_ hholder fun v hv => ?_
      · exact (wordCount_mul_language_le 1 t).trans hone
      · exact hvars v (List.mem_cons_of_mem _ hv)
    | var v => exact hfits.bridged (.cons (.var v) hrest) hone hholder hvars

/-- The rule of a bridge has no product and no union. -/
theorem Bridge.fits_rule (b : Bridge) : b.rule.Fits limit L := trivial

/-- A holder derives its terminal and nothing else. -/
theorem Bridge.languageOf_holder (hg : g.Valid) {b : Bridge} (hb : b.rule ∈ g.rules) :
    g.languageOf b.holder.id = b.terminal.language := by
  have hvalue := isValuation_languageOf hg.well_formed.nodup_ruleIds b.rule hb
  rw [show g.languageOf b.holder.id = g.languageOf b.rule.lhs.id from rfl, hvalue]
  exact mul_one _

/-- Bridging keeps a grammar within a limit other than zero. -/
theorem Grammar.Fits.bridgeTerminals (h : g.Fits limit) (hlimit : 1 ≤ limit)
    (hg : Coherent g tags s) (hrun : bridgeTerminals g tags s = .ok (g', tags') s') :
    g'.Fits limit := by
  obtain ⟨hstep, -⟩ := hg.bridgeTerminals hrun
  obtain ⟨rules, bridges, s₁, htaken, hbridged, ⟨-, rfl, -⟩ | ⟨hof, -⟩⟩ :=
    bridgeTerminals_eq_ok hrun
  · exact h
  · have hmem : ∀ r, r ∈ g'.rules ↔ r ∈ rules ++ bridges.map Bridge.rule :=
      fun r => Grammar.mem_rules_of_ofRules hof
    -- A bridge derives what its terminal derives, so a bridged rule forms the same words as
    -- before.
    have hholder : ∀ b ∈ bridges, g'.languageOf b.holder.id = b.terminal.language := by
      intro b hb
      refine b.languageOf_holder hstep.coherent.valid ((hmem _).mpr ?_)
      exact List.mem_append_right _ (List.mem_map_of_mem hb)
    have hids : ruleIds g.rules ⊆ ruleIds g'.rules := by
      rw [← ruleIds_of_bridged hbridged]
      exact ruleIds_subset fun r hr => (hmem r).mpr (List.mem_append_left _ hr)
    refine .of_rules hstep.rewrites.start_eq fun r' hr' hlhs => ?_
    rcases List.mem_append.mp ((hmem r').mp hr') with hr' | hr'
    · obtain ⟨r, hr, hrr'⟩ := exists_matched_left hbridged hr'
      rw [hrr'.lhs_eq] at hlhs
      obtain ⟨hfits, hreferences⟩ := h.of_newOrReached hr hlhs
      have hsame := hstep.languageOf_reference hg.valid hids hr
      refine ⟨hfits.bridged hrr' hlimit hholder hsame, fun v hv => ?_⟩
      rcases hrr'.mem_references hv with hv | ⟨b, hb, rfl⟩
      · exact hreferences v hv
      · exact fun hold => absurd hold (htaken.not_mem_ruleIds hg.fresh hb)
    · obtain ⟨b, -, rfl⟩ := List.mem_map.mp hr'
      exact ⟨b.fits_rule, fun v hv => nomatch hv⟩

end Bridging

/-! ## Folding -/

section Folding

/-- What fits behind variables of the empty word alone also fits without them. -/
theorem SequenceFits.of_append {dropped : List Variable} {rhs : List Symbol}
    (h : SequenceFits limit L A (dropped.map .var ++ rhs)) (hone : ∀ v ∈ dropped, L v.id = 1) :
    SequenceFits limit L A rhs := by
  induction dropped with
  | nil => exact h
  | cons v dropped ih =>
    obtain ⟨-, hfits⟩ := h
    rw [hone v (List.mem_cons_self ..), mul_one] at hfits
    exact ih hfits fun u hu => hone u (List.mem_cons_of_mem _ hu)

/-- A folded rule fits if the rule does. -/
theorem Rule.Fits.folded {empties : List Variable} {r r' : Rule} (h : r.Fits limit L)
    (hfolded : Folded empties r r') (hone : ∀ v, empties.contains v = true → L v.id = 1)
    (hsame : ∀ v ∈ r.references, L' v.id = L v.id) : r'.Fits limit L' := by
  have hkept : ∀ v ∈ r'.references, L' v.id = L v.id :=
    fun v hv => hsame v (hfolded.references_subset hv)
  cases hfolded with
  | selection => exact h.congr hsame
  | empty => trivial
  | leading lhs dropped rhs _ hdropped =>
    have hrest : (Rule.derivation lhs rhs).Fits limit L :=
      SequenceFits.of_append h fun v hv => hone v (hdropped v hv)
    exact hrest.congr hkept

/-- A round of folding keeps a grammar within a limit. -/
theorem Grammar.Fits.foldRound {rules : List Rule} (h : g.Fits limit) (hg : Coherent g tags s)
    (hfold : foldRules g.emptyVariables tags g.rules s = .ok (rules, tags') s')
    (hof : Grammar.ofRules g.start rules = .ok g') : g'.Fits limit := by
  have hstep := hg.foldRound hfold hof
  have hfolded := (foldRules_eq_ok hfold).2
  have hids : ruleIds g.rules ⊆ ruleIds g'.rules := by
    rw [← ruleIds_of_folded hfolded]
    exact ruleIds_subset fun r hr => (Grammar.mem_rules_of_ofRules hof).mpr hr
  have hone : ∀ v, g.emptyVariables.contains v = true → g.languageOf v.id = 1 :=
    fun v hv => (isValuation_languageOf hg.valid.well_formed.nodup_ruleIds).eq_one_of_empty hv
  refine .of_rules hstep.rewrites.start_eq fun r' hr' hlhs => ?_
  obtain ⟨r, hr, hrr'⟩ := exists_matched_left hfolded (rules_subset_of_ofRules hof hr')
  rw [hrr'.lhs_eq] at hlhs
  obtain ⟨hfits, hreferences⟩ := h.of_newOrReached hr hlhs
  have hsame := hstep.languageOf_reference hg.valid hids hr
  exact ⟨hfits.folded hrr' hone hsame, fun v hv => hreferences v (hrr'.references_subset hv)⟩

end Folding

/-! ## Pruning -/

/-- Dropping unreachable variables keeps a grammar within a limit. -/
theorem Grammar.Fits.dropUnreachable (h : g.Fits limit) (hg : Coherent g tags s)
    (hrun : dropUnreachable g tags s = .ok (g', tags') s') : g'.Fits limit := by
  have hstep := hg.dropUnreachable hrun
  have hsub := rules_subset_of_dropUnreachable hrun
  refine .of_rules hstep.rewrites.start_eq fun r hr hlhs => ?_
  refine h.keep (hsub hr) hlhs fun v hv => ?_
  -- What is left refers to nothing that has been dropped.
  have hv' := hstep.coherent.valid.well_formed.mem_of_refersTo (refersTo_of_mem hr hv)
  exact hstep.rewrites.valued.languageOf_eq hg.valid hstep.coherent.valid
    (ruleIds_subset hsub hv') hv'

/-! ## All passes -/

/-- A state in which nothing that a reachable rule forms exceeds the limit. -/
structure KeepsLimit (limit : Nat) (g : Grammar) (tags : Tagging) (s : Session) : Prop where
  coherent : Coherent g tags s
  fits : g.Fits limit

/-- No pass makes anything exceed a limit other than zero. -/
theorem passInvariant_keepsLimit (hlimit : 1 ≤ limit) :
    PassInvariant config (KeepsLimit limit) where
  count := fun f h => ⟨h.coherent.count f, h.fits⟩
  bridge := by
    intro g tags s g' tags' s' h hrun
    obtain ⟨hstep, -⟩ := h.coherent.bridgeTerminals hrun
    exact ⟨hstep.coherent, h.fits.bridgeTerminals hlimit h.coherent hrun⟩
  fold := by
    intro g tags s rules g' tags' s' h hfold hof
    exact ⟨(h.coherent.foldRound hfold hof).coherent, h.fits.foldRound h.coherent hfold hof⟩
  drop := by
    intro g tags s g' tags' s' h hrun
    exact ⟨(h.coherent.dropUnreachable hrun).coherent, h.fits.dropUnreachable h.coherent hrun⟩
  factor := by
    intro g tags s target g' tags' s' h hfound hrun
    obtain ⟨hstep, -⟩ := h.coherent.leftFactor hrun
    -- Only a reachable selection is ever factored.
    have hroot := (SharedPrefix.Forks.of_discover h.coherent.valid hfound).reached
    exact ⟨hstep.coherent, h.fits.leftFactor h.coherent hroot hrun⟩

/-- If the words of a grammar are listed under a limit other than zero, the words of its
    canonical form are listed under the same limit, and they are the same words. -/
theorem canonicalize_language {c : Canonical} (hg : g.Valid) (hlimit : 1 ≤ limit)
    (h : canonicalize config g tags = .ok c) {words : List Word}
    (hwords : g.language limit = some words) : c.grammar.language limit = some words := by
  obtain ⟨s', -, hcanonical⟩ := Canonicalized.of_canonicalize hg h
  have hg' := hcanonical.coherent.valid
  have hstart : c.grammar.start = g.start := hcanonical.rewrites.start_eq
  have hfits : c.grammar.Fits limit := by
    obtain ⟨⟨entries, hentries⟩, g', tags', s', hrun, rfl⟩ := canonicalize_eq_ok.mp h
    have hinitial : KeepsLimit limit g (tags.retain g.contains) (.ofGrammar g) :=
      ⟨.initial hg hentries, (Grammar.exists_language_iff hg).mp ⟨words, hwords⟩⟩
    exact ((passInvariant_keepsLimit hlimit).canonicalPass hinitial hrun).fits
  obtain ⟨listed, hlisted⟩ := (Grammar.exists_language_iff hg').mpr hfits
  have hcomplete := Grammar.complete_language hg hwords
  have hcomplete' := Grammar.complete_language hg' hlisted
  -- Both lists hold the language of the start variable, in the same order.
  have hsame : listed = words := by
    refine hcomplete'.ascending.ext hcomplete.ascending fun w => ?_
    have hmem := hg'.start_mem
    rw [hstart] at hmem
    rw [hcomplete'.mem_iff c.grammar.start rfl, hcomplete.mem_iff g.start rfl, hstart]
    exact hcanonical.rewrites.valued.derives_iff hg hg' (defines_iff_mem_ruleIds.mpr hg.start_mem)
      (defines_iff_mem_ruleIds.mpr hmem)
  rw [hlisted, hsame]

/-- Two calls of one terminal have two words, and the same two are listed when the terminal has
    been factored out. -/
theorem sharedCall_language :
    let x : Terminal := ⟨"x", [countParameter]⟩
    let words : List Word := [[x], [x, ⟨"y", []⟩]]
    sharedCall.Valid ∧ sharedCall.canonical = .ok sharedCallFactored ∧
      sharedCall.language 2 = some words ∧ sharedCallFactored.grammar.language 2 = some words := by
  intro x words
  have hwords : sharedCall.language 2 = some words := by cbv
  exact ⟨sharedCall_valid, canonical_sharedCall, hwords,
    canonicalize_language sharedCall_valid (by decide) canonical_sharedCall hwords⟩

end FluentGrammar
