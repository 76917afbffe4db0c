import FluentGrammar.Proofs.Language.Fitting
import FluentGrammar.Proofs.SharedPrefix.Levels

/-! # Factoring stays within limits

    The words of a partial part, with the shared terminal in front, are words of the variable
    that was split, and so are the words of a full part. So wherever a new rule forms a product
    or a union, the old rule formed one of no fewer words. And new rules lead to nothing that
    was not reachable before, apart from new variables.
-/

namespace FluentGrammar

variable {task : FactorTask} {s : Session} {alternatives : List Variable} {tag : Tag}
variable {bench b : Workbench} {o : Outcome} {made : List Made} {lhs : Variable}
variable {splits : List (Variable × Split)} {g g' : Grammar} {limit : Nat}

/-! ## What new rules lead to -/

theorem Grammar.Passes.refersTo {i j : Nat} (h : g.Passes i j) : RefersTo g.rules i j := by
  cases h with
  | starts hr => exact refersTo_of_mem hr (Rule.leading_mem_references ..)
  | offers hr hu => exact refersTo_of_mem hr hu

/-- What is given below a reachable variable is new or reachable. -/
theorem GivenBelow.newOrReached (hb : b.Traced task s made) (hbefore : task.Before s) {i : Nat}
    {y : Variable} (h : GivenBelow task made i y) (hreach : task.grammar.Reaches [] i) :
    task.grammar.NewOrReached y.id := by
  intro hy
  obtain ⟨u, hrefers, hgiven⟩ := h
  have hstem := hgiven.stem
  rw [sourceOf_of_not_mem (hb.not_mem hbefore hy)] at hstem
  -- Selections alone lead on to a variable that has not been made.
  apply (hreach.of_refersTo (.single hrefers)).of_refersTo
  exact Relation.ReflTransGen.mono (fun _ _ hoffers => hoffers.refersTo) _ _ hstem

/-- What has been split is reachable if the root is. -/
theorem Outcome.Of.reaches_split (h : o.Of task s alternatives tag bench)
    (hroot : task.grammar.Reaches [] task.target.root.id) {v : Variable} {split : Split}
    (hv : Recorded bench.splits v split) : task.grammar.Reaches [] v.id := by
  obtain ⟨w, hw, hid⟩ := hv
  rw [← hid]
  apply hroot.of_refersTo
  exact Relation.ReflTransGen.mono (fun _ _ hpasses => hpasses.refersTo) _ _
    (h.placed hw).below.to_reflTransGen

theorem Outcome.Of.reaches_source (h : o.Of task s alternatives tag bench)
    (hroot : task.grammar.Reaches [] task.target.root.id) {m : Made} (hm : m ∈ o.made) :
    task.grammar.Reaches [] m.source.id := by
  cases h.explained m hm with
  | part _ _ hs => exact h.reaches_split hroot hs
  | full _ _ hs => exact h.reaches_split hroot hs

/-- What is made or crafted is new. -/
theorem Outcome.Of.newOrReached_of_mem (h : o.Of task s alternatives tag bench)
    (hbefore : task.Before s) {i : Nat} (hi : i ∈ (o.made ++ o.crafted).map Made.id) :
    task.grammar.NewOrReached i := by
  intro hold
  have hlt := hbefore i hold
  have hle := h.issued_le hi
  omega

section References

variable (h : o.Of task s alternatives tag bench) (hg : task.grammar.Valid)
variable (hbefore : task.Before s) (hroot : task.grammar.Reaches [] task.target.root.id)
variable (hrule : task.grammar.rule? task.target.root = some (.selection lhs alternatives))

include h hg hbefore hroot hrule

theorem Outcome.Of.newOrReached_root :
    (∀ y ∈ o.remaining, task.grammar.NewOrReached y.id) ∧
      ∀ y ∈ o.parts, task.grammar.NewOrReached y.id := by
  obtain ⟨b, -, hb⟩ := h.traced
  obtain ⟨hremaining, hparts⟩ := h.given_below_root hg hbefore hrule
  exact ⟨fun y hy => (hremaining y hy).newOrReached hb hbefore hroot,
    fun y hy => (hparts y hy).newOrReached hb hbefore hroot⟩

theorem Outcome.Of.newOrReached_rest : task.grammar.NewOrReached o.rest.id := by
  rcases h.rest with hone | ⟨m, hm, hrest⟩
  · exact (h.newOrReached_root hg hbefore hroot hrule).2 o.rest
      (hone ▸ List.mem_singleton.mpr rfl)
  · have hid : o.rest.id = m.id := by rw [Made.id, hrest]; rfl
    rw [hid]
    exact h.newOrReached_of_mem hbefore (List.mem_map_of_mem (List.mem_append_right _ hm))

/-- The rule that reads the shared terminal leads to the partial parts only. -/
theorem Outcome.Of.newOrReached_lead (v : Variable) :
    ∀ y ∈ (Rule.derivation v (task.leadBody o.rest)).references,
      task.grammar.NewOrReached y.id := by
  intro y hy
  rw [Rule.mem_references_derivation] at hy
  obtain rfl : y = o.rest := by simpa [FactorTask.leadBody] using hy
  exact h.newOrReached_rest hg hbefore hroot hrule

/-- Where the root is reachable, new rules lead to what is new or was reachable. -/
theorem Outcome.Of.newOrReached_references {r : Rule} (hr : r ∈ bench.rules) :
    ∀ y ∈ r.references, task.grammar.NewOrReached y.id := by
  obtain ⟨hremaining, hparts⟩ := h.newOrReached_root hg hbefore hroot hrule
  rw [h.rules_eq, List.mem_append, List.mem_map, List.mem_singleton] at hr
  -- The rules are the parts, the rest, perhaps a leading variable, and last the root.
  rcases hr with ⟨m, hm, rfl⟩ | rfl
  · rcases List.mem_append.mp hm with hm | hm
    · obtain ⟨b, -, hb⟩ := h.traced
      intro y hy
      exact (hb.given_below hg hbefore hm y hy).newOrReached hb hbefore
        (h.reaches_source hroot hm)
    · cases h.crafted m hm with
      | rest _ hselection =>
        rw [hselection]
        exact hparts
      | lead _ hderivation =>
        rw [hderivation]
        exact h.newOrReached_lead hg hbefore hroot hrule _
  · cases h.rooted with
    | replaced _ _ hderivation =>
      rw [hderivation]
      exact h.newOrReached_lead hg hbefore hroot hrule _
    | offered _ hm _ hselection =>
      rw [hselection]
      refine List.forall_mem_cons.mpr ⟨?_, hremaining⟩
      exact h.newOrReached_of_mem hbefore (List.mem_map_of_mem (List.mem_append_right _ hm))

end References

/-! ## What new variables derive -/

/-- What factoring does to languages: the variables of the grammar keep theirs, and the words
    of their parts, and of the choice among the partial parts of the root, are found in them,
    behind the shared terminal or alone. -/
structure LanguagesParted (task : FactorTask) (splits : List (Variable × Split))
    (rest : Variable) (g' : Grammar) : Prop where
  kept : ∀ i ∈ ruleIds task.grammar.rules, g'.languageOf i = task.grammar.languageOf i
  part : ∀ v split, v.id ∈ ruleIds task.grammar.rules → Recorded splits v split →
    Embeds (g'.languageOf split.part.id) (task.grammar.languageOf v.id)
  full : ∀ v split full, v.id ∈ ruleIds task.grammar.rules → Recorded splits v split →
    split.full = some full → Embeds (g'.languageOf full.id) (task.grammar.languageOf v.id)
  rest : Embeds (g'.languageOf rest.id) (task.grammar.languageOf task.target.root.id)

theorem Factored.languagesParted {remaining parts : List Variable} {rest : Variable}
    (h : Factored task g'.rules alternatives remaining parts splits rest)
    (hg : task.grammar.Valid) (hg' : g'.Valid) : LanguagesParted task splits rest g' := by
  have ha := isValuation_languageOf hg.well_formed.nodup_ruleIds
  have ha' := isValuation_languageOf hg'.well_formed.nodup_ruleIds
  -- The language of a variable is a value, so it is kept as every other value is.
  have hvalues := h.values_le comparison_language.toCompatible
    (Or.inl comparison_language.add_repeat) hg hg'.well_formed ha ha'
  have hkept : ∀ i ∈ ruleIds task.grammar.rules,
      g'.languageOf i = task.grammar.languageOf i := fun i hi => (hvalues i hi).1
  have hsplit : ∀ v split, v.id ∈ ruleIds task.grammar.rules → Recorded splits v split →
      split.value Terminal.language g'.languageOf task.target.symbol =
        task.grammar.languageOf v.id := fun v split hv hs => (hvalues v.id hv).2 v split rfl hs
  refine ⟨hkept, fun v split hv hs => ?_, fun v split full hv hs hfull => ?_, ?_⟩
  · apply Embeds.of_mul_subset
    rw [← hsplit v split hv hs]
    exact fun w hw => Or.inr hw
  · apply Embeds.of_subset
    rw [← hsplit v split hv hs, Split.value, hfull]
    exact fun w hw => Or.inl hw
  · obtain ⟨lhs, hlhs, hid⟩ := h.root
    apply Embeds.of_mul_subset
    rw [← hkept _ (hid ▸ mem_ruleIds_of_mem hlhs), h.rerooted.value_eq h.selects ha',
      h.selects.value_eq ha']
    exact fun w hw => Or.inr hw

/-! ## New rules fit -/

section Fitting

variable {L L' : Nat → Language Terminal} {r r' : Rule} {rest : Variable}

/-- A selection fits if another one does that has no fewer words. -/
theorem fits_of_selection {v w : Variable} {choices choices' : List Variable} (hg : g.Valid)
    (hg' : g'.Valid) (hr : Rule.selection w choices ∈ g.rules)
    (hr' : Rule.selection v choices' ∈ g'.rules)
    (hle : Embeds (g'.languageOf v.id) (g.languageOf w.id))
    (hfits : (Rule.selection w choices).Fits limit g.languageOf) :
    (Rule.selection v choices').Fits limit g'.languageOf := by
  rw [fits_selection_iff hg hr] at hfits
  rw [fits_selection_iff hg' hr']
  exact hle.wordCount_le.trans hfits

/-- A rule may start with another variable of fewer words. -/
theorem fits_of_leading {v w y : Variable} {behind : List Symbol}
    (h : (Rule.derivation lhs (.var w :: behind)).Fits limit L)
    (hle : Embeds (L' y.id) (L w.id))
    (hsame : ∀ u ∈ (Rule.derivation lhs (.var w :: behind)).references, L' u.id = L u.id) :
    (Rule.derivation v (.var y :: behind)).Fits limit L' := by
  obtain ⟨hpairs, hfits⟩ := h
  rw [one_mul] at hfits
  refine ⟨le_trans ?_ hpairs, ?_⟩
  · rw [wordCount_one, one_mul, one_mul]
    exact hle.wordCount_le
  · rw [one_mul]
    refine hfits.of_embeds hle fun u hu => hsame u ?_
    exact Rule.mem_references_derivation.mpr (List.mem_cons_of_mem _ hu)

variable (hL : LanguagesParted task splits rest g') (hg : task.grammar.Valid) (hg' : g'.Valid)

include hL hg

/-- The languages of what a rule refers to are kept. -/
theorem LanguagesParted.kept_reference (hr : r ∈ task.grammar.rules) :
    ∀ v ∈ r.references, g'.languageOf v.id = task.grammar.languageOf v.id :=
  fun v hv => hL.kept v.id (hg.well_formed.mem_of_refersTo (refersTo_of_mem hr hv))

include hg'

theorem PartRule.fits (h : PartRule task (Recorded splits) r r') (hr : r ∈ task.grammar.rules)
    (hr' : r' ∈ g'.rules)
    (hle : Embeds (g'.languageOf r'.lhs.id) (task.grammar.languageOf r.lhs.id))
    (hfits : r.Fits limit task.grammar.languageOf) : r'.Fits limit g'.languageOf := by
  have hsame := hL.kept_reference hg hr
  cases h with
  | reads =>
    -- The terminal was in front of everything else, and nothing takes its place.
    have hfront : Embeds 1 (1 * task.target.symbol.language) := by
      rw [one_mul]
      apply Embeds.of_mul_subset (t := task.target.symbol)
      rw [mul_one]
      exact fun _ => id
    refine SequenceFits.of_embeds (sequenceFits_term.mp hfits) hfront fun v hv => hsame v ?_
    exact Rule.mem_references_derivation.mpr (List.mem_cons_of_mem _ hv)
  | @leading lhs w part behind split hs =>
    have hw := hg.well_formed.mem_of_refersTo
      (refersTo_of_mem hr (Rule.leading_mem_references lhs w behind))
    exact fits_of_leading hfits (hL.part w split hw hs) hsame
  | choice => exact fits_of_selection hg hg' hr hr' hle hfits

theorem FullRule.fits (h : FullRule task (Recorded splits) r r') (hr : r ∈ task.grammar.rules)
    (hr' : r' ∈ g'.rules)
    (hle : Embeds (g'.languageOf r'.lhs.id) (task.grammar.languageOf r.lhs.id))
    (hfits : r.Fits limit task.grammar.languageOf) : r'.Fits limit g'.languageOf := by
  cases h with
  | @leading lhs w v full behind split hs hfull =>
    have hw := hg.well_formed.mem_of_refersTo
      (refersTo_of_mem hr (Rule.leading_mem_references lhs w behind))
    exact fits_of_leading hfits (hL.full w split full hw hs hfull) (hL.kept_reference hg hr)
  | choice => exact fits_of_selection hg hg' hr hr' hle hfits

/-- The rule of a made variable fits if that of its source does. -/
theorem Made.Explained.fits {m : Made} (h : m.Explained task (Recorded splits))
    (hm : m.rule ∈ g'.rules)
    (hfits : ∀ r ∈ task.grammar.rules, r.lhs.id = m.source.id →
      r.Fits limit task.grammar.languageOf) : m.rule.Fits limit g'.languageOf := by
  cases h with
  | @part r tag split hrule _ hs hlhs _ hbody =>
    have hr := Grammar.mem_of_rule? hrule
    have hid := Grammar.lhs_of_rule? hrule
    have hle := hL.part m.source split (mem_ruleIds_of_rule? hrule) hs
    rw [hlhs, ← hid] at hle
    exact hbody.fits hL hg hg' hr hm hle (hfits r hr hid)
  | @full r split hrule _ hs hlhs hbody =>
    have hr := Grammar.mem_of_rule? hrule
    have hid := Grammar.lhs_of_rule? hrule
    have hle := hL.full m.source split _ (mem_ruleIds_of_rule? hrule) hs hlhs
    rw [← hid] at hle
    exact hbody.fits hL hg hg' hr hm hle (hfits r hr hid)

omit hg hg' in
/-- The rule that reads the shared terminal fits if the root has not too many words. -/
theorem LanguagesParted.lead_fits
    (hroot : wordCount (task.grammar.languageOf task.target.root.id) ≤ limit) (v : Variable) :
    (Rule.derivation v (task.leadBody rest)).Fits limit g'.languageOf := by
  refine ⟨?_, trivial⟩
  rw [one_mul, wordCount_language, one_mul]
  exact hL.rest.wordCount_le.trans hroot

end Fitting

/-! ## The pass -/

section Factored

variable {tags' : Tagging} (h : FactoredBy task s alternatives tag bench o g' tags')
variable (hg : task.grammar.Valid) (hfits : task.grammar.Fits limit)
variable (hroot : task.grammar.Reaches [] task.target.root.id)

include h hg hfits hroot

/-- The root is a selection, so its words have been listed. -/
theorem FactoredBy.wordCount_root_le :
    wordCount (task.grammar.languageOf task.target.root.id) ≤ limit := by
  obtain ⟨lhs, hrule⟩ := h.root_rule
  have hlhs := Grammar.mem_of_rule? hrule
  have hid : lhs.id = task.target.root.id := Grammar.lhs_of_rule? hrule
  rw [← hid] at hroot ⊢
  exact (fits_selection_iff hg hlhs).mp (hfits _ hlhs hroot)

/-- New rules fit a limit that the reachable rules fit. -/
theorem FactoredBy.fits {r : Rule} (hr : r ∈ bench.rules) : r.Fits limit g'.languageOf := by
  have hg' := Grammar.valid_of_ofRules h.rules_eq
  have hL := h.factored.languagesParted hg hg'
  have hcount := h.wordCount_root_le hg hfits hroot
  have hmem : r ∈ g'.rules :=
    (Grammar.mem_rules_of_ofRules h.rules_eq).mpr (Grammar.mem_rootReplaced.mpr (Or.inr hr))
  rw [h.outcome.rules_eq, List.mem_append, List.mem_map, List.mem_singleton] at hr
  rcases hr with ⟨m, hm, rfl⟩ | rfl
  · rcases List.mem_append.mp hm with hm | hm
    · refine (h.outcome.explained m hm).fits hL hg hg' hmem fun q hq hid => hfits q hq ?_
      rw [hid]
      exact h.outcome.reaches_source hroot hm
    · cases h.outcome.crafted m hm with
      | rest _ hselection =>
        rw [hselection] at hmem ⊢
        rw [fits_selection_iff hg' hmem]
        exact hL.rest.wordCount_le.trans hcount
      | lead _ hderivation =>
        rw [hderivation]
        exact hL.lead_fits hcount _
  · cases h.outcome.rooted with
    | replaced _ _ hderivation =>
      rw [hderivation]
      exact hL.lead_fits hcount _
    | offered _ _ _ hselection =>
      -- The root still offers all of its words, under another rule.
      obtain ⟨lhs, hrule⟩ := h.root_rule
      rw [hselection] at hmem ⊢
      rw [fits_selection_iff hg' hmem, hL.kept _ (mem_ruleIds_of_rule? hrule)]
      exact hcount

end Factored

/-- Factoring at a reachable root keeps a grammar within a limit. -/
theorem Grammar.Fits.leftFactor {tags tags' : Tagging} {s' : Session} {target : SharedPrefix}
    (h : g.Fits limit) (hg : Coherent g tags s) (hroot : g.Reaches [] target.root.id)
    (hrun : leftFactor g tags target s = .ok (g', tags') s') : g'.Fits limit := by
  obtain ⟨alternatives, tag, bench, o, hfactored⟩ := leftFactor_factoredBy hg hrun
  have hg' := Grammar.valid_of_ofRules hfactored.rules_eq
  have hL := hfactored.factored.languagesParted hg.valid hg'
  have hbefore : FactorTask.Before ⟨g, tags, target⟩ s := hg.fresh
  have hstart : g'.start = g.start := by
    rw [Grammar.rules_of_ofRules hfactored.rules_eq]
  obtain ⟨lhs, hrule⟩ := hfactored.root_rule
  refine .of_rules hstart fun r hr hlhs => ?_
  rcases Grammar.mem_rootReplaced.mp ((Grammar.mem_rules_of_ofRules hfactored.rules_eq).mp hr)
    with ⟨hold, -⟩ | hnew
  · exact h.keep hold hlhs (hL.kept_reference hg.valid hold)
  · exact ⟨hfactored.fits hg.valid h hroot hnew,
      hfactored.outcome.newOrReached_references hg.valid hbefore hroot hrule hnew⟩

end FluentGrammar
