import FluentGrammar.Proofs.Rewriting.Invariants
import FluentGrammar.Proofs.Tag.Passes

/-! # Folding keeps tags fitting

    A round of folding succeeds when tags suit the rules. Whatever drops an empty variable
    completes a node, because a bridge never starts with a variable; and what has been dropped
    reads nothing afterwards. When no rule is empty any more, the tags fit.
-/

namespace FluentGrammar

variable {g g' : Grammar} {tags tags' : Tagging} {s s' : Session} {empties : List Variable}
variable {rules rules' : List Rule}

/-! ## What becomes of a tagged rule -/

/-- What a round of folding makes of a rule and its tag. -/
inductive FoldedWith (empties : List Variable) : Rule → Tag → Rule → Tag → Prop where
  /-- A selection stays. -/
  | selection (lhs : Variable) (alternatives : List Variable) (tag : Tag) :
      FoldedWith empties (.selection lhs alternatives) tag (.selection lhs alternatives) tag
  /-- An empty rule becomes `<empty>`. -/
  | empty (lhs : Variable) (rhs : List Symbol) (tag : Tag)
      (hlhs : empties.contains lhs = true) :
      FoldedWith empties (.derivation lhs rhs) tag (.derivation lhs [.term .empty]) tag
  /-- Any other derivation drops the empty variables that it starts with, and its tag takes
      them on. -/
  | leading (lhs : Variable) (dropped : List Variable) (rhs : List Symbol) (tag tag' : Tag)
      (hlhs : empties.contains lhs = false)
      (hdropped : ∀ v ∈ dropped, empties.contains v = true)
      (hfolds : tag.Folds dropped tag') :
      FoldedWith empties (.derivation lhs (dropped.map .var ++ rhs)) tag
        (.derivation lhs rhs) tag'

/-- A rule and what a round of folding makes of it, with the tags before and afterwards. -/
def FoldedUnder (empties : List Variable) (tags tags' : Tagging) (r r' : Rule) : Prop :=
  r'.lhs = r.lhs ∧ ∀ tag, tags.tag? r.lhs = some tag →
    ∃ tag', tags'.tag? r.lhs = some tag' ∧ FoldedWith empties r tag r' tag'

theorem foldRule_tags {r r' : Rule} (h : foldRule empties tags r s = .ok (r', tags') s') :
    FoldedUnder empties tags tags' r r' ∧
      ∀ w : Variable, w.id ≠ r.lhs.id → tags'.tag? w = tags.tag? w := by
  cases r with
  | selection lhs alternatives =>
    obtain ⟨heq, -⟩ := pure_eq_ok.mp h
    cases heq
    exact ⟨⟨rfl, fun tag htag => ⟨tag, htag, .selection lhs alternatives tag⟩⟩, fun _ _ => rfl⟩
  | derivation lhs rhs =>
    rw [foldRule] at h
    by_cases hlhs : empties.contains lhs = true
    · rw [if_pos hlhs] at h
      obtain ⟨heq, -⟩ := pure_eq_ok.mp h
      cases heq
      exact ⟨⟨rfl, fun tag htag => ⟨tag, htag, .empty lhs rhs tag hlhs⟩⟩, fun _ _ => rfl⟩
    · rw [if_neg hlhs] at h
      obtain ⟨⟨rhs', tags₁⟩, s₁, hleading, h⟩ := bind_eq_ok.mp h
      obtain ⟨heq, -⟩ := pure_eq_ok.mp h
      cases heq
      obtain ⟨-, dropped, rfl, hdropped, hretagged⟩ := foldLeading_eq_ok hleading
      refine ⟨⟨rfl, fun tag htag => ?_⟩, hretagged.others⟩
      obtain ⟨tag', htag', hfolds⟩ := hretagged.own tag htag
      exact ⟨tag', htag', .leading lhs dropped rhs' tag tag' (by simpa using hlhs) hdropped hfolds⟩

/-- The tag of a variable is changed with its own rule only, so every rule is folded together
    with the tag that it had at the beginning. -/
theorem foldRules_tags (hnodup : (ruleIds rules).Nodup)
    (h : foldRules empties tags rules s = .ok (rules', tags') s') :
    (∀ r' ∈ rules', ∃ r ∈ rules, FoldedUnder empties tags tags' r r') ∧
      ∀ w : Variable, w.id ∉ ruleIds rules → tags'.tag? w = tags.tag? w := by
  induction rules generalizing tags s rules' with
  | nil =>
    obtain ⟨heq, -⟩ := pure_eq_ok.mp h
    cases heq
    exact ⟨fun _ hr' => (nomatch hr'), fun _ _ => rfl⟩
  | cons r rest ih =>
    rw [foldRules] at h
    obtain ⟨⟨r', tags₁⟩, s₁, hrule, h⟩ := bind_eq_ok.mp h
    obtain ⟨⟨rest', tags₂⟩, s₂, hrest, h⟩ := bind_eq_ok.mp h
    obtain ⟨heq, rfl⟩ := pure_eq_ok.mp h
    cases heq
    obtain ⟨hnew, hnodup⟩ : r.lhs.id ∉ ruleIds rest ∧ (ruleIds rest).Nodup :=
      List.nodup_cons.mp hnodup
    obtain ⟨⟨hlhs, hfolded⟩, hothers⟩ := foldRule_tags hrule
    obtain ⟨hfolded', hothers'⟩ := ih hnodup hrest
    constructor
    · intro q' hq'
      rcases List.mem_cons.mp hq' with rfl | hq'
      · refine ⟨r, List.mem_cons_self .., hlhs, fun tag htag => ?_⟩
        obtain ⟨tag', htag', hwith⟩ := hfolded tag htag
        exact ⟨tag', (hothers' r.lhs hnew).trans htag', hwith⟩
      · -- The first rule has not touched the tags of the others.
        obtain ⟨q, hq, hlhs', htags⟩ := hfolded' q' hq'
        refine ⟨q, List.mem_cons_of_mem _ hq, hlhs', fun tag htag => htags tag ?_⟩
        rw [hothers q.lhs fun hid => hnew (hid ▸ mem_ruleIds_of_mem hq)]
        exact htag
    · intro w hw
      have hnot : w.id ∉ ruleIds rest := fun hmem => hw (List.mem_cons_of_mem _ hmem)
      have hne : w.id ≠ r.lhs.id := fun hid => hw (hid ▸ List.mem_cons_self ..)
      rw [hothers' w hnot, hothers w hne]

/-! ## Tags afterwards -/

theorem FoldedWith.suits {r r' : Rule} {tag tag' : Tag} (h : FoldedWith empties r tag r' tag')
    (hsuits : tag.Suits r) : tag'.Suits r' := by
  cases h with
  | selection lhs alternatives => exact hsuits
  | empty lhs rhs =>
    -- Even a bridge that had lost its terminal has one again.
    cases hsuits with
    | consumed => exact .fits (.bridge ..)
    | fits hfits =>
      cases hfits with
      | full node => exact .fits (.full ..)
      | partialDerivation => exact .fits (.partialDerivation ..)
      | bridge => exact .fits (.bridge ..)
  | leading lhs dropped rhs _ _ _ _ hfolds =>
    cases dropped with
    | nil =>
      cases hfolds
      exact hsuits
    | cons w dropped => exact .fits ((hfolds.completes hsuits.completes).fits lhs rhs)

/-- Implicit are the variables that were implicit before and those that have been dropped. -/
theorem FoldedWith.mem_implicit {r r' : Rule} {tag tag' : Tag}
    (h : FoldedWith empties r tag r' tag') {v : Variable} (hv : v ∈ tag'.implicit) :
    v ∈ tag.implicit ∨ empties.contains v = true := by
  cases h with
  | selection => exact Or.inl hv
  | empty => exact Or.inl hv
  | leading lhs dropped rhs _ _ _ hdropped hfolds =>
    rw [hfolds.implicit_eq, List.mem_append] at hv
    exact hv.imp_right (hdropped v)

/-- Folding changes neither the node of a tag nor its components. -/
theorem FoldedWith.same_node {r r' : Rule} {tag tag' : Tag}
    (h : FoldedWith empties r tag r' tag') :
    tag'.node? = tag.node? ∧ tag'.required = tag.required := by
  cases h with
  | selection => exact ⟨rfl, rfl⟩
  | empty => exact ⟨rfl, rfl⟩
  | leading _ _ _ _ _ _ _ hfolds => exact ⟨hfolds.node?_eq, hfolds.required_eq⟩

/-- After a round, empty variables read nothing, and what read nothing before still does. -/
theorem readsNothing_of_folded (hg : g.Valid)
    (hfolded : List.Forall₂ (Folded g.emptyVariables) g.rules rules)
    (hof : Grammar.ofRules g.start rules = .ok g') {v : Variable}
    (hv : g.ReadsNothing v ∨ g.emptyVariables.contains v = true) : g'.ReadsNothing v := by
  rw [readsNothing_iff (Grammar.valid_of_ofRules hof)]
  simp only [Grammar.mem_rules_of_ofRules hof]
  rcases hv with hv | hv
  · obtain ⟨lhs, hr, hid⟩ := (readsNothing_iff hg).mp hv
    obtain ⟨r', hr', hrr'⟩ := exists_matched_right hfolded hr
    refine ⟨lhs, ?_, hid⟩
    generalize hq : Rule.derivation lhs [.term .empty] = q at hrr'
    cases hrr' with
    | selection => cases hq
    | empty =>
      cases hq
      exact hr'
    | leading _ dropped =>
      -- A rule that starts with a terminal drops nothing.
      cases dropped with
      | nil =>
        cases hq
        exact hr'
      | cons w dropped => cases hq
  · obtain ⟨lhs, hr, hid⟩ := mem_emptyVariables.mp hv
    obtain ⟨r', hr', hrr'⟩ := exists_matched_right hfolded hr
    refine ⟨lhs, ?_, hid⟩
    generalize hq : Rule.derivation lhs [] = q at hrr'
    cases hrr' with
    | selection => cases hq
    | empty =>
      cases hq
      exact hr'
    | leading _ dropped rhs hlhs =>
      have hempty := mem_emptyVariables.mpr ⟨lhs, hr, rfl⟩
      obtain ⟨rfl, -⟩ := Rule.derivation.inj hq
      rw [hempty] at hlhs
      cases hlhs

/-- A round of folding keeps tags suited. -/
theorem TaggedBy.foldRound (h : TaggedBy Tag.Suits g tags) (hg : Coherent g tags s)
    (hrun : foldRules g.emptyVariables tags g.rules s = .ok (rules, tags') s')
    (hof : Grammar.ofRules g.start rules = .ok g') : TaggedBy Tag.Suits g' tags' := by
  obtain ⟨-, hfolded⟩ := foldRules_eq_ok hrun
  obtain ⟨htagged, -⟩ := foldRules_tags hg.valid.well_formed.nodup_ruleIds hrun
  intro r' hr'
  obtain ⟨r, hr, hlhs, htags⟩ := htagged r' ((Grammar.mem_rules_of_ofRules hof).mp hr')
  obtain ⟨tag, htag, hsuits, himplicit⟩ := h r hr
  obtain ⟨tag', htag', hwith⟩ := htags tag htag
  refine ⟨tag', ?_, hwith.suits hsuits, fun v hv => ?_⟩
  · rw [hlhs]
    exact htag'
  · have hv' := (hwith.mem_implicit hv).imp_left (himplicit v)
    exact readsNothing_of_folded hg.valid hfolded hof hv'

/-! ## Folding succeeds -/

theorem foldLeading_succeeds_of_completes {lhs : Variable} {rhs : List Symbol} {tag : Tag}
    (htag : tags.tag? lhs = some tag) (hcompletes : tag.Completes) (s : Session) :
    Succeeds (foldLeading empties lhs tags rhs) s := by
  induction rhs generalizing tags tag s with
  | nil => exact .pure _ _
  | cons x rest ih =>
    cases x with
    | term t => exact .pure _ _
    | var w =>
      rw [foldLeading]
      by_cases hw : empties.contains w = true
      · rw [if_pos hw]
        obtain ⟨tag', hfold, hcompletes'⟩ := hcompletes.exists_withImplicit w
        have hrequire := Tagging.require_eq_ok.mpr htag
        refine Succeeds.ofExcept_bind hrequire (Succeeds.ofExcept_bind hfold ?_)
        refine (Succeeds.modify _ s).bind fun _ s₁ _ => ?_
        exact ih (Tagging.tag?_insert_self tags lhs tag') hcompletes' s₁
      · rw [if_neg hw]
        exact .pure _ _

theorem foldRule_succeeds {r : Rule} {tag : Tag} (htag : tags.tag? r.lhs = some tag)
    (hsuits : tag.Suits r) (s : Session) : Succeeds (foldRule empties tags r) s := by
  cases r with
  | selection lhs alternatives => exact .pure _ _
  | derivation lhs rhs =>
    rw [foldRule]
    by_cases hlhs : empties.contains lhs = true
    · rw [if_pos hlhs]
      exact .pure _ _
    · rw [if_neg hlhs]
      have hleading : Succeeds (foldLeading empties lhs tags rhs) s := by
        cases rhs with
        | nil => exact .pure _ _
        | cons x rest =>
          cases x with
          | term t => exact .pure _ _
          | var w => exact foldLeading_succeeds_of_completes htag hsuits.completes s
      exact hleading.bind fun _ _ _ => .pure _ _

theorem foldRules_succeeds (hnodup : (ruleIds rules).Nodup)
    (h : ∀ r ∈ rules, ∃ tag, tags.tag? r.lhs = some tag ∧ tag.Suits r) (s : Session) :
    Succeeds (foldRules empties tags rules) s := by
  induction rules generalizing tags s with
  | nil => exact .pure _ _
  | cons r rest ih =>
    obtain ⟨hnew, hnodup⟩ : r.lhs.id ∉ ruleIds rest ∧ (ruleIds rest).Nodup :=
      List.nodup_cons.mp hnodup
    obtain ⟨tag, htag, hsuits⟩ := h r (List.mem_cons_self ..)
    rw [foldRules]
    refine (foldRule_succeeds htag hsuits s).bind fun folded s₁ hrule => ?_
    obtain ⟨r', tags₁⟩ := folded
    obtain ⟨-, hothers⟩ := foldRule_tags hrule
    have hrest : Succeeds (foldRules empties tags₁ rest) s₁ := by
      refine ih hnodup (fun q hq => ?_) s₁
      rw [hothers q.lhs fun hid => hnew (hid ▸ mem_ruleIds_of_mem hq)]
      exact h q (List.mem_cons_of_mem _ hq)
    exact hrest.bind fun _ _ _ => .pure _ _

theorem Folded.references_subset {r r' : Rule} (h : Folded empties r r') :
    r'.references ⊆ r.references := by
  cases h with
  | selection => exact List.Subset.refl _
  | empty => exact List.nil_subset _
  | leading lhs dropped rhs =>
    intro v hv
    rw [Rule.mem_references_derivation] at hv ⊢
    exact List.mem_append_right _ hv

/-- Folded rules are well formed. -/
theorem WellFormed.of_folded {start : Variable} (h : WellFormed start rules)
    (hfolded : List.Forall₂ (Folded empties) rules rules') : WellFormed start rules' := by
  have hids := ruleIds_of_folded hfolded
  constructor
  · rw [distinct_iff_nodup, hids]
    exact h.nodup_ruleIds
  · rw [defines_iff_mem_ruleIds, hids]
    exact defines_iff_mem_ruleIds.mp h.start_defined
  · intro lhs alternatives hr'
    obtain ⟨r, hr, hrr'⟩ := exists_matched_left hfolded hr'
    cases hrr'
    exact h.selections lhs alternatives hr
  · intro r' hr' v hv
    obtain ⟨r, hr, hrr'⟩ := exists_matched_left hfolded hr'
    rw [defines_iff_mem_ruleIds, hids]
    exact defines_iff_mem_ruleIds.mp (h.closed r hr v (hrr'.references_subset hv))
  · refine acyclic_of_levels (rank rules) fun r' hr' v hv => ?_
    obtain ⟨r, hr, hrr'⟩ := exists_matched_left hfolded hr'
    rw [hrr'.lhs_eq]
    exact h.rank_lt (refersTo_of_mem hr (hrr'.references_subset hv))

/-- A coherent state the tags of which suit the rules. -/
structure Suited (g : Grammar) (tags : Tagging) (s : Session) : Prop where
  coherent : Coherent g tags s
  tagged : TaggedBy Tag.Suits g tags

theorem Suited.foldRound (h : Suited g tags s)
    (hrun : foldRules g.emptyVariables tags g.rules s = .ok (rules, tags') s')
    (hof : Grammar.ofRules g.start rules = .ok g') : Suited g' tags' s' :=
  ⟨(h.coherent.foldRound hrun hof).coherent, h.tagged.foldRound h.coherent hrun hof⟩

theorem foldRounds_succeeds {rounds : Nat} (h : Suited g tags s) :
    Succeeds (foldRounds rounds g tags) s := by
  induction rounds generalizing g tags s with
  | zero => exact .pure _ _
  | succ rounds ih =>
    have hwell := h.coherent.valid.well_formed
    rw [foldRounds]
    by_cases hempty : g.emptyVariables.isEmpty = true
    · rw [if_pos hempty]
      exact .pure _ _
    · rw [if_neg hempty]
      have hsuited : ∀ r ∈ g.rules, ∃ tag, tags.tag? r.lhs = some tag ∧ tag.Suits r := by
        intro r hr
        obtain ⟨tag, htag, hsuits, -⟩ := h.tagged r hr
        exact ⟨tag, htag, hsuits⟩
      refine (foldRules_succeeds hwell.nodup_ruleIds hsuited s).bind fun folded s₁ hrun => ?_
      obtain ⟨rules, tags₁⟩ := folded
      have hwell₁ := hwell.of_folded (foldRules_eq_ok hrun).2
      refine (rebuild_succeeds (Grammar.ofRules_eq_ok.mpr ⟨hwell₁, rfl⟩) s₁).bind
        fun g₁ s₂ hrebuild => ?_
      obtain ⟨hof, rfl⟩ := rebuild_eq_ok.mp hrebuild
      exact ih (h.foldRound hrun hof)

/-- Folding succeeds. -/
theorem foldEmpties_succeeds (h : Suited g tags s) : Succeeds (foldEmpties g tags) s :=
  foldRounds_succeeds h

/-- When folding is done, the tags fit the rules. -/
theorem Suited.foldEmpties (h : Suited g tags s)
    (hrun : foldEmpties g tags s = .ok (g', tags') s') : WellTagged g' tags' := by
  obtain ⟨-, -, hnone⟩ := h.coherent.foldEmpties hrun
  have hsuited : Suited g' tags' s' := foldRounds_keeps Suited.foldRound h hrun
  exact hsuited.tagged.wellTagged hnone

end FluentGrammar
