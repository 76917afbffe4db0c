import FluentGrammar.Proofs.Tag.Lookup
import FluentGrammar.Tag.Tagging
import FluentGrammar.Tag.Meaning

/-! # Changes that tags allow

    A tag that describes a rule can be changed in all the ways in which the rule is changed,
    and the changed tag describes the changed rule. Between two passes a bridge may have lost
    its terminal; folding gives it the rule `<empty>` then.
-/

namespace FluentGrammar

namespace Tag

variable {tag tag' : Tag} {r : Rule} {params : List Parameter}

/-! ## Describing loosely -/

/-- A tag describes a rule as it may be between two passes. -/
inductive Suits : Tag → Rule → Prop where
  | fits {tag : Tag} {r : Rule} (h : tag.Fits r) : Suits tag r
  | consumed (lhs : Variable) : Suits .bridge (.derivation lhs [])

theorem Suits.fits_of_not_empty (h : tag.Suits r) (hr : r.isEmptyDerivation = false) :
    tag.Fits r := by
  cases h with
  | fits h => exact h
  | consumed lhs => cases hr

/-- A tag that can complete a node. -/
inductive Completes : Tag → Prop where
  | full (node : String) : Completes (.full node)
  | partialDerivation (node : String) (required : List Parameter)
      (implicit : List Variable) : Completes (.partialDerivation node required implicit)

theorem Completes.fits (h : tag.Completes) (lhs : Variable) (rhs : List Symbol) :
    tag.Fits (.derivation lhs rhs) := by
  cases h with
  | full node => exact .full node _
  | partialDerivation node required implicit =>
    exact .partialDerivation node required implicit lhs rhs

/-- What starts with a variable is no bridge. -/
theorem Suits.completes {lhs w : Variable} {rest : List Symbol}
    (h : tag.Suits (.derivation lhs (.var w :: rest))) : tag.Completes := by
  cases h with
  | fits h =>
    cases h with
    | full node => exact .full node
    | partialDerivation node required implicit => exact .partialDerivation ..

/-- The tag of a selection describes every selection. -/
theorem Suits.selection {lhs v : Variable} {alternatives vars : List Variable}
    (h : tag.Suits (.selection lhs alternatives)) : tag.Fits (.selection v vars) := by
  cases h with
  | fits h =>
    cases h with
    | full node => exact .full node _
    | partialSelection node required => exact .partialSelection node required v vars

/-! ## Components -/

theorem exists_withComponents (h : tag.Suits r) (params : List Parameter) :
    ∃ tag', tag.withComponents params r.shape = .ok tag' := by
  cases h with
  | consumed lhs => exact ⟨_, rfl⟩
  | fits h =>
    cases h with
    | full node r => cases r <;> exact ⟨_, rfl⟩
    | partialSelection => exact ⟨_, rfl⟩
    | partialDerivation => exact ⟨_, rfl⟩
    | bridge => exact ⟨_, rfl⟩

/-- Components do not change the implicit nodes. -/
theorem implicit_withComponents {shape : Rule.Shape}
    (h : tag.withComponents params shape = .ok tag') : tag'.implicit = tag.implicit := by
  unfold withComponents at h
  split at h <;> cases h <;> rfl

/-- Components do not change the node. -/
theorem node?_withComponents {shape : Rule.Shape}
    (h : tag.withComponents params shape = .ok tag') : tag'.node? = tag.node? := by
  unfold withComponents at h
  split at h <;> cases h <;> rfl

/-- Unless it is a bridge, a tag lists the components behind those that it had. -/
theorem required_withComponents {shape : Rule.Shape} (hne : tag ≠ .bridge)
    (h : tag.withComponents params shape = .ok tag') :
    tag'.required = tag.required ++ params := by
  unfold withComponents at h
  split at h <;> cases h
  · rfl
  · rfl
  · rfl
  · rfl
  · exact absurd rfl hne

/-- With components, what completes a node still completes it. -/
theorem Completes.withComponents (h : tag.Completes)
    (hmade : tag.withComponents params .derivation = .ok tag') : tag'.Completes := by
  cases h with
  | full node =>
    cases hmade
    exact .partialDerivation ..
  | partialDerivation =>
    cases hmade
    exact .partialDerivation ..

/-- With components, the tag of a selection chooses among partial methods. -/
theorem Suits.withComponents_selection {lhs v : Variable} {alternatives vars : List Variable}
    (h : tag.Suits (.selection lhs alternatives))
    (hmade : tag.withComponents params .selection = .ok tag') :
    tag'.Fits (.selection v vars) := by
  cases h with
  | fits h =>
    cases h with
    | full node =>
      cases hmade
      exact .partialSelection ..
    | partialSelection =>
      cases hmade
      exact .partialSelection ..

/-- What is left of a derivation behind its first terminal is described with components. -/
theorem Suits.withComponents_reads {lhs v : Variable} {t : Terminal} {rest : List Symbol}
    (h : tag.Suits (.derivation lhs (.term t :: rest)))
    (hmade : tag.withComponents params .derivation = .ok tag') :
    tag'.Suits (.derivation v rest) := by
  cases h with
  | fits h =>
    cases h with
    | full node =>
      have hfull : Completes (.full node) := .full node
      exact .fits ((hfull.withComponents hmade).fits v rest)
    | partialDerivation node required implicit =>
      have hpartial : Completes (.partialDerivation node required implicit) :=
        .partialDerivation node required implicit
      exact .fits ((hpartial.withComponents hmade).fits v rest)
    | bridge =>
      -- The bridge has lost its terminal.
      cases hmade
      exact .consumed v

/-! ## Reshaping -/

theorem exists_reshaped {lhs : Variable} {alternatives : List Variable}
    (h : tag.Suits (.selection lhs alternatives)) :
    ∃ tag', tag.reshaped .derivation = .ok tag' ∧ tag'.Completes := by
  cases h with
  | fits h =>
    cases h with
    | full node => exact ⟨_, rfl, .full node⟩
    | partialSelection => exact ⟨_, rfl, .partialDerivation ..⟩

theorem implicit_reshaped {shape : Rule.Shape} (h : tag.reshaped shape = .ok tag') :
    tag'.implicit = tag.implicit := by
  unfold reshaped at h
  split at h <;> cases h <;> rfl

theorem node?_reshaped {shape : Rule.Shape} (h : tag.reshaped shape = .ok tag') :
    tag'.node? = tag.node? := by
  unfold reshaped at h
  split at h <;> cases h <;> rfl

theorem required_reshaped {shape : Rule.Shape} (h : tag.reshaped shape = .ok tag') :
    tag'.required = tag.required := by
  unfold reshaped at h
  split at h <;> cases h <;> rfl

/-- Only a bridge names no node. -/
theorem ne_bridge_of_node?_eq (hne : tag' ≠ .bridge) (h : tag'.node? = tag.node?) :
    tag ≠ .bridge := by
  rintro rfl
  cases tag' with
  | full node => cases h
  | partialSelection node required => cases h
  | partialDerivation node required implicit => cases h
  | bridge => exact hne rfl

/-! ## Implicit nodes -/

/-- A tag takes several implicit nodes on, one after the other. -/
inductive Folds : Tag → List Variable → Tag → Prop where
  | nil (tag : Tag) : Folds tag [] tag
  | cons {tag tag₁ tag' : Tag} {v : Variable} {dropped : List Variable}
      (h : tag.withImplicit v = .ok tag₁) (hrest : Folds tag₁ dropped tag') :
      Folds tag (v :: dropped) tag'

theorem Completes.exists_withImplicit (h : tag.Completes) (v : Variable) :
    ∃ tag', tag.withImplicit v = .ok tag' ∧ tag'.Completes := by
  cases h with
  | full node => exact ⟨_, rfl, .partialDerivation ..⟩
  | partialDerivation => exact ⟨_, rfl, .partialDerivation ..⟩

/-- Whatever takes an implicit node on completes a node, the same as before and out of the
    same components. -/
theorem withImplicit_eq_ok {v : Variable} (h : tag.withImplicit v = .ok tag') :
    tag.Completes ∧ tag'.Completes ∧ tag'.node? = tag.node? ∧
      tag'.required = tag.required ∧ tag'.implicit = tag.implicit ++ [v] := by
  cases tag with
  | full node =>
    cases h
    exact ⟨.full node, .partialDerivation .., rfl, rfl, rfl⟩
  | partialDerivation node required implicit =>
    cases h
    exact ⟨.partialDerivation .., .partialDerivation .., rfl, rfl, rfl⟩
  | partialSelection node required => cases h
  | bridge => cases h

theorem Folds.completes {dropped : List Variable} (h : tag.Folds dropped tag')
    (htag : tag.Completes) : tag'.Completes := by
  induction h with
  | nil => exact htag
  | cons h _ ih => exact ih (withImplicit_eq_ok h).2.1

theorem Folds.node?_eq {dropped : List Variable} (h : tag.Folds dropped tag') :
    tag'.node? = tag.node? := by
  induction h with
  | nil => rfl
  | cons h _ ih => exact ih.trans (withImplicit_eq_ok h).2.2.1

theorem Folds.required_eq {dropped : List Variable} (h : tag.Folds dropped tag') :
    tag'.required = tag.required := by
  induction h with
  | nil => rfl
  | cons h _ ih => exact ih.trans (withImplicit_eq_ok h).2.2.2.1

theorem Folds.implicit_eq {dropped : List Variable} (h : tag.Folds dropped tag') :
    tag'.implicit = tag.implicit ++ dropped := by
  induction h with
  | nil => rw [List.append_nil]
  | cons h _ ih => rw [ih, (withImplicit_eq_ok h).2.2.2.2, List.append_assoc]; rfl

end Tag

/-! ## Tagged grammars -/

section Tagged

variable {describes describes' : Tag → Rule → Prop} {g : Grammar} {tags : Tagging}

theorem TaggedBy.imp (h : TaggedBy describes g tags)
    (himp : ∀ tag, ∀ r ∈ g.rules, describes tag r → describes' tag r) :
    TaggedBy describes' g tags := by
  intro r hr
  obtain ⟨tag, htag, hdescribes, himplicit⟩ := h r hr
  exact ⟨tag, htag, himp tag r hr hdescribes, himplicit⟩

theorem WellTagged.suited (h : WellTagged g tags) : TaggedBy Tag.Suits g tags :=
  h.imp fun _ _ _ => .fits

/-- Without empty rules, no bridge has lost its terminal. -/
theorem TaggedBy.wellTagged (h : TaggedBy Tag.Suits g tags) (hnone : NoneEmpty g.rules) :
    WellTagged g tags :=
  h.imp fun _ r hr hsuits => hsuits.fits_of_not_empty (hnone r hr)

/-- The rule of a variable together with its tag. -/
theorem TaggedBy.of_rule? (h : TaggedBy describes g tags) {v : Variable} {r : Rule}
    (hr : g.rule? v = some r) : ∃ tag, tags.tag? v = some tag ∧ describes tag r ∧
      ∀ w ∈ tag.implicit, g.ReadsNothing w := by
  obtain ⟨tag, htag, hrest⟩ := h r (Grammar.mem_of_rule? hr)
  rw [Tagging.tag?_congr (Grammar.lhs_of_rule? hr)] at htag
  exact ⟨tag, htag, hrest⟩

/-- The tag that has been looked up for a variable describes its rule. -/
theorem TaggedBy.of_require (h : TaggedBy describes g tags) {v : Variable} {r : Rule}
    {tag : Tag} (hr : g.rule? v = some r) (htag : tags.require v = .ok tag) :
    describes tag r ∧ ∀ w ∈ tag.implicit, g.ReadsNothing w := by
  obtain ⟨found, hfound, hrest⟩ := h.of_rule? hr
  rw [Tagging.require_eq_ok.mp htag] at hfound
  cases hfound
  exact hrest

theorem readsNothing_iff (hg : g.Valid) {v : Variable} :
    g.ReadsNothing v ↔ ∃ lhs, Rule.derivation lhs [.term .empty] ∈ g.rules ∧ lhs.id = v.id := by
  constructor
  · intro hex
    obtain ⟨lhs, hrule⟩ := hex
    exact ⟨lhs, Grammar.mem_of_rule? hrule, Grammar.lhs_of_rule? hrule⟩
  · intro hex
    obtain ⟨lhs, hr, hid⟩ := hex
    exact ⟨lhs, Grammar.rule?_of_mem hg.well_formed.nodup_ruleIds hr hid⟩

end Tagged

end FluentGrammar
