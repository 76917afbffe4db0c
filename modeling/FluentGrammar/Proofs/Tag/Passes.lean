import FluentGrammar.Proofs.Rewriting.Bridging
import FluentGrammar.Proofs.Rewriting.Pruning
import FluentGrammar.Proofs.Tag.Changes

/-! # Passes that keep tags fitting

    Bridging and pruning succeed on every coherent state, and tags that fit the rules still
    fit them afterwards.
-/

namespace FluentGrammar

variable {g g' : Grammar} {tags tags' : Tagging} {s s' : Session}

/-! ## Bridging -/

section Bridging

variable {bridges : List Bridge} {rules : List Rule}

/-- A bridged rule refers to what it referred to before, and to bridges. -/
theorem BridgedRule.mem_references {r r' : Rule} (h : BridgedRule bridges r r')
    {v : Variable} (hv : v ∈ r'.references) :
    v ∈ r.references ∨ ∃ b ∈ bridges, v = b.holder := by
  cases h with
  | selection lhs alternatives => exact Or.inl hv
  | empty lhs => exact Or.inl hv
  | derivation lhs first rest rest' hrest =>
    rw [Rule.mem_references_derivation] at hv ⊢
    rcases List.mem_cons.mp hv with hv | hv
    · exact Or.inl (hv ▸ List.mem_cons_self ..)
    · obtain ⟨x, hx, hxv⟩ := exists_matched_left hrest hv
      cases hxv with
      | var v => exact Or.inl (List.mem_cons_of_mem _ hx)
      | term b hb => exact Or.inr ⟨b, hb, rfl⟩

/-- What holds a bridge has just been taken, so it has no rule yet. -/
theorem BridgesTaken.not_mem_ruleIds {s₁ : Session} (h : BridgesTaken s bridges s₁)
    (hfresh : ∀ i ∈ ruleIds g.rules, i < s.ids.issued) {b : Bridge} (hb : b ∈ bridges) :
    b.holder.id ∉ ruleIds g.rules := by
  intro hmem
  have hlt := hfresh _ hmem
  have hle := (h.holders b hb).1
  omega

section Bridged

variable {s₁ : Session} (hg : g.Valid) (hfresh : ∀ i ∈ ruleIds g.rules, i < s.ids.issued)
variable (htaken : BridgesTaken s bridges s₁)
variable (hbridged : List.Forall₂ (BridgedRule bridges) g.rules rules)

include hg hfresh htaken hbridged

theorem nodup_ruleIds_bridged : (ruleIds (rules ++ bridges.map Bridge.rule)).Nodup := by
  rw [ruleIds_append, ruleIds_of_bridged hbridged]
  refine List.nodup_append.mpr ⟨hg.well_formed.nodup_ruleIds, ?_, ?_⟩
  · unfold ruleIds
    rw [List.map_map]
    exact htaken.nodup
  · intro i hi j hj heq
    obtain ⟨r, hr, rfl⟩ := mem_ruleIds.mp hj
    obtain ⟨b, hb, rfl⟩ := List.mem_map.mp hr
    exact htaken.not_mem_ruleIds hfresh hb (heq ▸ hi)

/-- Bridges stand on the lowest level, below all variables that there were before. -/
theorem acyclic_bridged :
    ∀ i, ¬ Relation.TransGen (RefersTo (rules ++ bridges.map Bridge.rule)) i i := by
  have hwell := hg.well_formed
  refine acyclic_of_levels (fun i => if i ∈ ruleIds g.rules then rank g.rules i + 1 else 0) ?_
  intro r hr v hv
  rcases List.mem_append.mp hr with hr | hr
  · obtain ⟨q, hq, hqr⟩ := exists_matched_left hbridged hr
    simp only [hqr.lhs_eq, if_pos (mem_ruleIds_of_mem hq)]
    rcases hqr.mem_references hv with hv | ⟨b, hb, rfl⟩
    · have hlt := hwell.rank_lt (refersTo_of_mem hq hv)
      rw [if_pos (defines_iff_mem_ruleIds.mp (hwell.closed q hq v hv))]
      omega
    · rw [if_neg (htaken.not_mem_ruleIds hfresh hb)]
      omega
  · obtain ⟨b, -, rfl⟩ := List.mem_map.mp hr
    cases hv

/-- Bridged rules are well formed together with the bridges. -/
theorem wellFormed_bridged : WellFormed g.start (rules ++ bridges.map Bridge.rule) := by
  have hwell := hg.well_formed
  have hids := fun i => mem_ruleIds_of_bridged hbridged (i := i)
  constructor
  · rw [distinct_iff_nodup]
    exact nodup_ruleIds_bridged hg hfresh htaken hbridged
  · rw [defines_iff_mem_ruleIds, hids]
    exact Or.inr (defines_iff_mem_ruleIds.mp hwell.start_defined)
  · intro lhs alternatives hr
    rcases List.mem_append.mp hr with hr | hr
    · obtain ⟨q, hq, hqr⟩ := exists_matched_left hbridged hr
      cases hqr
      exact hwell.selections lhs alternatives hq
    · obtain ⟨b, -, hb⟩ := List.mem_map.mp hr
      cases hb
  · intro r hr v hv
    rw [defines_iff_mem_ruleIds, hids]
    rcases List.mem_append.mp hr with hr | hr
    · -- A bridged rule refers to what it referred to before and to bridges.
      obtain ⟨q, hq, hqr⟩ := exists_matched_left hbridged hr
      rcases hqr.mem_references hv with hv | ⟨b, hb, rfl⟩
      · exact Or.inr (defines_iff_mem_ruleIds.mp (hwell.closed q hq v hv))
      · exact Or.inl (List.mem_map_of_mem hb)
    · obtain ⟨b, -, rfl⟩ := List.mem_map.mp hr
      cases hv
  · exact acyclic_bridged hg hfresh htaken hbridged

end Bridged

/-- Bridging succeeds. -/
theorem bridgeTerminals_succeeds (hg : g.Valid)
    (hfresh : ∀ i ∈ ruleIds g.rules, i < s.ids.issued) :
    Succeeds (bridgeTerminals g tags) s := by
  obtain ⟨htaken, hbridged⟩ := bridgeRules_spec s g.rules
  have hwell := wellFormed_bridged hg hfresh htaken hbridged
  unfold bridgeTerminals
  refine Succeeds.get_bind ?_
  generalize bridgeRules s g.rules = bridged at hwell
  obtain ⟨rules, bridges, s₂⟩ := bridged
  refine (Succeeds.set s₂ s).bind fun _ _ _ => ?_
  by_cases hnone : bridges.isEmpty = true
  · rw [if_pos hnone]
    exact .pure _ _
  · rw [if_neg hnone]
    refine (Succeeds.modify _ _).bind fun _ _ _ => ?_
    exact (rebuild_succeeds (Grammar.ofRules_eq_ok.mpr ⟨hwell, rfl⟩) _).bind
      fun _ _ _ => .pure _ _

/-- The rules of a bridged grammar with their tags: those of the grammar, bridged, with the
    tags that they had, and those of bridges. -/
theorem exists_bridged (hg : Coherent g tags s)
    (hrun : bridgeTerminals g tags s = .ok (g', tags') s') :
    ∃ bridges, (∀ r ∈ g.rules, ∃ r' ∈ g'.rules, BridgedRule bridges r r') ∧
      ∀ r' ∈ g'.rules,
        (∃ r ∈ g.rules, BridgedRule bridges r r' ∧ tags'.tag? r'.lhs = tags.tag? r.lhs) ∨
          ∃ b ∈ bridges, r' = b.rule ∧ tags'.tag? r'.lhs = some .bridge := by
  obtain ⟨rules, bridges, s₁, htaken, hbridged, ⟨rfl, rfl, rfl, -⟩ | ⟨hof, rfl, -⟩⟩ :=
    bridgeTerminals_eq_ok hrun
  · have hself : ∀ r ∈ g'.rules, BridgedRule [] r r := by
      intro r hr
      obtain ⟨r', -, hrr'⟩ := exists_matched_right hbridged hr
      rwa [hrr'.eq_of_nil] at hrr'
    exact ⟨[], fun r hr => ⟨r, hr, hself r hr⟩, fun r hr => Or.inl ⟨r, hr, hself r hr, rfl⟩⟩
  -- The bridges that have been taken are new, so no older tag is hidden by theirs.
  have hmem := fun r => Grammar.mem_rules_of_ofRules hof (r := r)
  have hentries : (bridges.map (fun b => (b.holder, Tag.bridge))).map (·.1.id) =
      bridges.map (·.holder.id) := by
    rw [List.map_map]
    rfl
  have hnodup := htaken.nodup
  rw [← hentries] at hnodup
  refine ⟨bridges, fun r hr => ?_, fun r' hr' => ?_⟩
  · obtain ⟨r', hr', hrr'⟩ := exists_matched_right hbridged hr
    exact ⟨r', (hmem r').mpr (List.mem_append_left _ hr'), hrr'⟩
  rcases List.mem_append.mp ((hmem r').mp hr') with hr' | hr'
  · obtain ⟨r, hr, hrr'⟩ := exists_matched_left hbridged hr'
    refine Or.inl ⟨r, hr, hrr', ?_⟩
    rw [hrr'.lhs_eq, Tagging.tag?_extend_of_not_mem]
    rw [hentries]
    intro hholder
    obtain ⟨b, hb, hid⟩ := List.mem_map.mp hholder
    exact htaken.not_mem_ruleIds hg.fresh hb (hid ▸ mem_ruleIds_of_mem hr)
  · obtain ⟨b, hb, rfl⟩ := List.mem_map.mp hr'
    exact Or.inr ⟨b, hb, rfl, Tagging.tag?_extend_of_mem hnodup (List.mem_map_of_mem hb) rfl⟩

/-- A bridged rule is described by the tag that the rule had. -/
theorem BridgedRule.fits {r r' : Rule} {tag : Tag} (h : BridgedRule bridges r r')
    (htag : tag.Fits r) : tag.Fits r' := by
  cases h with
  | selection lhs alternatives => exact htag
  | empty lhs => exact htag
  | derivation lhs first rest rest' hrest =>
    cases htag with
    | full node => exact .full node _
    | partialDerivation node required implicit => exact .partialDerivation ..
    | bridge =>
      cases hrest
      exact .bridge ..

/-- Bridging keeps tags fitting. -/
theorem WellTagged.bridgeTerminals (h : WellTagged g tags) (hg : Coherent g tags s)
    (hrun : bridgeTerminals g tags s = .ok (g', tags') s') : WellTagged g' tags' := by
  have hg' := (hg.bridgeTerminals hrun).1.coherent.valid
  obtain ⟨bridges, hkept, hrules⟩ := exists_bridged hg hrun
  -- A rule that reads nothing has no terminal behind the first one, so it stays.
  have hreads : ∀ v, g.ReadsNothing v → g'.ReadsNothing v := by
    intro v hv
    obtain ⟨lhs, hr, hid⟩ := (readsNothing_iff hg.valid).mp hv
    obtain ⟨r', hr', hrr'⟩ := hkept _ hr
    refine (readsNothing_iff hg').mpr ⟨lhs, ?_, hid⟩
    cases hrr' with
    | derivation _ _ _ _ hrest =>
      cases hrest
      exact hr'
  intro r' hr'
  rcases hrules r' hr' with ⟨r, hr, hrr', hsame⟩ | ⟨b, -, rfl, htag⟩
  · obtain ⟨tag, htag, hfits, himplicit⟩ := h r hr
    exact ⟨tag, hsame.trans htag, hrr'.fits hfits, fun v hv => hreads v (himplicit v hv)⟩
  · exact ⟨.bridge, htag, .bridge b.holder b.terminal, fun _ hv => nomatch hv⟩

end Bridging

/-! ## Pruning -/

/-- Pruning succeeds. -/
theorem dropUnreachable_succeeds (g : Grammar) (tags : Tagging) (s : Session) :
    Succeeds (dropUnreachable g tags) s :=
  ⟨_, _, dropUnreachable_eq_ok.mpr ⟨rfl, rfl, rfl⟩⟩

/-- Pruning keeps tags fitting: it follows the edges to implicit variables. -/
theorem TaggedBy.dropUnreachable {describes : Tag → Rule → Prop} (h : TaggedBy describes g tags)
    (hg : Coherent g tags s) (hrun : dropUnreachable g tags s = .ok (g', tags') s') :
    TaggedBy describes g' tags' := by
  obtain ⟨rfl, rfl, -⟩ := dropUnreachable_eq_ok.mp hrun
  have hnodup := hg.valid.well_formed.nodup_ruleIds
  intro r hr
  obtain ⟨hrg, hreach⟩ := (Grammar.mem_rules_prune hnodup).mp hr
  obtain ⟨tag, htag, hdescribes, himplicit⟩ := h r hrg
  refine ⟨tag, ?_, hdescribes, ?_⟩
  · rw [Tagging.tag?_retain (mem_ruleIds_of_mem hr)]
    exact htag
  · intro v hv
    obtain ⟨lhs, hv', hid⟩ := (readsNothing_iff hg.valid).mp (himplicit v hv)
    refine (readsNothing_iff (hg.valid.prune _)).mpr ⟨lhs, ?_, hid⟩
    refine (Grammar.mem_rules_prune hnodup).mpr ⟨hv', hreach.tail (Or.inr ?_)⟩
    -- The tag of the rule stands among the entries, and its edge leads to the variable.
    obtain ⟨entry, hentry, htag'⟩ := Option.map_eq_some_iff.mp htag
    have hentryid : entry.1.id = r.lhs.id := by simpa using List.find?_some hentry
    refine ⟨(entry.1, v), ?_, hentryid, hid.symm⟩
    unfold Tagging.implicitEdges
    refine List.mem_flatMap.mpr ⟨entry, List.mem_of_find?_eq_some hentry, ?_⟩
    rw [← htag'] at hv
    exact List.mem_map_of_mem hv

end FluentGrammar
