import FluentGrammar.Proofs.SharedPrefix.Outcome
import FluentGrammar.Proofs.Tag.Changes

/-! # Factoring keeps tags suited

    The tag of a new variable is made of that of the variable it was split from. A partial
    part takes the tag with the components that the shared terminal carries, a full part takes
    it as it is, and what the root brings has the tag of the root in the shape of its rule.
-/

namespace FluentGrammar

variable {task : FactorTask} {s : Session} {alternatives : List Variable} {tag : Tag}
variable {bench : Workbench} {o : Outcome} {g' : Grammar} {tags' : Tagging}

/-! ## Tags of new rules -/

theorem PartRule.suits {S : Variable → Split → Prop} {r r' : Rule} {tag' : Tag}
    (h : PartRule task S r r') (hsuits : tag.Suits r)
    (hmade : tag.withComponents task.target.symbol.params r.shape = .ok tag') :
    tag'.Suits r' := by
  cases h with
  | reads => exact hsuits.withComponents_reads hmade
  | leading => exact .fits ((hsuits.completes.withComponents hmade).fits _ _)
  | choice => exact .fits (hsuits.withComponents_selection hmade)

theorem FullRule.suits {S : Variable → Split → Prop} {r r' : Rule}
    (h : FullRule task S r r') (hsuits : tag.Suits r) : tag.Suits r' := by
  cases h with
  | leading => exact .fits (hsuits.completes.fits _ _)
  | choice => exact .fits hsuits.selection

/-- The tag of a variable that splitting makes suits its rule. -/
theorem Made.Explained.suits {S : Variable → Split → Prop} {m : Made}
    (h : m.Explained task S) (htagged : TaggedBy Tag.Suits task.grammar task.tags) :
    m.tag.Suits m.rule ∧ ∀ v ∈ m.tag.implicit, task.grammar.ReadsNothing v := by
  cases h with
  | @part r tag split hrule htag _ _ hmade hbody =>
    obtain ⟨hsuits, himplicit⟩ := htagged.of_require hrule htag
    rw [Tag.implicit_withComponents hmade]
    exact ⟨hbody.suits hsuits hmade, himplicit⟩
  | @full r split hrule htag _ _ hbody =>
    obtain ⟨hsuits, himplicit⟩ := htagged.of_require hrule htag
    exact ⟨hbody.suits hsuits, himplicit⟩

/-- The tag of a variable that the root brings suits its rule. -/
theorem Made.Crafted.suits {remaining parts : List Variable} {rest lhs : Variable} {m : Made}
    (h : m.Crafted task tag remaining parts rest)
    (hsuits : tag.Suits (.selection lhs alternatives)) :
    m.tag.Suits m.rule ∧ m.tag.implicit = tag.implicit := by
  cases h with
  | rest _ hrule _ htag =>
    rw [hrule]
    exact ⟨.fits (hsuits.withComponents_selection htag), Tag.implicit_withComponents htag⟩
  | lead _ hrule _ htag =>
    obtain ⟨leadTag, hleadTag, hcompletes⟩ := Tag.exists_reshaped hsuits
    obtain rfl : leadTag = m.tag := Except.ok.inj (hleadTag.symm.trans htag)
    rw [hrule]
    exact ⟨.fits (hcompletes.fits _ _), Tag.implicit_reshaped htag⟩

/-! ## Looking up the tags -/

theorem Outcome.Rooted.mem_rootTags (h : o.Rooted task tag) {entry : Variable × Tag}
    (hentry : entry ∈ o.rootTags) : entry.1 = task.target.root := by
  cases h with
  | replaced _ _ _ htags =>
    rw [htags, List.mem_singleton] at hentry
    rw [hentry]
  | offered _ _ _ _ htags =>
    rw [htags] at hentry
    cases hentry

/-- What a run of factoring tags is new, or it is the root. -/
theorem Outcome.Of.new_or_root (h : o.Of task s alternatives tag bench) {i : Nat}
    (hi : i ∈ bench.tags.map (·.1.id)) : s.ids.issued ≤ i ∨ i = task.target.root.id := by
  rw [h.tags_eq, List.map_append, List.mem_append, List.map_map] at hi
  rcases hi with hi | hi
  · exact Or.inl (h.issued_le hi)
  · obtain ⟨entry, hentry, rfl⟩ := List.mem_map.mp hi
    exact Or.inr (congrArg Variable.id (h.rooted.mem_rootTags hentry))

theorem Outcome.Of.nodup_tags (h : o.Of task s alternatives tag bench)
    (hroot : task.target.root.id < s.ids.issued) : (bench.tags.map (·.1.id)).Nodup := by
  have hnew : ((o.made ++ o.crafted).map (fun m => (m.rule.lhs, m.tag))).map (·.1.id) =
      (o.made ++ o.crafted).map Made.id := by
    rw [List.map_map]
    rfl
  rw [h.tags_eq, List.map_append, hnew]
  refine List.nodup_append.mpr ⟨h.nodup_ids, ?_, ?_⟩
  · cases h.rooted with
    | replaced _ _ _ htags =>
      rw [htags]
      exact List.nodup_singleton _
    | offered _ _ _ _ htags =>
      rw [htags]
      exact List.nodup_nil
  · intro i hi j hj heq
    obtain ⟨entry, hentry, rfl⟩ := List.mem_map.mp hj
    rw [h.rooted.mem_rootTags hentry] at heq
    have hle := h.issued_le hi
    omega

namespace FactoredBy

theorem tag?_of_made (h : FactoredBy task s alternatives tag bench o g' tags')
    (hroot : task.target.root.id < s.ids.issued) {m : Made} (hm : m ∈ o.made ++ o.crafted) :
    tags'.tag? m.rule.lhs = some m.tag := by
  have hmem : (m.rule.lhs, m.tag) ∈ bench.tags := by
    rw [h.outcome.tags_eq]
    exact List.mem_append_left _ (List.mem_map.mpr ⟨m, hm, rfl⟩)
  rw [h.tags_eq]
  exact Tagging.tag?_extend_of_mem (h.outcome.nodup_tags hroot) hmem rfl

theorem tag?_of_old (h : FactoredBy task s alternatives tag bench o g' tags') {v : Variable}
    (hv : v.id < s.ids.issued) (hne : v.id ≠ task.target.root.id) :
    tags'.tag? v = task.tags.tag? v := by
  rw [h.tags_eq]
  apply Tagging.tag?_extend_of_not_mem
  intro hmem
  rcases h.outcome.new_or_root hmem with hle | heq
  · omega
  · exact hne heq

/-- The root has its new tag, or the old one. -/
theorem tag?_root (h : FactoredBy task s alternatives tag bench o g' tags')
    (hroot : task.target.root.id < s.ids.issued) :
    o.remaining = [] ∧ (∃ leadTag, tag.reshaped .derivation = .ok leadTag ∧
        tags'.tag? task.target.root = some leadTag) ∨
      o.remaining ≠ [] ∧ tags'.tag? task.target.root = some tag := by
  -- The root has a new tag among those of the workbench only where it becomes a derivation.
  cases h.outcome.rooted with
  | @replaced leadTag hremaining htag _ htags =>
    refine Or.inl ⟨hremaining, leadTag, htag, ?_⟩
    have hmem : (task.target.root, leadTag) ∈ bench.tags := by
      rw [h.outcome.tags_eq, htags]
      exact List.mem_append_right _ (List.mem_singleton.mpr rfl)
    rw [h.tags_eq]
    exact Tagging.tag?_extend_of_mem (h.outcome.nodup_tags hroot) hmem rfl
  | offered hremaining _ _ _ htags =>
    refine Or.inr ⟨hremaining, ?_⟩
    rw [h.tags_eq, Tagging.tag?_extend_of_not_mem]
    · exact Tagging.require_eq_ok.mp h.root_tag
    · intro hmem
      rw [h.outcome.tags_eq, htags, List.append_nil, List.map_map] at hmem
      have hle := h.outcome.issued_le hmem
      omega

/-! ## Rules with their tags -/

/-- Where a rule of a factored grammar comes from: it is an old one, it belongs to a new
    variable, or it is that of the root. -/
theorem mem_rules (h : FactoredBy task s alternatives tag bench o g' tags') {r : Rule}
    (hr : r ∈ g'.rules) :
    r ∈ task.grammar.rules ∧ r.lhs.id ≠ task.target.root.id ∨
      (∃ m ∈ o.made ++ o.crafted, r = m.rule) ∨ r = o.root := by
  rw [Grammar.mem_rules_of_ofRules h.rules_eq, Grammar.mem_rootReplaced, h.outcome.rules_eq,
    List.mem_append, List.mem_map, List.mem_singleton] at hr
  rcases hr with hr | ⟨m, hm, rfl⟩ | hr
  · exact Or.inl hr
  · exact Or.inr (Or.inl ⟨m, hm, rfl⟩)
  · exact Or.inr (Or.inr hr)

/-- The root is a selection, so rules that read nothing stay. -/
theorem readsNothing (h : FactoredBy task s alternatives tag bench o g' tags')
    (hg : task.grammar.Valid) {v : Variable} (hv : task.grammar.ReadsNothing v) :
    g'.ReadsNothing v := by
  obtain ⟨lhs, hr, hid⟩ := (readsNothing_iff hg).mp hv
  obtain ⟨root, hrule⟩ := h.root_rule
  rw [readsNothing_iff (Grammar.valid_of_ofRules h.rules_eq)]
  refine ⟨lhs, ?_, hid⟩
  rw [Grammar.mem_rules_of_ofRules h.rules_eq, Grammar.mem_rootReplaced]
  refine Or.inl ⟨hr, fun hroot => ?_⟩
  have hfound := Grammar.rule?_of_mem hg.well_formed.nodup_ruleIds hr hroot
  rw [hrule] at hfound
  cases hfound

/-- The root stays a selection with its tag, or it reads the terminal with a reshaped one. -/
theorem root_suits (h : FactoredBy task s alternatives tag bench o g' tags')
    (hroot : task.target.root.id < s.ids.issued) {lhs : Variable}
    (hsuits : tag.Suits (.selection lhs alternatives)) :
    ∃ tag', tags'.tag? o.root.lhs = some tag' ∧ tag'.Suits o.root ∧
      tag'.implicit = tag.implicit := by
  rw [h.outcome.rooted.lhs_root]
  cases h.outcome.rooted with
  | replaced hremaining _ hreplaced =>
    obtain ⟨-, leadTag, hleadTag, htag⟩ | ⟨hne, -⟩ := h.tag?_root hroot
    · obtain ⟨tag', htag', hcompletes⟩ := Tag.exists_reshaped hsuits
      obtain rfl : tag' = leadTag := Except.ok.inj (htag'.symm.trans hleadTag)
      rw [hreplaced]
      exact ⟨tag', htag, .fits (hcompletes.fits _ _), Tag.implicit_reshaped hleadTag⟩
    · exact absurd hremaining hne
  | offered hremaining _ _ hoffered =>
    obtain ⟨hnil, -⟩ | ⟨-, htag⟩ := h.tag?_root hroot
    · exact absurd hnil hremaining
    · rw [hoffered]
      exact ⟨tag, htag, .fits hsuits.selection, rfl⟩

/-- Factoring keeps tags suited. -/
theorem tagged (h : FactoredBy task s alternatives tag bench o g' tags')
    (hg : task.grammar.Valid) (hbefore : task.Before s)
    (htagged : TaggedBy Tag.Suits task.grammar task.tags) : TaggedBy Tag.Suits g' tags' := by
  obtain ⟨lhs, hrule⟩ := h.root_rule
  have hrootid := hbefore _ (mem_ruleIds_of_rule? hrule)
  obtain ⟨hsuits, himplicit⟩ := htagged.of_require hrule h.root_tag
  intro r hr
  rcases h.mem_rules hr with ⟨hr, hne⟩ | ⟨m, hm, rfl⟩ | rfl
  · obtain ⟨tag', htag', hsuits', himplicit'⟩ := htagged r hr
    refine ⟨tag', ?_, hsuits', fun v hv => h.readsNothing hg (himplicit' v hv)⟩
    rw [h.tag?_of_old (hbefore _ (mem_ruleIds_of_mem hr)) hne]
    exact htag'
  · refine ⟨m.tag, h.tag?_of_made hrootid hm, ?_⟩
    rcases List.mem_append.mp hm with hm | hm
    · obtain ⟨hsuits', himplicit'⟩ := (h.outcome.explained m hm).suits htagged
      exact ⟨hsuits', fun v hv => h.readsNothing hg (himplicit' v hv)⟩
    · obtain ⟨hsuits', heq⟩ := (h.outcome.crafted m hm).suits hsuits
      exact ⟨hsuits', fun v hv => h.readsNothing hg (himplicit v (heq ▸ hv))⟩
  · obtain ⟨tag', htag', hsuits', heq⟩ := h.root_suits hrootid hsuits
    exact ⟨tag', htag', hsuits', fun v hv => h.readsNothing hg (himplicit v (heq ▸ hv))⟩

end FactoredBy

end FluentGrammar
