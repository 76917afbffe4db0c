import FluentGrammar.Proofs.SharedPrefix.Discovery
import FluentGrammar.Proofs.Tag.Factoring
import FluentGrammar.Proofs.Tag.Folding
import FluentGrammar.Proofs.Value.Languages

/-! # What tags inherit

    A tag that names a node has the node from the tag of some variable of the state before.
    What the tagged variable derives, that variable derives behind a word, and the components
    that the tag lists are those of the other tag and the parameters of the word. In every
    pass the word is empty, save for what factoring leaves behind the shared terminal. Such
    words add up along a run.
-/

namespace FluentGrammar

variable {config : Config} {g g₀ g' : Grammar} {tags tags₀ tags' : Tagging}
variable {s s₀ s' : Session} {v v₀ v' : Variable} {tag tag₀ tag' : Tag} {issued : Nat}

/-! ## One variable -/

/-- A tagged variable `v'` goes on with what a variable `v` of another state derives behind
    the word `x`. Variables with ids below `issued` have been there before and stay what they
    are. -/
structure Inherits (g : Grammar) (tags : Tagging) (issued : Nat) (g' : Grammar)
    (v' : Variable) (tag' : Tag) (v : Variable) (tag : Tag) (x : Word) : Prop where
  mem : v ∈ g.vars
  tagged : tags.tag? v = some tag
  node_eq : tag'.node? = tag.node?
  required_eq : tag'.required = tag.required ++ x.flatMap Terminal.params
  derives : ∀ w, Derives g' v' w → Derives g v (x ++ w)
  kept : v'.id < issued → v'.id = v.id ∧ x = []

/-- The words behind which two steps go on are put one behind the other. -/
theorem Inherits.trans {n : Nat} {x y : Word}
    (h₁ : Inherits g₀ tags₀ n g v tag v₀ tag₀ x)
    (h₂ : Inherits g tags issued g' v' tag' v tag y) (hle : n ≤ issued) :
    Inherits g₀ tags₀ n g' v' tag' v₀ tag₀ (x ++ y) where
  mem := h₁.mem
  tagged := h₁.tagged
  node_eq := h₂.node_eq.trans h₁.node_eq
  required_eq := by
    rw [h₂.required_eq, h₁.required_eq, List.flatMap_append, List.append_assoc]
  derives := by
    intro w hw
    rw [List.append_assoc]
    exact h₁.derives _ (h₂.derives w hw)
  kept := by
    intro hlt
    obtain ⟨hid, rfl⟩ := h₂.kept (by omega)
    obtain ⟨hid₁, rfl⟩ := h₁.kept (by omega)
    exact ⟨hid.trans hid₁, rfl⟩

/-- What derives no more than another variable goes on with it, if its tag has the same node
    and components. -/
theorem Inherits.of_same (hv : v ∈ g.vars) (htag : tags.tag? v = some tag)
    (hnode : tag'.node? = tag.node?) (hrequired : tag'.required = tag.required)
    (hderives : ∀ w, Derives g' v' w → Derives g v w) (hkept : v'.id < issued → v'.id = v.id) :
    Inherits g tags issued g' v' tag' v tag [] where
  mem := hv
  tagged := htag
  node_eq := hnode
  required_eq := by rw [hrequired, List.flatMap_nil, List.append_nil]
  derives := hderives
  kept := fun hlt => ⟨hkept hlt, rfl⟩

/-- A new variable goes on behind a terminal, if its tag lists the parameters of that. -/
theorem Inherits.of_components {t : Terminal} {shape : Rule.Shape} (ht : t ≠ .empty)
    (hv : v ∈ g.vars) (htag : tags.tag? v = some tag)
    (hcomponents : tag.withComponents t.params shape = .ok tag') (hne : tag' ≠ .bridge)
    (hderives : ∀ w, Derives g' v' w → Derives g v (t.word ++ w)) (hnew : issued ≤ v'.id) :
    Inherits g tags issued g' v' tag' v tag [t] where
  mem := hv
  tagged := htag
  node_eq := Tag.node?_withComponents hcomponents
  required_eq := by
    have hbridge := Tag.ne_bridge_of_node?_eq hne (Tag.node?_withComponents hcomponents)
    rw [Tag.required_withComponents hbridge hcomponents, List.flatMap_singleton]
  derives := by
    intro w hw
    rw [← Terminal.word_of_ne_empty ht]
    exact hderives w hw
  kept := fun hlt => absurd hlt (Nat.not_lt.mpr hnew)

theorem defines_of_mem_vars (hv : v ∈ g.vars) : Defines g.rules v := by
  obtain ⟨r, hr, rfl⟩ := List.mem_map.mp hv
  exact ⟨r, hr, rfl⟩

/-- A variable that is kept goes on with itself, if its tag has the same node and
    components. -/
theorem Inherits.of_kept (hg : g.Valid) (hg' : g'.Valid) (hvalued : ValuedBelow g g')
    (hv : v ∈ g.vars) (hv' : v' ∈ g'.vars) (hid : v'.id = v.id) (htag : tags.tag? v = some tag)
    (hnode : tag'.node? = tag.node?) (hrequired : tag'.required = tag.required) :
    Inherits g tags issued g' v' tag' v tag [] := by
  refine .of_same hv htag hnode hrequired (fun w hw => ?_) fun _ => hid
  have hdefines : Defines g'.rules v := by
    obtain ⟨r, hr, hrid⟩ := defines_of_mem_vars hv'
    exact ⟨r, hr, hrid.trans hid⟩
  exact (hvalued.derives_iff hg hg' (defines_of_mem_vars hv) hdefines).mp (hw.congr hid)

/-! ## All variables -/

/-- Every tag of a state that names a node is inherited from the state before. -/
def AllInherit (g : Grammar) (tags : Tagging) (issued : Nat) (g' : Grammar) (tags' : Tagging) :
    Prop :=
  ∀ v' ∈ g'.vars, ∀ tag', tags'.tag? v' = some tag' → tag' ≠ .bridge →
    ∃ v tag x, Inherits g tags issued g' v' tag' v tag x

theorem AllInherit.bridgeTerminals (hg : Coherent g tags s)
    (hrun : bridgeTerminals g tags s = .ok (g', tags') s') :
    AllInherit g tags issued g' tags' := by
  have hg' := (hg.bridgeTerminals hrun).1.coherent.valid
  have hvalued := (ValuedAlike.of_bridgeTerminals hg.valid hrun).valuedBelow
  obtain ⟨bridges, -, hrules⟩ := exists_bridged hg hrun
  intro v' hv' tag' htag' hne
  obtain ⟨r', hr', rfl⟩ := List.mem_map.mp hv'
  rcases hrules r' hr' with ⟨r, hr, hrr', hsame⟩ | ⟨b, -, rfl, hbridge⟩
  · have hid := congrArg Variable.id hrr'.lhs_eq
    exact ⟨r.lhs, tag', [], .of_kept hg.valid hg' hvalued (List.mem_map_of_mem hr) hv' hid
      (hsame.symm.trans htag') rfl rfl⟩
  · rw [htag'] at hbridge
    exact absurd (Option.some.inj hbridge) hne

theorem AllInherit.foldRound {rules : List Rule} (hg : Coherent g tags s)
    (hrun : foldRules g.emptyVariables tags g.rules s = .ok (rules, tags') s')
    (hof : Grammar.ofRules g.start rules = .ok g') : AllInherit g tags issued g' tags' := by
  have hg' := Grammar.valid_of_ofRules hof
  have hvalued := (ValuedAlike.of_folded hg.valid (foldRules_eq_ok hrun).2
    fun r => Grammar.mem_rules_of_ofRules hof).valuedBelow
  obtain ⟨hrules, -⟩ := foldRules_tags hg.valid.well_formed.nodup_ruleIds hrun
  intro v' hv' tag' htag' hne
  obtain ⟨r', hr', rfl⟩ := List.mem_map.mp hv'
  obtain ⟨r, hr, hlhs, htags⟩ := hrules r' ((Grammar.mem_rules_of_ofRules hof).mp hr')
  -- Every variable of a coherent state has a tag.
  have htagged : (tags.tag? r.lhs).isSome = true := by
    rw [Tagging.tag?_isSome, hg.tagged]
    exact mem_ruleIds_of_mem hr
  obtain ⟨tag, htag⟩ := Option.isSome_iff_exists.mp htagged
  obtain ⟨last, hlast, hwith⟩ := htags tag htag
  rw [hlhs, hlast] at htag'
  obtain rfl := Option.some.inj htag'
  obtain ⟨hnode, hrequired⟩ := hwith.same_node
  exact ⟨r.lhs, tag, [], .of_kept hg.valid hg' hvalued (List.mem_map_of_mem hr) hv'
    (congrArg Variable.id hlhs) htag hnode hrequired⟩

theorem AllInherit.dropUnreachable (hg : Coherent g tags s)
    (hrun : dropUnreachable g tags s = .ok (g', tags') s') :
    AllInherit g tags issued g' tags' := by
  have hg' := (hg.dropUnreachable hrun).coherent.valid
  have hsub := rules_subset_of_dropUnreachable hrun
  have hvalued := (ValuedAlike.of_subset hg' hsub).valuedBelow
  obtain ⟨-, rfl, -⟩ := dropUnreachable_eq_ok.mp hrun
  intro v' hv' tag' htag' _
  obtain ⟨r', hr', rfl⟩ := List.mem_map.mp hv'
  rw [Tagging.tag?_retain (mem_ruleIds_of_mem hr')] at htag'
  exact ⟨r'.lhs, tag', [], .of_kept hg.valid hg' hvalued (List.mem_map_of_mem (hsub hr')) hv' rfl
    htag' rfl rfl⟩

/-! ## Factoring -/

/-- The words of what a split stands for. -/
theorem mem_splitValue {split : Split} {t : Terminal} {w : Word} :
    w ∈ split.value Terminal.language g.languageOf t ↔
      (∃ full, split.full = some full ∧ Derives g full w) ∨
        ∃ u, Derives g split.part u ∧ w = t.word ++ u := by
  unfold Split.value
  rw [Language.mem_add, Language.mem_mul]
  refine or_congr ?_ ?_
  · cases split.full with
    | none => simp
    | some full =>
      rw [Option.map_some, Option.getD_some, mem_languageOf]
      simp
  · constructor
    · intro hex
      obtain ⟨front, hfront, u, hu, hw⟩ := hex
      rw [show front = t.word from hfront] at hw
      exact ⟨u, mem_languageOf.mp hu, hw.symm⟩
    · intro hex
      obtain ⟨u, hu, hw⟩ := hex
      exact ⟨t.word, rfl, u, mem_languageOf.mpr hu, hw.symm⟩

namespace FactoredBy

variable {task : FactorTask} {alternatives : List Variable} {bench : Workbench} {o : Outcome}

theorem valid (h : FactoredBy task s alternatives tag bench o g' tags') : g'.Valid :=
  Grammar.valid_of_ofRules h.rules_eq

/-- The parts of a variable derive together what the variable derives. -/
theorem splitValue_eq (h : FactoredBy task s alternatives tag bench o g' tags')
    (hg : task.grammar.Valid) (hv : v.id ∈ ruleIds task.grammar.rules) {split : Split}
    (hs : Recorded bench.splits v split) :
    split.value Terminal.language g'.languageOf task.target.symbol =
      task.grammar.languageOf v.id :=
  (h.factored.values_le comparison_language.toCompatible (Or.inl comparison_language.add_repeat)
    hg h.valid.well_formed (isValuation_languageOf hg.well_formed.nodup_ruleIds)
    (isValuation_languageOf h.valid.well_formed.nodup_ruleIds) v.id hv).2 v split rfl hs

theorem derives_part (h : FactoredBy task s alternatives tag bench o g' tags')
    (hg : task.grammar.Valid) (hv : v.id ∈ ruleIds task.grammar.rules) {split : Split}
    (hs : Recorded bench.splits v split) {w : Word} (hw : Derives g' split.part w) :
    Derives task.grammar v (task.target.symbol.word ++ w) := by
  rw [← mem_languageOf, ← h.splitValue_eq hg hv hs, mem_splitValue]
  exact Or.inr ⟨w, hw, rfl⟩

theorem derives_full (h : FactoredBy task s alternatives tag bench o g' tags')
    (hg : task.grammar.Valid) (hv : v.id ∈ ruleIds task.grammar.rules) {split : Split}
    (hs : Recorded bench.splits v split) {full : Variable} (hfull : split.full = some full)
    {w : Word} (hw : Derives g' full w) : Derives task.grammar v w := by
  rw [← mem_languageOf, ← h.splitValue_eq hg hv hs, mem_splitValue]
  exact Or.inl ⟨full, hfull, hw⟩

/-- The root derives what its new alternative does. -/
theorem derives_of_leadBody (h : FactoredBy task s alternatives tag bench o g' tags')
    {w : Word} (hw : DerivesAll g' (task.leadBody o.rest) w) :
    Derives g' task.target.root w := by
  have hnodup := h.valid.well_formed.nodup_ruleIds
  cases h.factored.rerooted with
  | replaced _ hroot => exact .derivation (Grammar.rule?_of_mem hnodup hroot rfl) hw
  | offered lead hlead hroot =>
    exact .selection (Grammar.rule?_of_mem hnodup hroot rfl) (List.mem_cons_self ..)
      (.derivation (Grammar.rule?_of_mem hnodup hlead rfl) hw)

/-- The root keeps its words. -/
theorem exists_root (h : FactoredBy task s alternatives tag bench o g' tags')
    (hg : task.grammar.Valid) :
    ∃ lhs ∈ task.grammar.vars, lhs.id = task.target.root.id ∧
      task.tags.tag? lhs = some tag ∧
        ∀ w, Derives g' task.target.root w → Derives task.grammar lhs w := by
  obtain ⟨lhs, hrule⟩ := h.root_rule
  have hid : lhs.id = task.target.root.id := Grammar.lhs_of_rule? hrule
  have hroot : Defines task.grammar.rules task.target.root :=
    ⟨_, Grammar.mem_of_rule? hrule, hid⟩
  have hroot' : Defines g'.rules task.target.root := by
    cases h.factored.rerooted with
    | replaced _ hroot => exact ⟨_, hroot, rfl⟩
    | offered _ _ hroot => exact ⟨_, hroot, rfl⟩
  refine ⟨lhs, List.mem_map_of_mem (Grammar.mem_of_rule? hrule), hid, ?_, fun w hw => ?_⟩
  · rw [Tagging.tag?_congr hid]
    exact Tagging.require_eq_ok.mp h.root_tag
  · have hvalued := ValuedBelow.of_factored h.factored hg h.valid
    exact ((hvalued.derives_iff hg h.valid hroot hroot').mp hw).congr hid.symm

/-- The tag of a variable that splitting has made is that of the variable it was split from,
    behind the shared terminal if it is a partial part. -/
theorem inherits_made (h : FactoredBy task s alternatives tag bench o g' tags')
    (hg : task.grammar.Valid) (hsymbol : task.target.symbol ≠ .empty) {m : Made}
    (hm : m ∈ o.made) (hne : m.tag ≠ .bridge) :
    ∃ v tag x, Inherits task.grammar task.tags s.ids.issued g' m.rule.lhs m.tag v tag x := by
  have hnew : s.ids.issued ≤ m.rule.lhs.id :=
    h.outcome.issued_le (List.mem_map_of_mem (List.mem_append_left _ hm))
  -- A partial part goes on behind the terminal, a full part with the variable itself.
  cases h.outcome.explained m hm with
  | @part r tag split hrule htag hs hlhs hmade =>
    have hid := Grammar.lhs_of_rule? hrule
    rw [Tagging.require_eq_ok, ← Tagging.tag?_congr hid] at htag
    refine ⟨r.lhs, tag, _, .of_components hsymbol
      (List.mem_map_of_mem (Grammar.mem_of_rule? hrule)) htag hmade hne (fun w hw => ?_) hnew⟩
    rw [← hlhs] at hw
    exact (h.derives_part hg (mem_ruleIds_of_rule? hrule) hs hw).congr hid.symm
  | @full r split hrule htag hs hlhs =>
    have hid := Grammar.lhs_of_rule? hrule
    rw [Tagging.require_eq_ok, ← Tagging.tag?_congr hid] at htag
    refine ⟨r.lhs, m.tag, [], .of_same
      (List.mem_map_of_mem (Grammar.mem_of_rule? hrule)) htag rfl rfl (fun w hw => ?_)
      fun hlt => absurd hlt (Nat.not_lt.mpr hnew)⟩
    exact (h.derives_full hg (mem_ruleIds_of_rule? hrule) hs hlhs hw).congr hid.symm

/-- The tag of a variable that the root brings is that of the root. -/
theorem inherits_crafted (h : FactoredBy task s alternatives tag bench o g' tags')
    (hg : task.grammar.Valid) (hsymbol : task.target.symbol ≠ .empty) {m : Made}
    (hm : m ∈ o.crafted) (hne : m.tag ≠ .bridge) :
    ∃ v tag x, Inherits task.grammar task.tags s.ids.issued g' m.rule.lhs m.tag v tag x := by
  have hnew : s.ids.issued ≤ m.rule.lhs.id :=
    h.outcome.issued_le (List.mem_map_of_mem (List.mem_append_right _ hm))
  have hmade : m.rule ∈ g'.rules := by
    rw [Grammar.mem_rules_of_ofRules h.rules_eq, Grammar.mem_rootReplaced, h.outcome.rules_eq]
    exact Or.inr (List.mem_append_left _ (List.mem_map_of_mem (List.mem_append_right _ hm)))
  have hfound := Grammar.rule?_of_mem h.valid.well_formed.nodup_ruleIds hmade rfl
  obtain ⟨lhs, hlhs, -, htag, hderives⟩ := h.exists_root hg
  cases h.outcome.crafted m hm with
  | rest _ hrest _ hcomponents =>
    refine ⟨lhs, tag, _, .of_components hsymbol hlhs htag hcomponents hne (fun w hw => ?_) hnew⟩
    rw [hrest] at hw
    -- What stands behind the shared terminal derives `w`, so the root derives both.
    have hbehind : DerivesAll g' [.var o.rest] (w ++ []) := .var hw .nil
    rw [List.append_nil] at hbehind
    exact hderives _ (h.derives_of_leadBody (.term hbehind))
  | lead _ hlead _ hreshaped =>
    refine ⟨lhs, tag, [], .of_same hlhs htag (Tag.node?_reshaped hreshaped)
      (Tag.required_reshaped hreshaped) (fun w hw => ?_)
      fun hlt => absurd hlt (Nat.not_lt.mpr hnew)⟩
    rw [hlead] at hfound
    rw [hlead, derives_iff_of_derivation hfound] at hw
    exact hderives w (h.derives_of_leadBody hw)

/-- The root goes on with itself, also if its tag has been reshaped. -/
theorem inherits_root (h : FactoredBy task s alternatives tag bench o g' tags')
    (hg : task.grammar.Valid) (hroot : task.target.root.id < s.ids.issued)
    (htag' : tags'.tag? task.target.root = some tag') :
    ∃ v tag x,
      Inherits task.grammar task.tags s.ids.issued g' task.target.root tag' v tag x := by
  obtain ⟨lhs, hlhs, hid, htag, hderives⟩ := h.exists_root hg
  have hsame : tag'.node? = tag.node? ∧ tag'.required = tag.required := by
    rcases h.tag?_root hroot with ⟨-, leadTag, hreshaped, hlead⟩ | ⟨-, hkept⟩
    · obtain rfl : leadTag = tag' := Option.some.inj (hlead.symm.trans htag')
      exact ⟨Tag.node?_reshaped hreshaped, Tag.required_reshaped hreshaped⟩
    · obtain rfl : tag = tag' := Option.some.inj (hkept.symm.trans htag')
      exact ⟨rfl, rfl⟩
  exact ⟨lhs, tag, [], .of_same hlhs htag hsame.1 hsame.2 hderives fun _ => hid.symm⟩

/-- All tags of a factored grammar are inherited. -/
theorem allInherit (h : FactoredBy task s alternatives tag bench o g' tags')
    (hg : task.grammar.Valid) (hbefore : task.Before s)
    (hsymbol : task.target.symbol ≠ .empty) :
    AllInherit task.grammar task.tags s.ids.issued g' tags' := by
  have hrootid : task.target.root.id < s.ids.issued := by
    obtain ⟨lhs, hrule⟩ := h.root_rule
    exact hbefore _ (mem_ruleIds_of_rule? hrule)
  intro v' hv' tag' htag' hne
  obtain ⟨r', hr', rfl⟩ := List.mem_map.mp hv'
  rcases h.mem_rules hr' with ⟨hr, hroot⟩ | ⟨m, hm, rfl⟩ | rfl
  · rw [h.tag?_of_old (hbefore _ (mem_ruleIds_of_mem hr)) hroot] at htag'
    exact ⟨r'.lhs, tag', [], .of_kept hg h.valid (ValuedBelow.of_factored h.factored hg h.valid)
      (List.mem_map_of_mem hr) hv' rfl htag' rfl rfl⟩
  · rw [h.tag?_of_made hrootid hm] at htag'
    obtain rfl := Option.some.inj htag'
    rcases List.mem_append.mp hm with hm | hm
    · exact h.inherits_made hg hsymbol hm hne
    · exact h.inherits_crafted hg hsymbol hm hne
  · rw [h.outcome.rooted.lhs_root] at htag' ⊢
    exact h.inherits_root hg hrootid htag'

end FactoredBy

/-! ## All passes -/

/-- A state that comes from a given one: every tag that names a node is inherited from it. -/
structure Descends (g₀ : Grammar) (tags₀ : Tagging) (s₀ : Session) (g : Grammar)
    (tags : Tagging) (s : Session) : Prop where
  coherent : Coherent g tags s
  issued_le : s₀.ids.issued ≤ s.ids.issued
  inherit : AllInherit g₀ tags₀ s₀.ids.issued g tags

theorem Descends.refl (hg : Coherent g tags s) : Descends g tags s g tags s := by
  refine ⟨hg, Nat.le_refl _, fun v hv tag htag _ => ⟨v, tag, [], ?_⟩⟩
  exact .of_kept hg.valid hg.valid (.refl hg.valid) hv hv rfl htag rfl rfl

theorem Descends.step (h : Descends g₀ tags₀ s₀ g tags s) (hstep : Rewritten g s g' tags' s')
    (hinherit : AllInherit g tags s.ids.issued g' tags') :
    Descends g₀ tags₀ s₀ g' tags' s' := by
  refine ⟨hstep.coherent, h.issued_le.trans hstep.rewrites.issued_le, ?_⟩
  intro v' hv' tag' htag' hne
  obtain ⟨v, tag, y, hlater⟩ := hinherit v' hv' tag' htag' hne
  have hbridge := Tag.ne_bridge_of_node?_eq hne hlater.node_eq
  obtain ⟨v₀, tag₀, x, hearlier⟩ := h.inherit v hlater.mem tag hlater.tagged hbridge
  exact ⟨v₀, tag₀, x ++ y, hearlier.trans hlater h.issued_le⟩

/-- No pass makes up a node or components. -/
theorem passInvariant_descends : PassInvariant config (Descends g₀ tags₀ s₀) where
  count := fun f h => ⟨h.coherent.count f, h.issued_le, h.inherit⟩
  bridge := by
    intro g tags s g' tags' s' h hrun
    exact h.step (h.coherent.bridgeTerminals hrun).1 (.bridgeTerminals h.coherent hrun)
  fold := by
    intro g tags s rules g' tags' s' h hrun hof
    exact h.step (h.coherent.foldRound hrun hof) (.foldRound h.coherent hrun hof)
  drop := by
    intro g tags s g' tags' s' h hrun
    exact h.step (h.coherent.dropUnreachable hrun) (.dropUnreachable h.coherent hrun)
  factor := by
    intro g tags s target g' tags' s' h hfound hrun
    have hforks := SharedPrefix.Forks.of_discover h.coherent.valid hfound
    obtain ⟨alternatives, tag, bench, o, hfactored⟩ := leftFactor_factoredBy h.coherent hrun
    have hbefore : FactorTask.Before ⟨g, tags, target⟩ s := h.coherent.fresh
    exact h.step (h.coherent.leftFactor hrun).1
      (hfactored.allInherit h.coherent.valid hbefore hforks.symbol_ne)

end FluentGrammar
