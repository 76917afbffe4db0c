import FluentGrammar.Proofs.SharedPrefix.Factoring
import FluentGrammar.Proofs.SharedPrefix.Tracing

/-! # Outcomes of factoring

    What a run of factoring comes to: besides the variables that splitting makes there are
    those that the root brings, and the root has its new rule. The parts of the alternatives
    of a selection are different variables if the selection is separated, because they come
    from variables that selections alone lead to.
-/

namespace FluentGrammar

/-! ## What the root brings -/

/-- A variable that the root brings: one for a choice among the partial parts, or one that
    reads the shared terminal in front of them. -/
inductive Made.Crafted (task : FactorTask) (tag : Tag) (remaining parts : List Variable)
    (rest : Variable) (m : Made) : Prop where
  | rest (hsource : m.source = task.target.root) (hrule : m.rule = .selection rest parts)
      (hparts : parts.length ≠ 1)
      (htag : tag.withComponents task.target.symbol.params .selection = .ok m.tag) :
      m.Crafted task tag remaining parts rest
  | lead {lead : Variable} (hsource : m.source = task.target.root)
      (hrule : m.rule = .derivation lead (task.leadBody rest)) (hremaining : remaining ≠ [])
      (htag : tag.reshaped .derivation = .ok m.tag) :
      m.Crafted task tag remaining parts rest

/-- What a run of factoring comes to: the variables that splitting has made and those that
    the root brings, the full and the partial parts of the alternatives of the root, the
    variable for the partial parts, and the new rule and perhaps the new tag of the root. -/
structure Outcome where
  made : List Made
  crafted : List Made
  remaining : List Variable
  parts : List Variable
  rest : Variable
  root : Rule
  rootTags : List (Variable × Tag)

/-- The new rule of the root, and its new tag if it has one. -/
inductive Outcome.Rooted (task : FactorTask) (tag : Tag) (o : Outcome) : Prop where
  | replaced {leadTag : Tag} (hremaining : o.remaining = [])
      (htag : tag.reshaped .derivation = .ok leadTag)
      (hroot : o.root = .derivation task.target.root (task.leadBody o.rest))
      (htags : o.rootTags = [(task.target.root, leadTag)]) : o.Rooted task tag
  | offered {lead : Made} (hremaining : o.remaining ≠ []) (hmem : lead ∈ o.crafted)
      (hlead : lead.rule = .derivation lead.rule.lhs (task.leadBody o.rest))
      (hroot : o.root = .selection task.target.root (lead.rule.lhs :: o.remaining))
      (htags : o.rootTags = []) : o.Rooted task tag

/-- A workbench is what an outcome says. -/
structure Outcome.Of (task : FactorTask) (s : Session) (alternatives : List Variable)
    (tag : Tag) (o : Outcome) (bench : Workbench) : Prop where
  traced : ∃ b, b.splits = bench.splits ∧ Workbench.Traced task s o.made b
  parted : Parted (Recorded bench.splits) (task.successors task.target.root) alternatives [] []
    o.remaining o.parts
  crafted : ∀ m ∈ o.crafted, m.Crafted task tag o.remaining o.parts o.rest
  rest : o.parts = [o.rest] ∨ ∃ m ∈ o.crafted, m.rule = .selection o.rest o.parts
  rooted : o.Rooted task tag
  rules_eq : bench.rules = (o.made ++ o.crafted).map (·.rule) ++ [o.root]
  tags_eq : bench.tags = (o.made ++ o.crafted).map (fun m => (m.rule.lhs, m.tag)) ++ o.rootTags
  ids_eq : (o.made ++ o.crafted).map Made.id =
    List.range' s.ids.issued (o.made ++ o.crafted).length

section Root

variable {task : FactorTask} {s : Session} {b₁ b₂ bench : Workbench} {tag : Tag}
variable {alternatives remaining parts : List Variable} {rest : Variable}

/-- A run of factoring has an outcome. -/
theorem RootRun.outcome (hg : task.grammar.Valid) (hbefore : task.Before s) {lhs : Variable}
    (hrule : task.grammar.rule? task.target.root = some (.selection lhs alternatives))
    (h : RootRun task alternatives tag remaining parts rest ⟨s, [], [], []⟩ b₁ b₂ bench) :
    ∃ o, Outcome.Of task s alternatives tag o bench ∧ o.remaining = remaining ∧
      o.parts = parts ∧ o.rest = rest := by
  obtain ⟨made, hb₁, -, hparted⟩ := (h.parts_run.mono (traces_splitVariable hg hbefore)).traced
    (fun u hu => .single (.of_alternative hrule hu)) (Workbench.traced_empty task s)
  rw [List.nil_append] at hb₁
  obtain ⟨restTag, hrestTag, hchooses⟩ := h.chooses
  obtain ⟨hsplits, chosen, hlists, hchosen⟩ := hb₁.choose hchooses task.target.root
  have hcrafted : ∀ m ∈ chosen, m.Crafted task tag remaining parts rest := by
    cases hchosen with
    | alone => exact fun _ hm => nomatch hm
    | added hone => exact List.forall_mem_singleton.mpr (.rest rfl rfl hone hrestTag)
  have hselects : parts = [rest] ∨ ∃ m ∈ chosen, m.rule = .selection rest parts := by
    cases hchosen with
    | alone hparts => exact Or.inl hparts
    | added => exact Or.inr ⟨_, List.mem_singleton.mpr rfl, rfl⟩
  -- The last step either adds one more variable or gives the root a new tag.
  obtain ⟨leadTag, hleadTag, hroot⟩ := h.root_step
  cases hroot with
  | replaced hremaining =>
    refine ⟨⟨made, chosen, remaining, parts, rest,
      .derivation task.target.root (task.leadBody rest), [(task.target.root, leadTag)]⟩,
      ?_, rfl, rfl, rfl⟩
    exact {
      traced := ⟨b₁, hsplits.symm, hb₁⟩
      parted := by
        show Parted (Recorded b₂.splits) _ _ _ _ _ _
        rw [hsplits]
        exact hparted
      crafted := hcrafted
      rest := hselects
      rooted := .replaced hremaining hleadTag rfl rfl
      rules_eq := by rw [hlists.rules_eq]
      tags_eq := by rw [hlists.tags_eq]
      ids_eq := hlists.ids_eq }
  | @offered lead b₃ hremaining hlead =>
    have hlists' := hlists.add hlead task.target.root
    rw [List.append_assoc] at hlists'
    have hsplits' : b₃.splits = b₁.splits := hlead.splits_eq.trans hsplits
    refine ⟨⟨made,
      chosen ++ [⟨task.target.root, .derivation lead (task.leadBody rest), leadTag⟩],
      remaining, parts, rest, .selection task.target.root (lead :: remaining), []⟩,
      ?_, rfl, rfl, rfl⟩
    exact {
      traced := ⟨b₁, hsplits'.symm, hb₁⟩
      parted := by
        show Parted (Recorded b₃.splits) _ _ _ _ _ _
        rw [hsplits']
        exact hparted
      crafted := List.forall_mem_append.mpr
        ⟨hcrafted, List.forall_mem_singleton.mpr (.lead rfl rfl hremaining hleadTag)⟩
      rest := hselects.imp_right fun ⟨m, hm, hrule⟩ => ⟨m, List.mem_append_left _ hm, hrule⟩
      rooted := .offered hremaining
        (List.mem_append_right _ (List.mem_singleton.mpr rfl)) rfl rfl rfl
      rules_eq := by rw [hlists'.rules_eq]
      tags_eq := by rw [hlists'.tags_eq, List.append_nil]
      ids_eq := hlists'.ids_eq }

theorem exists_outcome_of_factorRoot (hg : task.grammar.Valid) (hbefore : task.Before s)
    {lhs : Variable}
    (hrule : task.grammar.rule? task.target.root = some (.selection lhs alternatives))
    (h : factorRoot task alternatives tag ⟨s, [], [], []⟩ = .ok () bench) :
    ∃ o, Outcome.Of task s alternatives tag o bench := by
  obtain ⟨remaining, parts, rest, b₁, b₂, hrun⟩ := factorRoot_run h
  obtain ⟨o, ho, -, -, -⟩ := hrun.outcome hg hbefore hrule
  exact ⟨o, ho⟩

end Root

section Parts

variable {task : FactorTask} {s : Session} {b bench : Workbench} {tag : Tag} {o : Outcome}
variable {made : List Made} {alternatives : List Variable}

theorem Outcome.Of.nodup_ids (h : o.Of task s alternatives tag bench) :
    ((o.made ++ o.crafted).map Made.id).Nodup := by
  rw [h.ids_eq]
  exact List.nodup_range'

theorem Outcome.Of.issued_le (h : o.Of task s alternatives tag bench) {i : Nat}
    (hi : i ∈ (o.made ++ o.crafted).map Made.id) : s.ids.issued ≤ i := by
  rw [h.ids_eq, List.mem_range'_1] at hi
  exact hi.1

theorem Outcome.Rooted.lhs_root (h : o.Rooted task tag) : o.root.lhs = task.target.root := by
  cases h with
  | replaced _ _ hroot => rw [hroot]; rfl
  | offered _ _ _ hroot => rw [hroot]; rfl

theorem Outcome.Of.explained (h : o.Of task s alternatives tag bench) :
    ∀ m ∈ o.made, m.Explained task (Recorded bench.splits) := by
  obtain ⟨b, hsplits, hb⟩ := h.traced
  rw [← hsplits]
  exact hb.explained

theorem Outcome.Of.placed (h : o.Of task s alternatives tag bench) {v : Variable}
    {split : Split} (hv : (v, split) ∈ bench.splits) : Placed task o.made v split := by
  obtain ⟨b, hsplits, hb⟩ := h.traced
  rw [← hsplits] at hv
  exact hb.placed v split hv

/-! ## Parts apart -/

/-- What is given for different alternatives of a separated selection is different. -/
theorem GivenFor.apart (hg : task.grammar.Valid) {v lhs u w y z : Variable}
    (hrule : task.grammar.rule? v = some (.selection lhs alternatives))
    (hsep : task.grammar.Separated v.id) (hu : u ∈ alternatives) (hw : w ∈ alternatives)
    (hne : u ≠ w) (hy : GivenFor task made u y) (hz : GivenFor task made w z) : y.id ≠ z.id := by
  intro hid
  have hstem := hz.stem
  rw [← hid] at hstem
  exact hne (hsep.eq_of_stem hg hrule hu hw hy.stem hstem)

theorem apart_of_given (hg : task.grammar.Valid) {gives : Variable → Variable → Prop}
    {v lhs : Variable} (hrule : task.grammar.rule? v = some (.selection lhs alternatives))
    (hsep : task.grammar.Separated v.id)
    (hgiven : ∀ u ∈ alternatives, ∀ y, gives u y → GivenFor task made u y) :
    Apart gives alternatives [] := by
  have hdistinct := (hg.well_formed.selections lhs alternatives (Grammar.mem_of_rule? hrule)).2
  refine ⟨fun _ _ _ _ => List.not_mem_nil, hdistinct.imp_of_mem ?_⟩
  intro u w hu hw hid y z hy hz
  have hne : u ≠ w := fun heq => hid (congrArg Variable.id heq)
  exact (hgiven u hu y hy).apart hg hrule hsep hu hw hne (hgiven w hw z hz)

/-- A separated variable has its parts apart. -/
theorem Workbench.Traced.splitsApart (h : b.Traced task s made) (hg : task.grammar.Valid)
    (hbefore : task.Before s) {i : Nat} (hsep : task.grammar.Separated i) :
    SplitsApart task (Recorded b.splits) i := by
  have hrule : ∀ {lhs alternatives}, Rule.selection lhs alternatives ∈ task.grammar.rules →
      task.grammar.rule? lhs = some (.selection lhs alternatives) :=
    fun hr => Grammar.rule?_of_mem hg.well_formed.nodup_ruleIds hr rfl
  constructor
  · intro lhs alternatives hr hid
    refine apart_of_given hg (hrule hr) (hid ▸ hsep)
      fun u hu y hy => (?_ : GivenFor task made u y)
    exact h.given_full hbefore (mem_ruleIds_of_reference hg (hrule hr) hu) hy
  · intro lhs alternatives hr hid
    refine apart_of_given hg (hrule hr) (hid ▸ hsep)
      fun u hu y hy => (?_ : GivenFor task made u y)
    exact (h.given_part hy).1

/-- If the root is separated, no two parts are merged anywhere. -/
theorem Outcome.Of.allApart (h : o.Of task s alternatives tag bench) (hg : task.grammar.Valid)
    (hbefore : task.Before s) (hsep : task.grammar.Separated task.target.root.id) :
    Factored.AllApart task bench.splits := by
  obtain ⟨b, hsplits, hb⟩ := h.traced
  rw [← hsplits]
  refine ⟨hb.splitsApart hg hbefore hsep, fun v split hv => ?_⟩
  have hbelow := (hb.placed v split hv).below.to_reflTransGen
  exact hb.splitsApart hg hbefore (hsep.of_passes hg hbelow)

end Parts

/-! ## Factoring as a whole -/

/-- How factoring leads from one grammar to the next one: what the root offers and how it is
    tagged, and the outcome, the rules and tags of which replace those of the root. -/
structure FactoredBy (task : FactorTask) (s : Session) (alternatives : List Variable)
    (tag : Tag) (bench : Workbench) (o : Outcome) (g' : Grammar) (tags' : Tagging) : Prop where
  root_rule : ∃ lhs, task.grammar.rule? task.target.root = some (.selection lhs alternatives)
  root_tag : task.tags.require task.target.root = .ok tag
  outcome : o.Of task s alternatives tag bench
  factored : Factored task g'.rules alternatives o.remaining o.parts bench.splits o.rest
  rules_eq : Grammar.ofRules task.grammar.start
    (task.grammar.rootReplaced task.target.root bench.rules) = .ok g'
  tags_eq : tags' = task.tags.extend bench.tags

/-- Factoring a shared prefix out has an outcome. -/
theorem leftFactor_factoredBy {g g' : Grammar} {tags tags' : Tagging} {s s' : Session}
    {target : SharedPrefix} (hg : Coherent g tags s)
    (h : leftFactor g tags target s = .ok (g', tags') s') :
    ∃ alternatives tag bench o,
      FactoredBy ⟨g, tags, target⟩ s alternatives tag bench o g' tags' := by
  obtain ⟨lhs, alternatives, tag, bench, hrule, htag, hstep, hof, htags, -⟩ :=
    leftFactor_eq_ok h
  obtain ⟨remaining, parts, rest, b₁, b₂, hrun⟩ := factorRoot_run hstep
  have hbefore : FactorTask.Before ⟨g, tags, target⟩ s := hg.fresh
  obtain ⟨o, ho, rfl, rfl, rfl⟩ := hrun.outcome hg.valid hbefore hrule
  have hfinished := hrun.finished (Workbench.sound_empty ⟨g, tags, target⟩ s)
  have hfactored := (hfinished.factored hrule).of_rules
    fun _ hr => (Grammar.mem_rules_of_ofRules hof).mpr hr
  exact ⟨alternatives, tag, bench, o, ⟨lhs, hrule⟩, htag, ho, hfactored, hof, htags⟩

end FluentGrammar
