import FluentGrammar.Proofs.SharedPrefix.Discovery
import FluentGrammar.Proofs.SharedPrefix.Levels
import FluentGrammar.Proofs.Tag.Changes

/-! # Factoring succeeds

    A shared prefix that has been discovered can be factored out. Every variable on one of its
    chains passes on to the next one or reads the shared terminal, so splitting finds the shape
    that it looks for at each of them; chains go down in rank, so its fuel lasts; and the tags
    can be changed in all the ways that are needed, because they suit the rules.
-/

namespace FluentGrammar

variable {g : Grammar} {p : SharedPrefix}

/-! ## Variables on chains -/

/-- A variable is on one of the chains, and from there on the chain leads to the terminal. -/
def SharedPrefix.Charts (g : Grammar) (p : SharedPrefix) (v : Variable) : Prop :=
  ∃ c ∈ p.chains, ∃ u below, u :: below <:+ c.vars ∧ LeadsTo g p.symbol (u :: below) ∧ u.id = v.id

/-- What a variable on a chain does: it reads the terminal, or it passes on to a variable on
    a chain. -/
inductive SharedPrefix.Leads (g : Grammar) (p : SharedPrefix) (v : Variable) : Prop where
  | reads {lhs : Variable} {rest : List Symbol}
      (hrule : g.rule? v = some (.derivation lhs (.term p.symbol :: rest))) : p.Leads g v
  | starts {lhs w : Variable} {rest : List Symbol}
      (hrule : g.rule? v = some (.derivation lhs (.var w :: rest))) (hw : p.Charts g w) :
      p.Leads g v
  | offers {lhs u : Variable} {alternatives : List Variable}
      (hrule : g.rule? v = some (.selection lhs alternatives)) (hu : u ∈ alternatives)
      (hon : u ∈ targetsFrom (p.chains.flatMap (fun c => neighbours c.vars)) v) : p.Leads g v

theorem mem_neighbours_of_suffix {vars below : List Variable} {v w : Variable}
    (h : v :: w :: below <:+ vars) : (v, w) ∈ neighbours vars := by
  induction vars with
  | nil => cases List.suffix_nil.mp h
  | cons x rest ih =>
    unfold neighbours at ih ⊢
    rcases List.suffix_cons_iff.mp h with heq | h
    · rw [← heq]
      exact List.mem_cons_self ..
    · have hmem := ih h
      cases rest with
      | nil => cases hmem
      | cons y more => exact List.mem_cons_of_mem _ hmem

theorem exists_suffix_of_mem_neighbours {vars : List Variable} {v w : Variable}
    (h : (v, w) ∈ neighbours vars) : ∃ below, v :: w :: below <:+ vars := by
  induction vars with
  | nil => cases h
  | cons x rest ih =>
    unfold neighbours at ih h
    cases rest with
    | nil => cases h
    | cons y more =>
      rcases List.mem_cons.mp h with heq | h
      · cases heq
        exact ⟨more, List.suffix_refl _⟩
      · obtain ⟨below, hbelow⟩ := ih h
        exact ⟨below, hbelow.trans (List.suffix_cons ..)⟩

/-- What stands behind a variable on a chain is on the chain. -/
theorem SharedPrefix.Forks.charts (h : p.Forks g) {v w : Variable}
    (hw : w ∈ targetsFrom (p.chains.flatMap (fun c => neighbours c.vars)) v) :
    p.Charts g w := by
  obtain ⟨u, hedge, -⟩ := mem_targetsFrom.mp hw
  obtain ⟨c, hc, hedge⟩ := List.mem_flatMap.mp hedge
  obtain ⟨below, hsuffix⟩ := exists_suffix_of_mem_neighbours hedge
  have hbelow : w :: below <:+ c.vars := (List.suffix_cons u _).trans hsuffix
  have hdrop := List.suffix_iff_eq_drop.mp hbelow
  have hleads : LeadsTo g p.symbol (c.vars.drop (c.vars.length - (w :: below).length)) :=
    (h.leads c hc).drop (by rw [← hdrop]; exact List.cons_ne_nil _ _)
  rw [← hdrop] at hleads
  exact ⟨c, hc, w, below, hbelow, hleads, rfl⟩

theorem SharedPrefix.Charts.leads {v : Variable} (h : p.Charts g v) : p.Leads g v := by
  obtain ⟨c, hc, u, below, hsuffix, hleads, hid⟩ := h
  cases hleads with
  | reads hrule => exact .reads (Grammar.rule?_congr hid ▸ hrule)
  | @starts _ _ w _ below hrule hbelow =>
    refine .starts (Grammar.rule?_congr hid ▸ hrule) ⟨c, hc, w, below, ?_, hbelow, rfl⟩
    exact (List.suffix_cons u _).trans hsuffix
  | @offers _ _ w _ below hrule hw hbelow =>
    refine .offers (Grammar.rule?_congr hid ▸ hrule) hw (mem_targetsFrom.mpr ⟨u, ?_, hid⟩)
    exact List.mem_flatMap.mpr ⟨c, hc, mem_neighbours_of_suffix hsuffix⟩

theorem SharedPrefix.Leads.mem_ruleIds {v : Variable} (h : p.Leads g v) :
    v.id ∈ ruleIds g.rules := by
  cases h with
  | reads hrule => exact mem_ruleIds_of_rule? hrule
  | starts hrule => exact mem_ruleIds_of_rule? hrule
  | offers hrule => exact mem_ruleIds_of_rule? hrule

/-- A variable with the id of one on a chain is on the chain. -/
theorem SharedPrefix.Forks.charts_of_contains (h : p.Forks g) {v w : Variable}
    (hw : (targetsFrom (p.chains.flatMap (fun c => neighbours c.vars)) v).contains w = true) :
    p.Charts g w := by
  obtain ⟨u, hu, hid⟩ := List.mem_map.mp (contains_iff_mem_ids.mp hw)
  obtain ⟨c, hc, x, below, hsuffix, hleads, hx⟩ := h.charts hu
  exact ⟨c, hc, x, below, hsuffix, hleads, hx.trans hid⟩

/-! ## Parts that there are -/

/-- Parts that have been collected stay, and an alternative on a chain adds one. -/
theorem Parted.parts_ne_nil {S : Variable → Split → Prop}
    {onChain alternatives fulls parts fulls' parts' : List Variable}
    (h : Parted S onChain alternatives fulls parts fulls' parts')
    (hsome : parts ≠ [] ∨ ∃ v ∈ alternatives, onChain.contains v = true) : parts' ≠ [] := by
  have hadded : ∀ (vars : List Variable) (v : Variable), addUnique vars v ≠ [] := by
    intro vars v
    unfold addUnique
    split
    · rename_i hv
      intro hnil
      rw [hnil] at hv
      cases hv
    · simp
  induction h with
  | nil =>
    rcases hsome with hne | ⟨v, hv, -⟩
    · exact hne
    · cases hv
  | @aside v rest _ _ _ _ hoff _ ih =>
    refine ih (hsome.imp_right fun ⟨u, hu, hon⟩ => ?_)
    rcases List.mem_cons.mp hu with rfl | hu
    · rw [hoff] at hon
      cases hon
    · exact ⟨u, hu, hon⟩
  | through _ _ _ ih => exact ih (Or.inl (hadded _ _))
  | both _ _ _ ih => exact ih (Or.inl (hadded _ _))

theorem PartsRun.parted {R : SplitRun} {S : Variable → Split → Prop}
    (hR : ∀ b v split b', R b v split b' → S v split)
    {onChain alternatives fulls parts fulls' parts' : List Variable} {b b' : Workbench}
    (h : PartsRun R onChain alternatives fulls parts b fulls' parts' b') :
    Parted S onChain alternatives fulls parts fulls' parts' := by
  induction h with
  | nil => exact .nil
  | aside hv _ ih => exact .aside hv ih
  | through hv hs _ ih => exact .through hv (hR _ _ _ _ hs) ih
  | both hv hs _ ih => exact .both hv (hR _ _ _ _ hs) ih

/-! ## Splitting -/

section Splitting

variable {task : FactorTask} {split : Variable → Factoring Split} {tag : Tag}

theorem addDerivation_succeeds (seed : String) (rhs : List Symbol) (tag : Tag)
    (b : Workbench) : Succeeds (addDerivation seed rhs tag) b :=
  ⟨_, _, rfl⟩

theorem addSelection_succeeds (seed : String) (vars : List Variable) (tag : Tag)
    (b : Workbench) : Succeeds (addSelection seed vars tag) b := by
  unfold addSelection
  split
  · exact .pure _ _
  · exact ⟨_, _, rfl⟩

theorem splitAlternatives_succeeds {onChain alternatives : List Variable}
    (hsplit : ∀ v ∈ alternatives, onChain.contains v = true → ∀ b, Succeeds (split v) b)
    (fulls parts : List Variable) (b : Workbench) :
    Succeeds (splitAlternatives split onChain alternatives fulls parts) b := by
  induction alternatives generalizing fulls parts b with
  | nil => exact .pure _ _
  | cons v rest ih =>
    have hrest := ih fun u hu => hsplit u (List.mem_cons_of_mem _ hu)
    rw [splitAlternatives]
    by_cases hv : onChain.contains v = true
    · rw [if_pos hv]
      exact (hsplit v (List.mem_cons_self ..) hv b).bind fun _ b₁ _ => hrest _ _ b₁
    · rw [if_neg hv]
      exact hrest _ _ b

/-- A derivation that reads the terminal can be split. -/
theorem splitDerivation_succeeds_of_reads {lhs : Variable} {rest : List Symbol}
    (hsuits : tag.Suits (.derivation lhs (.term task.target.symbol :: rest))) (b : Workbench) :
    Succeeds (splitDerivation task split lhs (.term task.target.symbol :: rest) tag) b := by
  obtain ⟨partTag, hpartTag⟩ := Tag.exists_withComponents hsuits task.target.symbol.params
  unfold splitDerivation
  refine Succeeds.ofExcept_bind hpartTag ?_
  simp only [bne_self_eq_false, Bool.false_eq_true, if_false]
  exact (addDerivation_succeeds _ _ _ b).bind fun _ _ _ => .pure _ _

/-- A derivation can be split if the variable can be that it starts with. -/
theorem splitDerivation_succeeds_of_starts {lhs w : Variable} {rest : List Symbol}
    (hsuits : tag.Suits (.derivation lhs (.var w :: rest)))
    (hsplit : ∀ b, Succeeds (split w) b) (b : Workbench) :
    Succeeds (splitDerivation task split lhs (.var w :: rest) tag) b := by
  obtain ⟨partTag, hpartTag⟩ := Tag.exists_withComponents hsuits task.target.symbol.params
  unfold splitDerivation
  refine Succeeds.ofExcept_bind hpartTag ((hsplit b).bind fun below b₁ _ => ?_)
  refine (addDerivation_succeeds _ _ _ b₁).bind fun part b₂ _ => ?_
  cases below.full with
  | none => exact .pure _ _
  | some full => exact (addDerivation_succeeds _ _ _ b₂).bind fun _ _ _ => .pure _ _

/-- A selection can be split if its alternatives on chains can be, and if there are any. -/
theorem splitSelection_succeeds {lhs : Variable} {alternatives : List Variable}
    (hsuits : tag.Suits (.selection lhs alternatives))
    (hsplit : ∀ v ∈ alternatives, (task.successors lhs).contains v = true →
      ∀ b, Succeeds (split v) b)
    (hon : ∃ v ∈ alternatives, (task.successors lhs).contains v = true) (b : Workbench) :
    Succeeds (splitSelection task split lhs alternatives tag) b := by
  obtain ⟨partTag, hpartTag⟩ := Tag.exists_withComponents hsuits task.target.symbol.params
  unfold splitSelection
  refine (splitAlternatives_succeeds hsplit [] [] b).bind fun collected b₁ hrun => ?_
  obtain ⟨fulls, parts⟩ := collected
  have hparted := (splitAlternatives_run hrun).parted (S := fun _ _ => True)
    fun _ _ _ _ _ => trivial
  have hparts : ¬ parts.isEmpty = true := by
    rw [List.isEmpty_iff]
    exact hparted.parts_ne_nil (Or.inr hon)
  simp only [if_neg hparts]
  refine Succeeds.ofExcept_bind hpartTag ?_
  refine (addSelection_succeeds _ _ _ b₁).bind fun part b₂ _ => ?_
  by_cases hfulls : fulls.isEmpty = true
  · rw [if_pos hfulls]
    exact .pure _ _
  · rw [if_neg hfulls]
    exact (addSelection_succeeds _ _ _ b₂).bind fun _ _ _ => .pure _ _

/-- The rules and tags that splitting works on. -/
structure FactorTask.Ready (task : FactorTask) : Prop where
  valid : task.grammar.Valid
  tagged : TaggedBy Tag.Suits task.grammar task.tags
  forks : task.target.Forks task.grammar

/-- Looking up a variable succeeds, and its rule goes on with a tag that suits it. -/
theorem FactorTask.Ready.lookup_bind (h : task.Ready) {v : Variable} {r : Rule}
    {next : Tag → Rule → Factoring Split} {b : Workbench}
    (hrule : task.grammar.rule? v = some r)
    (hnext : ∀ tag, tag.Suits r → Succeeds (next tag r) b) :
    Succeeds (do
      let tag ← ofExcept (task.tags.require v)
      let r ← ofExcept (task.grammar.requireRule v)
      next tag r) b := by
  obtain ⟨tag, htag, hsuits, -⟩ := h.tagged.of_rule? hrule
  exact Succeeds.ofExcept_bind (Tagging.require_eq_ok.mpr htag)
    (Succeeds.ofExcept_bind (Grammar.requireRule_eq_ok.mpr hrule) (hnext tag hsuits))

/-- A split that has been made can be recorded. -/
theorem record_succeeds {make : Factoring Split} {b : Workbench} (hmake : Succeeds make b)
    (v : Variable) :
    Succeeds (do
      let split ← make
      modify (fun bench : Workbench => { bench with splits := (v, split) :: bench.splits })
      return split) b :=
  hmake.bind fun _ b₁ _ => (Succeeds.modify _ b₁).bind fun _ _ _ => .pure _ _

/-- A variable on a chain can be split as long as the fuel exceeds its rank. -/
theorem splitWithin_succeeds (h : task.Ready) {fuel : Nat} {v : Variable}
    (hv : task.target.Charts task.grammar v)
    (hfuel : rank task.grammar.rules v.id < fuel) (b : Workbench) :
    Succeeds (splitWithin task fuel v) b := by
  induction fuel generalizing v b with
  | zero => exact absurd hfuel (Nat.not_lt_zero _)
  | succ fuel ih =>
    -- What the rule refers to has a lower rank, so the fuel that is left suffices for it.
    have hbelow : ∀ {r : Rule} {u : Variable}, task.grammar.rule? v = some r →
        u ∈ r.references → rank task.grammar.rules u.id < fuel := by
      intro r u hrule hu
      have hlt := h.valid.well_formed.rank_lt (refersTo_of_mem (Grammar.mem_of_rule? hrule) hu)
      rw [Grammar.lhs_of_rule? hrule] at hlt
      omega
    unfold splitWithin
    refine Succeeds.get_bind ?_
    cases b.splits.find? (fun entry => entry.1 == v) with
    | some entry => exact .pure _ _
    | none =>
      cases hv.leads with
      | reads hrule =>
        refine h.lookup_bind hrule fun tag hsuits => ?_
        exact record_succeeds (splitDerivation_succeeds_of_reads hsuits b) v
      | starts hrule hw =>
        refine h.lookup_bind hrule fun tag hsuits => ?_
        have hsplit := ih hw (hbelow hrule (Rule.leading_mem_references ..))
        exact record_succeeds (splitDerivation_succeeds_of_starts hsuits hsplit b) v
      | @offers lhs u alternatives hrule hu hon =>
        have hlhs : lhs.id = v.id := Grammar.lhs_of_rule? hrule
        have hcontains : (task.successors lhs).contains u = true := by
          rw [task.successors_congr hlhs]
          exact contains_iff_mem_ids.mpr (List.mem_map_of_mem hon)
        refine h.lookup_bind hrule fun tag hsuits => ?_
        refine record_succeeds (splitSelection_succeeds hsuits (fun w hw hwon => ?_)
          ⟨u, hu, hcontains⟩ b) v
        exact ih (h.forks.charts_of_contains hwon) (hbelow hrule hw)

theorem splitVariable_succeeds (h : task.Ready) {v : Variable}
    (hv : task.target.Charts task.grammar v) (b : Workbench) :
    Succeeds (splitVariable task v) b := by
  refine splitWithin_succeeds h hv ?_ b
  have hlt := h.valid.well_formed.rank_lt_length hv.leads.mem_ruleIds
  exact Nat.lt_succ_of_lt hlt

/-! ## The root -/

theorem factorRoot_succeeds (h : task.Ready) {lhs : Variable} {alternatives : List Variable}
    (hsuits : tag.Suits (.selection lhs alternatives)) (b : Workbench) :
    Succeeds (factorRoot task alternatives tag) b := by
  obtain ⟨restTag, hrestTag⟩ := Tag.exists_withComponents hsuits task.target.symbol.params
  obtain ⟨leadTag, hleadTag, -⟩ := Tag.exists_reshaped hsuits
  have hsplit : ∀ v ∈ alternatives, (task.successors task.target.root).contains v = true →
      ∀ b, Succeeds (splitVariable task v) b :=
    fun v _ hon => splitVariable_succeeds h (h.forks.charts_of_contains hon)
  unfold factorRoot
  refine (splitAlternatives_succeeds hsplit [] [] b).bind fun collected b₁ _ => ?_
  refine Succeeds.ofExcept_bind hrestTag ((addSelection_succeeds _ _ _ b₁).bind
    fun rest b₂ _ => Succeeds.ofExcept_bind hleadTag ?_)
  by_cases hremaining : collected.1.isEmpty = true
  · rw [if_pos hremaining]
    exact .modify _ _
  · rw [if_neg hremaining]
    exact (addDerivation_succeeds _ _ _ b₂).bind fun _ b₃ _ => .modify _ b₃

theorem runFactoring_succeeds {step : Factoring Unit} {s : Session}
    (h : Succeeds step ⟨s, [], [], []⟩) : Succeeds (runFactoring step) s := by
  obtain ⟨u, bench, hrun⟩ := h
  have hrun : step.run ⟨s, [], [], []⟩ = .ok u bench := hrun
  unfold runFactoring
  refine Succeeds.get_bind ?_
  rw [hrun]
  exact (Succeeds.set _ _).bind fun _ _ _ => .pure _ _

/-- The rules on the workbench make a grammar with those that are kept. -/
theorem exists_ofRules_of_factorRoot {tags : Tagging} {s : Session} {lhs : Variable}
    {alternatives : List Variable} {bench : Workbench} (hg : g.Valid)
    (hbefore : FactorTask.Before ⟨g, tags, p⟩ s) (hforks : p.Forks g)
    (hrule : g.rule? p.root = some (.selection lhs alternatives))
    (hstep : factorRoot ⟨g, tags, p⟩ alternatives tag ⟨s, [], [], []⟩ = .ok () bench) :
    ∃ g', Grammar.ofRules g.start (g.rootReplaced p.root bench.rules) = .ok g' := by
  obtain ⟨lhs', alternatives', u, -, hrule', hu, -, -, hon, -⟩ := hforks.fork
  rw [hrule] at hrule'
  cases hrule'
  obtain ⟨o, ho⟩ := exists_outcome_of_factorRoot hg hbefore hrule hstep
  have hparts : o.parts ≠ [] := by
    refine ho.parted.parts_ne_nil (Or.inr ⟨u, hu, ?_⟩)
    exact contains_iff_mem_ids.mpr (List.mem_map_of_mem hon)
  exact ⟨_, Grammar.ofRules_eq_ok.mpr ⟨ho.wellFormed hg hbefore hrule hparts, rfl⟩⟩

/-- A shared prefix that has been discovered can be factored out. -/
theorem leftFactor_succeeds {tags : Tagging} {s : Session} (hg : Coherent g tags s)
    (htagged : TaggedBy Tag.Suits g tags) (hforks : p.Forks g) :
    Succeeds (leftFactor g tags p) s := by
  have hready : FactorTask.Ready ⟨g, tags, p⟩ := ⟨hg.valid, htagged, hforks⟩
  obtain ⟨lhs, alternatives, -, -, hrule, -⟩ := hforks.fork
  obtain ⟨tag, htag, hsuits, -⟩ := htagged.of_rule? hrule
  unfold leftFactor
  refine Succeeds.ofExcept_bind (Grammar.requireRule_eq_ok.mpr hrule)
    (Succeeds.ofExcept_bind (Tagging.require_eq_ok.mpr htag) ?_)
  refine (runFactoring_succeeds (factorRoot_succeeds hready hsuits _)).bind
    fun bench s₁ hrun => ?_
  obtain ⟨hstep, -⟩ := runFactoring_eq_ok hrun
  have hbefore : FactorTask.Before ⟨g, tags, p⟩ s := hg.fresh
  obtain ⟨g', hof⟩ := exists_ofRules_of_factorRoot hg.valid hbefore hforks hrule hstep
  exact (rebuild_succeeds hof s₁).bind fun _ _ _ => .pure _ _

end Splitting

end FluentGrammar
