import FluentGrammar.Proofs.Rewriting.Steps
import FluentGrammar.Proofs.Chain.Enumeration
import FluentGrammar.Proofs.SharedPrefix.Splitting
import FluentGrammar.Proofs.Supply.Sessions

/-! # Runs of factoring

    What a step of factoring does to a workbench, taken apart once for every place that needs
    to know it: which variables it adds, with which rules and tags, and which splits it
    records. Splitting is described by one case for each way of splitting a variable, in
    terms of the runs for the variables below; what holds of all runs is proved from these
    cases by induction.
-/

namespace FluentGrammar

/-! ## Adding variables -/

/-- A new variable is added to a workbench, with its rule and its tag. -/
structure Workbench.Adds (b : Workbench) (rule : Rule) (tag : Tag) (b' : Workbench) : Prop where
  id_eq : rule.lhs.id = b.session.ids.issued
  issued_eq : b'.session.ids.issued = b.session.ids.issued + 1
  issues : b.session.Issues [rule.lhs] b'.session
  tally_eq : b'.session.tally =
    { b.session.tally with synthesized := b.session.tally.synthesized + 1 }
  splits_eq : b'.splits = b.splits
  rules_eq : b'.rules = b.rules ++ [rule]
  tags_eq : b'.tags = b.tags ++ [(rule.lhs, tag)]

theorem Workbench.Adds.rounds_eq {b b' : Workbench} {rule : Rule} {tag : Tag}
    (h : b.Adds rule tag b') :
    b'.session.tally.iterations = b.session.tally.iterations := by
  rw [h.tally_eq]

/-- A variable stands for a choice among variables: the only one of them, or a new selection
    among them. -/
inductive Workbench.Chooses (b : Workbench) (vars : List Variable) (tag : Tag) :
    Variable → Workbench → Prop where
  | alone {v : Variable} (hvars : vars = [v]) : b.Chooses vars tag v b
  | added {v : Variable} {b' : Workbench} (hvars : vars.length ≠ 1)
      (hadd : b.Adds (.selection v vars) tag b') : b.Chooses vars tag v b'

section Adding

variable {b b' : Workbench} {seed : String} {tag : Tag} {v : Variable}

theorem addVariable_eq_ok {rule : Variable → Rule} :
    addVariable seed rule tag b = .ok v b' ↔
      v = (b.session.take seed).1 ∧ b' =
        { session := (b.session.take seed).2.count (fun t =>
            { t with synthesized := t.synthesized + 1 })
          splits := b.splits
          rules := b.rules ++ [rule v]
          tags := b.tags ++ [(v, tag)] } := by
  have hrun : addVariable seed rule tag b = .ok (b.session.take seed).1
      { session := (b.session.take seed).2.count (fun t =>
          { t with synthesized := t.synthesized + 1 })
        splits := b.splits
        rules := b.rules ++ [rule (b.session.take seed).1]
        tags := b.tags ++ [((b.session.take seed).1, tag)] } := rfl
  rw [hrun]
  constructor
  · intro h
    cases h
    exact ⟨rfl, rfl⟩
  · intro hand
    obtain ⟨hv, hb'⟩ := hand
    rw [hb', hv]

theorem addVariable_adds {rule : Variable → Rule} (hlhs : ∀ u, (rule u).lhs = u)
    (h : addVariable seed rule tag b = .ok v b') : b.Adds (rule v) tag b' := by
  obtain ⟨rfl, rfl⟩ := addVariable_eq_ok.mp h
  refine ⟨?_, rfl, ?_, rfl, rfl, rfl, ?_⟩
  · rw [hlhs]
    rfl
  · rw [hlhs]
    exact (Session.Issues.take b.session seed).count fun t =>
      { t with synthesized := t.synthesized + 1 }
  · rw [hlhs]

theorem addDerivation_adds {rhs : List Symbol} (h : addDerivation seed rhs tag b = .ok v b') :
    b.Adds (.derivation v rhs) tag b' :=
  addVariable_adds (fun _ => rfl) h

theorem addSelection_chooses {vars : List Variable}
    (h : addSelection seed vars tag b = .ok v b') : b.Chooses vars tag v b' := by
  unfold addSelection at h
  split at h
  · obtain ⟨rfl, rfl⟩ := pure_eq_ok.mp h
    exact .alone rfl
  · rename_i hone
    refine .added ?_ (addVariable_adds (fun _ => rfl) h)
    intro hlength
    obtain ⟨u, hu⟩ := List.length_eq_one_iff.mp hlength
    exact hone u hu

end Adding

/-! ## Splitting -/

/-- A run of splitting: from a workbench, for a variable, to its split and the workbench
    afterwards. -/
abbrev SplitRun := Workbench → Variable → Split → Workbench → Prop

/-- How alternatives are split one after the other. `R` tells the runs for single ones. -/
inductive PartsRun (R : SplitRun) (onChain : List Variable) :
    List Variable → List Variable → List Variable → Workbench →
      List Variable → List Variable → Workbench → Prop where
  /-- All alternatives have been split. -/
  | nil {fulls parts : List Variable} {b : Workbench} :
      PartsRun R onChain [] fulls parts b fulls parts b
  /-- An alternative that is on no chain is not split. -/
  | aside {v : Variable} {rest fulls parts fulls' parts' : List Variable} {b b' : Workbench}
      (hv : onChain.contains v = false)
      (hrest : PartsRun R onChain rest (addUnique fulls v) parts b fulls' parts' b') :
      PartsRun R onChain (v :: rest) fulls parts b fulls' parts' b'
  /-- An alternative without a full part. -/
  | through {v part : Variable} {rest fulls parts fulls' parts' : List Variable}
      {b b₁ b' : Workbench} (hv : onChain.contains v = true) (hs : R b v ⟨none, part⟩ b₁)
      (hrest : PartsRun R onChain rest fulls (addUnique parts part) b₁ fulls' parts' b') :
      PartsRun R onChain (v :: rest) fulls parts b fulls' parts' b'
  /-- An alternative with both parts. -/
  | both {v full part : Variable} {rest fulls parts fulls' parts' : List Variable}
      {b b₁ b' : Workbench} (hv : onChain.contains v = true)
      (hs : R b v ⟨some full, part⟩ b₁)
      (hrest : PartsRun R onChain rest (addUnique fulls full) (addUnique parts part) b₁
        fulls' parts' b') :
      PartsRun R onChain (v :: rest) fulls parts b fulls' parts' b'

/-- How a variable is split that has not been split before, up to the record of it. -/
inductive SplitStep (task : FactorTask) (R : SplitRun) (b : Workbench) (v : Variable) :
    Split → Workbench → Prop where
  /-- A derivation that reads the shared terminal. -/
  | reads {lhs part : Variable} {rest : List Symbol} {tag partTag : Tag} {b' : Workbench}
      (htag : task.tags.require v = .ok tag)
      (hrule : task.grammar.rule? v = some (.derivation lhs (.term task.target.symbol :: rest)))
      (hpartTag : tag.withComponents task.target.symbol.params .derivation = .ok partTag)
      (hpart : b.Adds (.derivation part rest) partTag b') :
      SplitStep task R b v ⟨none, part⟩ b'
  /-- A derivation that starts with a variable without a full part. -/
  | through {lhs w below part : Variable} {rest : List Symbol} {tag partTag : Tag}
      {b₁ b' : Workbench} (htag : task.tags.require v = .ok tag)
      (hrule : task.grammar.rule? v = some (.derivation lhs (.var w :: rest)))
      (hpartTag : tag.withComponents task.target.symbol.params .derivation = .ok partTag)
      (hbelow : R b w ⟨none, below⟩ b₁)
      (hpart : b₁.Adds (.derivation part (.var below :: rest)) partTag b') :
      SplitStep task R b v ⟨none, part⟩ b'
  /-- A derivation that starts with a variable with both parts. -/
  | both {lhs w belowFull below full part : Variable} {rest : List Symbol} {tag partTag : Tag}
      {b₁ b₂ b' : Workbench} (htag : task.tags.require v = .ok tag)
      (hrule : task.grammar.rule? v = some (.derivation lhs (.var w :: rest)))
      (hpartTag : tag.withComponents task.target.symbol.params .derivation = .ok partTag)
      (hbelow : R b w ⟨some belowFull, below⟩ b₁)
      (hpart : b₁.Adds (.derivation part (.var below :: rest)) partTag b₂)
      (hfull : b₂.Adds (.derivation full (.var belowFull :: rest)) tag b') :
      SplitStep task R b v ⟨some full, part⟩ b'
  /-- A selection all alternatives of which go through the chains. -/
  | choice {lhs part : Variable} {alternatives parts : List Variable} {tag partTag : Tag}
      {b₁ b' : Workbench} (htag : task.tags.require v = .ok tag)
      (hrule : task.grammar.rule? v = some (.selection lhs alternatives))
      (hparts : PartsRun R (task.successors lhs) alternatives [] [] b [] parts b₁)
      (hne : parts ≠ [])
      (hpartTag : tag.withComponents task.target.symbol.params .selection = .ok partTag)
      (hpart : b₁.Chooses parts partTag part b') :
      SplitStep task R b v ⟨none, part⟩ b'
  /-- Any other selection. -/
  | choices {lhs full part : Variable} {alternatives fulls parts : List Variable}
      {tag partTag : Tag} {b₁ b₂ b' : Workbench} (htag : task.tags.require v = .ok tag)
      (hrule : task.grammar.rule? v = some (.selection lhs alternatives))
      (hparts : PartsRun R (task.successors lhs) alternatives [] [] b fulls parts b₁)
      (hne : parts ≠ []) (hfulls : fulls ≠ [])
      (hpartTag : tag.withComponents task.target.symbol.params .selection = .ok partTag)
      (hpart : b₁.Chooses parts partTag part b₂) (hfull : b₂.Chooses fulls tag full b') :
      SplitStep task R b v ⟨some full, part⟩ b'

section Splitting

variable {task : FactorTask} {split : Variable → Factoring Split} {b b' : Workbench}

/-- The runs of a way to split variables. -/
def runsOf (split : Variable → Factoring Split) : SplitRun :=
  fun b v result b' => split v b = .ok result b'

theorem PartsRun.mono {R R' : SplitRun} (hR : ∀ b v s b', R b v s b' → R' b v s b')
    {onChain alternatives fulls parts fulls' parts' : List Variable}
    (h : PartsRun R onChain alternatives fulls parts b fulls' parts' b') :
    PartsRun R' onChain alternatives fulls parts b fulls' parts' b' := by
  induction h with
  | nil => exact .nil
  | aside hv _ ih => exact .aside hv ih
  | through hv hs _ ih => exact .through hv (hR _ _ _ _ hs) ih
  | both hv hs _ ih => exact .both hv (hR _ _ _ _ hs) ih

theorem SplitStep.mono {R R' : SplitRun} (hR : ∀ b v s b', R b v s b' → R' b v s b')
    {v : Variable} {s : Split} (h : SplitStep task R b v s b') : SplitStep task R' b v s b' := by
  cases h with
  | reads htag hrule hpartTag hpart => exact .reads htag hrule hpartTag hpart
  | through htag hrule hpartTag hbelow hpart =>
    exact .through htag hrule hpartTag (hR _ _ _ _ hbelow) hpart
  | both htag hrule hpartTag hbelow hpart hfull =>
    exact .both htag hrule hpartTag (hR _ _ _ _ hbelow) hpart hfull
  | choice htag hrule hparts hne hpartTag hpart =>
    exact .choice htag hrule (hparts.mono hR) hne hpartTag hpart
  | choices htag hrule hparts hne hfulls hpartTag hpart hfull =>
    exact .choices htag hrule (hparts.mono hR) hne hfulls hpartTag hpart hfull

theorem splitAlternatives_run {onChain alternatives fulls parts fulls' parts' : List Variable}
    (h : splitAlternatives split onChain alternatives fulls parts b = .ok (fulls', parts') b') :
    PartsRun (runsOf split) onChain alternatives fulls parts b fulls' parts' b' := by
  induction alternatives generalizing b fulls parts with
  | nil =>
    rw [splitAlternatives, pure_eq_ok] at h
    obtain ⟨heq, rfl⟩ := h
    cases heq
    exact .nil
  | cons v rest ih =>
    rw [splitAlternatives] at h
    by_cases hv : onChain.contains v = true
    · rw [if_pos hv] at h
      obtain ⟨⟨full, part⟩, b₁, hrun, h⟩ := bind_eq_ok.mp h
      cases full with
      | none => exact .through hv hrun (ih h)
      | some full => exact .both hv hrun (ih h)
    · rw [if_neg hv] at h
      exact .aside (by simpa using hv) (ih h)

theorem splitDerivation_step {v lhs : Variable} {rhs : List Symbol} {tag : Tag} {s : Split}
    (htag : task.tags.require v = .ok tag)
    (hrule : task.grammar.rule? v = some (.derivation lhs rhs))
    (h : splitDerivation task split lhs rhs tag b = .ok s b') :
    SplitStep task (runsOf split) b v s b' := by
  unfold splitDerivation at h
  obtain ⟨partTag, b₁, hcomponents, h⟩ := bind_eq_ok.mp h
  obtain ⟨hpartTag, rfl⟩ := ofExcept_eq_ok.mp hcomponents
  -- The first symbol decides: nothing is an error, the terminal itself ends the chain, and a
  -- variable has been split further below.
  cases rhs with
  | nil => exact absurd h (by simp [throw_eq_ok])
  | cons x rest =>
    cases x with
    | term t =>
      simp only at h
      by_cases ht : (t != task.target.symbol) = true
      · -- A derivation that reads another terminal is on no chain of the prefix.
        rw [if_pos ht, bind_eq_ok] at h
        obtain ⟨u, b₂, hthrow, -⟩ := h
        exact absurd hthrow (by simp [throw_eq_ok])
      · rw [if_neg ht] at h
        obtain ⟨part, b₂, hpart, h⟩ := bind_eq_ok.mp h
        obtain ⟨rfl, rfl⟩ := pure_eq_ok.mp h
        have hsymbol : t = task.target.symbol := by simpa using ht
        rw [hsymbol] at hrule
        exact .reads htag hrule hpartTag (addDerivation_adds hpart)
    | var w =>
      simp only at h
      obtain ⟨⟨belowFull, below⟩, b₂, hbelow, h⟩ := bind_eq_ok.mp h
      obtain ⟨part, b₃, hpart, h⟩ := bind_eq_ok.mp h
      cases belowFull with
      | none =>
        obtain ⟨rfl, rfl⟩ := pure_eq_ok.mp h
        exact .through htag hrule hpartTag hbelow (addDerivation_adds hpart)
      | some belowFull =>
        simp only at h
        obtain ⟨full, b₄, hfull, h⟩ := bind_eq_ok.mp h
        obtain ⟨rfl, rfl⟩ := pure_eq_ok.mp h
        exact .both htag hrule hpartTag hbelow (addDerivation_adds hpart)
          (addDerivation_adds hfull)

theorem splitSelection_step {v lhs : Variable} {alternatives : List Variable} {tag : Tag}
    {s : Split} (htag : task.tags.require v = .ok tag)
    (hrule : task.grammar.rule? v = some (.selection lhs alternatives))
    (h : splitSelection task split lhs alternatives tag b = .ok s b') :
    SplitStep task (runsOf split) b v s b' := by
  unfold splitSelection at h
  obtain ⟨⟨fulls, parts⟩, b₁, hrun, h⟩ := bind_eq_ok.mp h
  have hparts := splitAlternatives_run hrun
  simp only at h
  by_cases hne : parts.isEmpty = true
  · -- Without a partial part no chain goes through the selection.
    rw [if_pos hne, bind_eq_ok] at h
    obtain ⟨u, b₂, hthrow, -⟩ := h
    exact absurd hthrow (by simp [throw_eq_ok])
  rw [if_neg hne] at h
  rw [List.isEmpty_iff] at hne
  obtain ⟨partTag, b₂, hcomponents, h⟩ := bind_eq_ok.mp h
  obtain ⟨hpartTag, rfl⟩ := ofExcept_eq_ok.mp hcomponents
  obtain ⟨part, b₃, hpart, h⟩ := bind_eq_ok.mp h
  -- Where every alternative is on a chain, nothing is left for a full part.
  by_cases hfulls : fulls.isEmpty = true
  · rw [if_pos hfulls, pure_eq_ok] at h
    obtain ⟨rfl, rfl⟩ := h
    rw [List.isEmpty_iff] at hfulls
    subst hfulls
    exact .choice htag hrule hparts hne hpartTag (addSelection_chooses hpart)
  · rw [if_neg hfulls] at h
    rw [List.isEmpty_iff] at hfulls
    obtain ⟨full, b₄, hfull, h⟩ := bind_eq_ok.mp h
    obtain ⟨rfl, rfl⟩ := pure_eq_ok.mp h
    exact .choices htag hrule hparts hne hfulls hpartTag (addSelection_chooses hpart)
      (addSelection_chooses hfull)

/-- A property of runs that holds when a split is recalled, and when a split is made by runs
    with the property, holds of all runs. -/
theorem splitWithin_induction {P : SplitRun}
    (recalled : ∀ b v s, Recorded b.splits v s → P b v s b)
    (make : ∀ b v s b', SplitStep task P b v s b' →
      P b v s { b' with splits := (v, s) :: b'.splits })
    (fuel : Nat) : ∀ b v s b', runsOf (splitWithin task fuel) b v s b' → P b v s b' := by
  induction fuel with
  | zero =>
    intro b v s b' h
    exact absurd h (by simp [runsOf, splitWithin, throw_eq_ok])
  | succ fuel ih =>
    intro b v s b' h
    unfold runsOf splitWithin at h
    obtain ⟨b₀, b₁, hget, h⟩ := bind_eq_ok.mp h
    obtain ⟨hb₀, hb₁⟩ := get_eq_ok.mp hget
    rw [hb₀, hb₁] at h
    cases hfind : b.splits.find? (fun entry => entry.1 == v) with
    | some entry =>
      rw [hfind] at h
      obtain ⟨rfl, rfl⟩ := pure_eq_ok.mp h
      refine recalled b v entry.2 ⟨entry.1, List.mem_of_find?_eq_some hfind, ?_⟩
      simpa using List.find?_some hfind
    | none =>
      rw [hfind] at h
      obtain ⟨tag, b₂, hrequire, h⟩ := bind_eq_ok.mp h
      obtain ⟨htag, rfl⟩ := ofExcept_eq_ok.mp hrequire
      obtain ⟨r, b₃, hlookup, h⟩ := bind_eq_ok.mp h
      obtain ⟨hrule, rfl⟩ := ofExcept_eq_ok.mp hlookup
      rw [Grammar.requireRule_eq_ok] at hrule
      -- The runs below have less fuel, so they have the property.
      cases r with
      | derivation lhs rhs =>
        obtain ⟨made, b₄, hmade, h⟩ := bind_eq_ok.mp h
        obtain ⟨u, b₅, hrecord, h⟩ := bind_eq_ok.mp h
        obtain ⟨rfl, rfl⟩ := pure_eq_ok.mp h
        rw [modify_eq_ok.mp hrecord]
        exact make b v made b₄ ((splitDerivation_step htag hrule hmade).mono ih)
      | selection lhs alternatives =>
        obtain ⟨made, b₄, hmade, h⟩ := bind_eq_ok.mp h
        obtain ⟨u, b₅, hrecord, h⟩ := bind_eq_ok.mp h
        obtain ⟨rfl, rfl⟩ := pure_eq_ok.mp h
        rw [modify_eq_ok.mp hrecord]
        exact make b v made b₄ ((splitSelection_step htag hrule hmade).mono ih)

end Splitting

/-! ## The root -/

/-- What the new alternative of a root reads. -/
def FactorTask.leadBody (task : FactorTask) (rest : Variable) : List Symbol :=
  [.term task.target.symbol, .var rest]

/-- How the root is given its new rule, once a variable stands for the partial parts. -/
inductive RootStep (task : FactorTask) (leadTag : Tag) (remaining : List Variable)
    (rest : Variable) (b : Workbench) : Workbench → Prop where
  /-- Without another alternative the root reads the terminal itself. -/
  | replaced (hremaining : remaining = []) :
      RootStep task leadTag remaining rest b
        { b with
          rules := b.rules ++ [.derivation task.target.root (task.leadBody rest)]
          tags := b.tags ++ [(task.target.root, leadTag)] }
  /-- Otherwise a new alternative does. -/
  | offered {lead : Variable} {b₁ : Workbench} (hremaining : remaining ≠ [])
      (hlead : b.Adds (.derivation lead (task.leadBody rest)) leadTag b₁) :
      RootStep task leadTag remaining rest b
        { b₁ with rules := b₁.rules ++ [.selection task.target.root (lead :: remaining)] }

/-- A run of factoring: the alternatives of the root are split, a variable is found for their
    partial parts, and the root gets its new rule. -/
structure RootRun (task : FactorTask) (alternatives : List Variable) (tag : Tag)
    (remaining parts : List Variable) (rest : Variable) (b b₁ b₂ b' : Workbench) : Prop where
  parts_run : PartsRun (runsOf (splitVariable task)) (task.successors task.target.root)
    alternatives [] [] b remaining parts b₁
  chooses : ∃ restTag, tag.withComponents task.target.symbol.params .selection = .ok restTag ∧
    b₁.Chooses parts restTag rest b₂
  root_step : ∃ leadTag, tag.reshaped .derivation = .ok leadTag ∧
    RootStep task leadTag remaining rest b₂ b'

theorem factorRoot_run {task : FactorTask} {alternatives : List Variable} {tag : Tag} {u : Unit}
    {b b' : Workbench} (h : factorRoot task alternatives tag b = .ok u b') :
    ∃ remaining parts rest b₁ b₂,
      RootRun task alternatives tag remaining parts rest b b₁ b₂ b' := by
  unfold factorRoot at h
  obtain ⟨⟨remaining, parts⟩, b₁, hrun, h⟩ := bind_eq_ok.mp h
  simp only at h
  obtain ⟨restTag, b₂, hcomponents, h⟩ := bind_eq_ok.mp h
  obtain ⟨hrestTag, rfl⟩ := ofExcept_eq_ok.mp hcomponents
  obtain ⟨rest, b₃, hrest, h⟩ := bind_eq_ok.mp h
  obtain ⟨leadTag, b₄, hreshaped, h⟩ := bind_eq_ok.mp h
  obtain ⟨hleadTag, rfl⟩ := ofExcept_eq_ok.mp hreshaped
  refine ⟨remaining, parts, rest, b₁, b₃, splitAlternatives_run hrun,
    ⟨restTag, hrestTag, addSelection_chooses hrest⟩, leadTag, hleadTag, ?_⟩
  by_cases hremaining : remaining.isEmpty = true
  · rw [if_pos hremaining, modify_eq_ok] at h
    rw [h]
    exact .replaced (List.isEmpty_iff.mp hremaining)
  · rw [if_neg hremaining] at h
    obtain ⟨lead, b₅, hlead, h⟩ := bind_eq_ok.mp h
    rw [modify_eq_ok] at h
    rw [h]
    exact .offered (fun hnil => hremaining (List.isEmpty_iff.mpr hnil))
      (addDerivation_adds hlead)

theorem runFactoring_eq_ok {step : Factoring Unit} {s s' : Session} {b : Workbench}
    (h : runFactoring step s = .ok b s') :
    step ⟨s, [], [], []⟩ = .ok () b ∧ s' = b.session := by
  unfold runFactoring at h
  obtain ⟨s₀, s₁, hget, h⟩ := bind_eq_ok.mp h
  obtain ⟨hs₀, hs₁⟩ := get_eq_ok.mp hget
  rw [hs₀, hs₁] at h
  cases hrun : step.run ⟨s, [], [], []⟩ with
  | ok u bench =>
    rw [hrun] at h
    obtain ⟨u', s₂, hset, h⟩ := bind_eq_ok.mp h
    obtain ⟨hbench, hs'⟩ := pure_eq_ok.mp h
    rw [set_eq_ok] at hset
    rw [← hbench, ← hs', hset]
    exact ⟨hrun, rfl⟩
  | error e bench =>
    rw [hrun] at h
    obtain ⟨u', s₂, hset, h⟩ := bind_eq_ok.mp h
    exact absurd h (by simp [throw_eq_ok])

end FluentGrammar
